import ArmKernel.Fs.Removal
import Mathlib.Data.List.GetD

/-! Lookup in a directory, whole: which entries a scan looks at, when one of
them matches, and what additions and removals do to both. A stored name has no
terminator, so a longer name matches it when the bytes behind it happen to
spell the rest. -/
namespace ArmKernel.Fs

open Lib Lib.Bytes Lib.Run SuperBlock

/-! The comparison. -/

theorem strncmpEq_iff (a b : Nat → UInt8) (i n : Nat) : strncmpEq a b i n = true ↔
    ∀ k < n, (∀ j < k, a (i + j) ≠ 0) → a (i + k) = b (i + k) := by
  induction n generalizing i with
  | zero => simp [strncmpEq]
  | succ n ih =>
    unfold strncmpEq
    split
    · next hne =>
      refine iff_of_false (by simp) fun h => hne ?_
      simpa using h 0 (by omega) fun j hj => absurd hj (by omega)
    · next heq =>
      rw [not_not] at heq
      split
      · next h0 =>
        refine iff_of_true rfl fun k hk hnz => ?_
        cases k with
        | zero => simpa using heq
        | succ k => exact absurd (by simpa using h0) (hnz 0 (by omega))
      · next h0 =>
        rw [ih]
        constructor
        · intro h k hk hnz
          cases k with
          | zero => simpa using heq
          | succ k =>
            have := h k (by omega) fun j hj => by
              have := hnz (j+1) (by omega)
              rwa [show i + (j+1) = i + 1 + j by omega] at this
            rwa [show i + (k+1) = i + 1 + k by omega]
        · intro h k hk hnz
          have := h (k+1) (by omega) fun j hj => by
            cases j with
            | zero => simpa using h0
            | succ j =>
              have := hnz j (by omega)
              rwa [show i + (j+1) = i + 1 + j by omega]
          rwa [show i + (k+1) = i + 1 + k by omega] at this

/-- The bytes from the name of entry `e` on spell `s`, if need be past the end
of the name. -/
def Spells (d : Image) (ic : ICommon) (e : Nat) (s : CStr) : Prop :=
  ∀ k < s.length, byte (entryBlock d ic e) (32 * (e % 16) + 6 + k) = s.getD k 0

/-- A name as it can be added: 1 to 25 characters, none of them the terminator. -/
structure NameFits (name : CStr) : Prop where
  pos : 1 ≤ name.length
  short : name.length ≤ 25
  string : 0 ∉ name

section

variable {d : Image} {ic : ICommon} {e : Nat} {s name : CStr} {ino : UInt32}

theorem DirEnt.Is.namlen_toNat {x : DirEnt} (h : x.Is ino name) (hlen : name.length ≤ 25) :
    x.dNamlen.toNat = name.length := by
  rw [h.namlen, strlen, UInt16.toNat_ofNat', Nat.mod_eq_of_lt (by omega)]

theorem DirEnt.Is.byte (h : (dirEntry d ic e).Is ino name) (hlen : name.length ≤ 25) {k : Nat}
    (hk : k < name.length) : byte (entryBlock d ic e) (32 * (e % 16) + 6 + k) = name.getD k 0 := by
  have hname := h.name k hk
  have h26 : k < 26 := by omega
  simp only [dirEntry, getDir, Vector.getElem?_ofFn, h26, dif_pos] at hname
  rw [List.getD_eq_getElem?_getD, ← hname]
  rfl

theorem nameMatch_iff (h : (dirEntry d ic e).Is ino name) (hn : NameFits name) (hs : 0 ∉ s) :
    nameMatch s (entryBlock d ic e) (e % 16) = true ↔ s = name ∨ (name.length < s.length ∧ Spells d ic e s) := by
  have hlen := h.namlen_toNat hn.short
  have hnz : ∀ k < s.length, s.getD k 0 ≠ 0 := by
    intro k hk h0
    rw [List.getD_eq_getElem _ _ hk] at h0
    exact hs (h0 ▸ List.getElem_mem hk)
  unfold nameMatch
  simp only [strncmpEq_iff, Nat.zero_add]
  change (∀ k < (if strlen s ≤ (dirEntry d ic e).dNamlen.toNat then (dirEntry d ic e).dNamlen.toNat
    else strlen s), _) ↔ _
  rw [hlen, strlen]
  by_cases hle : name.length ≤ s.length
  · -- all of `s` is compared
    have hmax : (if s.length ≤ name.length then name.length else s.length) = s.length := by
      split <;> omega
    rw [hmax]
    constructor
    · intro hall
      have hspell : Spells d ic e s := fun k hk => (hall k hk fun j hj => hnz j (by omega)).symm
      by_cases hlt : name.length < s.length
      · exact .inr ⟨hlt, hspell⟩
      · refine .inl (List.ext_getElem (by omega) fun k hk hk' => ?_)
        have := (h.byte hn.short hk').symm.trans (hspell k hk)
        rwa [List.getD_eq_getElem _ _ hk, List.getD_eq_getElem _ _ hk', eq_comm] at this
    · rintro (rfl | ⟨-, hspell⟩) k hk -
      · exact (h.byte hn.short hk).symm
      · exact (hspell k hk).symm
  · -- `s` ends before the name does
    have hmax : (if s.length ≤ name.length then name.length else s.length) = name.length := by
      split <;> omega
    rw [hmax]
    refine iff_of_false (fun hall => ?_) ?_
    · have := hall s.length (by omega) hnz
      rw [h.byte hn.short (by omega), List.getD_eq_default _ _ (le_refl _),
        List.getD_eq_getElem _ _ (by omega)] at this
      exact hn.string (this ▸ List.getElem_mem _)
    · rintro (rfl | ⟨hlt, -⟩)
      · exact hle (le_refl _)
      · omega

theorem nameMatch_starts (h : (dirEntry d ic e).Is ino name) (hn : NameFits name) (hs : 0 ∉ s)
    (hm : nameMatch s (entryBlock d ic e) (e % 16) = true) : name <+: s := by
  rcases (nameMatch_iff h hn hs).mp hm with rfl | ⟨hlt, hspell⟩
  · exact List.prefix_rfl
  · rw [List.prefix_iff_eq_take]
    apply List.ext_getElem
    · simp
      omega
    · intro k hk hk'
      have hbyte := (h.byte hn.short hk).symm.trans (hspell k (by omega))
      rw [List.getD_eq_getElem _ _ hk, List.getD_eq_getElem _ _ (by omega)] at hbyte
      rw [hbyte, List.getElem_take]

end

end ArmKernel.Fs
