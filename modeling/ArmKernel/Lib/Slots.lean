import Mathlib.Data.List.Rotate
import Mathlib.Data.List.FinRange
import Mathlib.Data.List.Nodup
import Mathlib.Logic.Function.Basic

/-! A list kept at the front of an array of optional cells. -/
namespace ArmKernel.Lib.Slots

variable {α : Type} {n : Nat}

structure Holds (a : Fin n → Option α) (l : List α) : Prop where
  fits : l.length ≤ n
  cells : ∀ i : Fin n, a i = l[i.val]?

variable {a b : Fin n → Option α} {l : List α} {x : α}

theorem Holds.cell_lt (h : Holds a l) {i : Fin n} (hi : i.val < l.length) : a i = some (l.get ⟨i, hi⟩) := by
  rw [h.cells, List.getElem?_eq_getElem hi]
  rfl

theorem Holds.cell_ge (h : Holds a l) {i : Fin n} (hi : l.length ≤ i.val) : a i = none := by
  rw [h.cells, List.getElem?_eq_none hi]

theorem Holds.mem_iff (h : Holds a l) : x ∈ l ↔ ∃ i, a i = some x := by
  constructor
  · intro hx
    obtain ⟨i, hi⟩ := List.getElem?_of_mem hx
    have hlt := (List.getElem?_eq_some_iff.mp hi).1
    have := h.fits
    exact ⟨⟨i, by omega⟩, by rw [h.cells, ← hi]⟩
  · rintro ⟨i, hi⟩
    rw [h.cells] at hi
    exact List.mem_of_getElem? hi

theorem filterMap_finRange {n : Nat} (l : List α) (hfits : l.length ≤ n) :
    (List.finRange n).filterMap (fun i => l[i.val]?) = l := by
  induction n generalizing l with
  | zero =>
    rw [List.length_eq_zero_iff.mp (Nat.le_zero.mp hfits)]
    rfl
  | succ n ih =>
    rw [List.finRange_succ]
    cases l with
    | nil => simp
    | cons x rest =>
      have htail := ih rest (Nat.le_of_succ_le_succ hfits)
      rw [List.filterMap_cons, List.filterMap_map]
      exact congrArg (List.cons x) htail

theorem Holds.filterMap (h : Holds a l) : (List.finRange n).filterMap a = l := by
  rw [show a = fun i => l[i.val]? from funext h.cells]
  exact filterMap_finRange l h.fits

theorem Holds.cell_inj (h : Holds a l) (hl : l.Nodup) {i j : Fin n} (hi : a i = some x)
    (hj : a j = some x) : i = j := by
  rw [h.cells] at hi hj
  apply Fin.ext
  exact (List.getElem?_inj (List.getElem?_eq_some_iff.mp hi).1 hl).mp (hi.trans hj.symm)

theorem Holds.push (h : Holds a l) (hlt : l.length < n) (x : α) :
    Holds (Function.update a ⟨l.length, hlt⟩ (some x)) (l ++ [x]) := by
  refine ⟨by simp; omega, fun i => ?_⟩
  by_cases hi : i = ⟨l.length, hlt⟩
  · subst hi
    simp
  · have hne : i.val ≠ l.length := fun he => hi (Fin.ext he)
    rw [Function.update_of_ne hi, h.cells]
    rcases Nat.lt_or_ge i.val l.length with hlt' | hge
    · rw [List.getElem?_append_left hlt']
    · rw [List.getElem?_eq_none hge, List.getElem?_eq_none (by simp; omega)]

theorem Holds.close (h : Holds a l) {p : Nat} (hp : p < l.length)
    (hb : ∀ i : Fin n, b i = if i.val + 1 = l.length then none
      else if hi : p ≤ i.val ∧ i.val + 1 < l.length ∧ i.val + 1 < n then a ⟨i.val + 1, hi.2.2⟩ else a i) :
    Holds b (l.eraseIdx p) := by
  have hfits := h.fits
  refine ⟨by rw [List.length_eraseIdx]; split <;> omega, fun i => ?_⟩
  rw [hb, List.getElem?_eraseIdx]
  split
  · next hlast =>
    split
    · omega
    · rw [List.getElem?_eq_none (by omega)]
  · next hlast =>
    split
    · next hmid => rw [if_neg (by omega), h.cells]
    · next hmid =>
      rw [h.cells]
      split
      · rfl
      · rw [List.getElem?_eq_none (by omega), List.getElem?_eq_none (by omega)]

/-! The list in front of anything. -/

structure Front (a : Fin n → Option α) (l : List α) : Prop where
  fits : l.length ≤ n
  cells : ∀ i : Fin n, i.val < l.length → a i = l[i.val]?

theorem Holds.front (h : Holds a l) : Front a l := ⟨h.fits, fun i _ => h.cells i⟩

theorem Front.rotate (h : Front a l)
    (hb : ∀ i : Fin n, i.val < l.length → b i = if i.val + 1 = l.length then a ⟨0, i.pos⟩
      else if hi : i.val + 1 < l.length ∧ i.val + 1 < n then a ⟨i.val + 1, hi.2⟩ else a i) :
    Front b (l.rotate 1) := by
  have hfits := h.fits
  refine ⟨by simpa using hfits, fun i hi => ?_⟩
  rw [List.length_rotate] at hi
  rw [hb i hi, List.getElem?_rotate hi]
  split
  · next hlast => rw [h.cells _ (by dsimp only; omega), hlast, Nat.mod_self]
  · next hlast =>
    rw [dif_pos ⟨by omega, by omega⟩, h.cells _ (by dsimp only; omega), Nat.mod_eq_of_lt (by omega)]

theorem Holds.rotate (h : Holds a l)
    (hb : ∀ i : Fin n, b i = if i.val + 1 = l.length then a ⟨0, i.pos⟩
      else if hi : i.val + 1 < l.length ∧ i.val + 1 < n then a ⟨i.val + 1, hi.2⟩ else a i) :
    Holds b (l.rotate 1) := by
  have hfront := h.front.rotate fun i _ => hb i
  refine ⟨hfront.fits, fun i => ?_⟩
  by_cases hlt : i.val < l.length
  · exact hfront.cells i (by simpa using hlt)
  · rw [hb, if_neg (by omega), dif_neg (by omega), h.cell_ge (by omega),
      List.getElem?_eq_none (by simpa using hlt)]

theorem rotate_index (l : List α) (s : Nat) :
    (l.rotate 1)[s % (l.rotate 1).length]? = l[(s + 1) % l.length]? := by
  rw [List.length_rotate]
  by_cases hl : l = []
  · simp [hl]
  · have hlt := Nat.mod_lt s (List.length_pos_iff.mpr hl)
    rw [List.getElem?_rotate hlt, Nat.mod_add_mod]

end ArmKernel.Lib.Slots
