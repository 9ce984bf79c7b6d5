import ArmKernel.Device.Refusal
import ArmKernel.Fs.Volume

/-! The disk the file system works on is the image behind the protocol: each
`disk_wr` and `disk_rd` of a volume is what the exchange with the server does
to the file, and an address past the end is refused three times. -/
namespace ArmKernel.Device

open Lib Lib.Bytes Lib.Duplex Prog Fs

structure Stores (fd : List UInt8) (v : Vol) : Prop where
  size : fd.length = v.num * 512
  bytes : ∀ a : UInt32, a.toNat < v.num → ∀ i < 512, fd[a.toNat * 512 + i]? = some (byte (v.disk a) i)

section

variable {fd : List UInt8} {v : Vol} {a : UInt32}

theorem volume_write (h : Stores fd v) (hnum : v.num ≤ 2^31) (ha : a.toNat < v.num) (x : Block) {n : Nat}
    (h1 : 1 ≤ n) (h512 : n ≤ 512) :
    ∃ fd', Settles 10 (serve ⟨v.num, 512⟩) ⟨diskWr a ((List.range n).map (byte x)), [], [], some fd⟩
      ⟨.ret (some (0, ())), [], [], some fd'⟩ ∧ Stores fd' (Fs.diskWr v a x n) := by
  have hlen : ((List.range n).map (byte x)).length = n := by simp
  have hfits : a.toNat * 512 + ((List.range n).map (byte x)).length ≤ fd.length := by
    rw [h.size, hlen]
    exact block_end ha h512
  refine ⟨_, diskWr_settles rfl ha (by omega) ?_, ⟨?_, fun b hb i hi => ?_⟩⟩
  · rw [ne_eq, ← List.length_eq_zero_iff, hlen]
    omega
  · rw [length_fileWrite hfits, h.size, Fs.diskWr, if_pos ha]
  · rw [Fs.diskWr, if_pos ha] at hb ⊢
    dsimp only at hb ⊢
    rw [getElem?_fileWrite hfits, hlen]
    by_cases hba : b = a
    · subst hba
      rw [Function.update_self]
      split
      · next hin =>
        rw [show b.toNat * 512 + i - b.toNat * 512 = i by omega]
        rw [byte_overlay_lt _ _ (by omega)]
        simp only [List.getElem?_map]
        rw [List.getElem?_range (by omega)]
        rfl
      · next hout =>
        rw [h.bytes b hb i hi, byte_overlay_ge _ _ (by omega)]
    · have hne : b.toNat ≠ a.toNat := fun he => hba (UInt32.toNat_inj.mp he)
      rw [Function.update_of_ne hba, if_neg (by omega)]
      exact h.bytes b hb i hi

theorem volume_read (h : Stores fd v) (hnum : v.num ≤ 2^31) (ha : a.toNat < v.num) (x : Block) :
    Settles 10 (serve ⟨v.num, 512⟩) ⟨diskRd a 512, [], [], some fd⟩
      ⟨.ret (some (0, (List.range 512).map (byte (Fs.diskRd v a x)))), [], [], some fd⟩ := by
  have hread : fileRead fd (a.toNat * 512) 512 = (List.range 512).map (byte (Fs.diskRd v a x)) := by
    apply List.ext_getElem?
    intro i
    by_cases hi : i < 512
    · rw [fileRead, List.getElem?_take_of_lt hi, List.getElem?_drop, h.bytes a ha i hi, List.getElem?_map,
        List.getElem?_range hi, Fs.diskRd, if_pos ha]
      rfl
    · rw [List.getElem?_eq_none (by simp [fileRead]; omega), List.getElem?_eq_none (by simp; omega)]
  rw [← hread]
  exact diskRd_settles rfl ha (by omega) h.size

/-! Refusals. -/

theorem volume_write_refused (h : Stores fd v) (ha : v.num ≤ a.toNat) (hlow : a.toNat < 2^31) (x : Block)
    {n : Nat} (h1 : 1 ≤ n) :
    Settles 10 (serve ⟨v.num, 512⟩) ⟨diskWr a ((List.range n).map (byte x)), [], [], some fd⟩
      ⟨.ret none, [], [], some fd⟩ ∧ Stores fd (Fs.diskWr v a x n) := by
  have hne : (List.range n).map (byte x) ≠ [] := by
    rw [ne_eq, ← List.length_eq_zero_iff]
    simp
    omega
  refine ⟨(diskWr_refused ha hlow hne).settles, ?_⟩
  rw [Fs.diskWr, if_neg (by omega)]
  exact ⟨h.size, h.bytes⟩

theorem volume_read_refused (ha : v.num ≤ a.toNat) (hlow : a.toNat < 2^31) (x : Block) :
    Settles 10 (serve ⟨v.num, 512⟩) ⟨diskRd a 512, [], [], some fd⟩ ⟨.ret none, [], [], some fd⟩ ∧
      Fs.diskRd v a x = x := by
  refine ⟨(diskRd_refused ha hlow 512).settles, ?_⟩
  rw [Fs.diskRd, if_neg (by omega)]

end

end ArmKernel.Device
