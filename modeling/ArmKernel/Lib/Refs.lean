import Mathlib.Data.Fintype.Card
import Mathlib.Data.Finset.Card

/-! Reference counts of a table of optional pointers. -/
namespace ArmKernel.Lib

variable {ι κ : Type} [Fintype ι] [DecidableEq κ]

def refs (f : ι → Option κ) (s : κ) : Nat := (Finset.univ.filter fun i => f i = some s).card

variable {f : ι → Option κ} {i : ι} {s t : κ}

theorem refs_pos (h : f i = some s) : 0 < refs f s :=
  Finset.card_pos.mpr ⟨i, by simp [h]⟩

theorem refs_eq_zero : refs f s = 0 ↔ ∀ i, f i ≠ some s := by
  simp [refs, Finset.filter_eq_empty_iff]

theorem refs_le : refs f s ≤ Fintype.card ι := Finset.card_le_univ _

variable [DecidableEq ι]

theorem refs_update_ne {x : Option κ} (h : f i ≠ some t) (hx : x ≠ some t) :
    refs (Function.update f i x) t = refs f t := by
  unfold refs
  congr 1
  ext j
  by_cases hj : j = i
  · subst hj
    simp [h, hx]
  · simp [hj]

theorem refs_point (h : f i ≠ some s) : refs (Function.update f i (some s)) s = refs f s + 1 := by
  unfold refs
  rw [← Finset.card_insert_of_notMem (a := i) (by simp [h])]
  congr 1
  ext j
  by_cases hj : j = i
  · subst hj
    simp
  · simp [hj]

theorem refs_clear (h : f i = some s) : refs (Function.update f i none) s + 1 = refs f s := by
  have hc : Function.update f i none i ≠ some s := by simp
  have := refs_point (f := Function.update f i none) hc
  rw [Function.update_idem, ← h, Function.update_eq_self] at this
  exact this.symm

end ArmKernel.Lib
