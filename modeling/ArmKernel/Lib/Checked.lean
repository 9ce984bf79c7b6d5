import Mathlib.Data.Option.Basic

/-! Computations over a state that stop at an access outside of a table. A
computation that has a result has made every access inside. -/
namespace ArmKernel.Lib

abbrev Checked (σ : Type) := StateT σ Option

namespace Checked

variable {σ α β ι : Type} {s s' : σ}

def index (n : Nat) (i : Int) : Checked σ (Fin n) := fun s =>
  if h : 0 ≤ i ∧ i.toNat < n then some (⟨i.toNat, h.2⟩, s) else none

def span (n len : Nat) : Checked σ Unit := fun s => if len ≤ n then some ((), s) else none

def deref (x : Option α) : Checked σ α := fun s => x.map (·, s)

theorem index_inside {n : Nat} {i : Int} (h : 0 ≤ i ∧ i.toNat < n) : (index n i : Checked σ (Fin n)) s = some (⟨i.toNat, h.2⟩, s) :=
  dif_pos h

theorem index_val {n : Nat} (i : Fin n) : (index n i.val : Checked σ (Fin n)) s = some (i, s) :=
  index_inside ⟨Int.natCast_nonneg _, i.isLt⟩

theorem index_outside {n : Nat} {i : Int} (h : ¬(0 ≤ i ∧ i.toNat < n)) : (index n i : Checked σ (Fin n)) s = none :=
  dif_neg h

theorem span_inside {n len : Nat} (h : len ≤ n) : (span n len : Checked σ Unit) s = some ((), s) := if_pos h

theorem span_outside {n len : Nat} (h : ¬len ≤ n) : (span n len : Checked σ Unit) s = none := if_neg h

theorem bind_inside {c : Checked σ α} {f : α → Checked σ β} {a : α} (h : c s = some (a, s')) : (c >>= f) s = f a s' := by
  change (c s).bind (fun p => f p.1 p.2) = f a s'
  rw [h]
  rfl

theorem bind_outside {c : Checked σ α} {f : α → Checked σ β} (h : c s = none) : (c >>= f) s = none := by
  change (c s).bind (fun p => f p.1 p.2) = none
  rw [h]
  rfl

theorem modify_inside (f : σ → σ) : (modify f : Checked σ PUnit) s = some (⟨⟩, f s) := rfl

theorem get_inside : (get : Checked σ σ) s = some (s, s) := rfl

theorem forM_inside {I : σ → Prop} {f : ι → Checked σ PUnit} {g : σ → ι → σ} {l : List ι}
    (hround : ∀ i ∈ l, ∀ s, I s → f i s = some (⟨⟩, g s i) ∧ I (g s i)) (hs : I s) :
    l.forM f s = some (⟨⟩, l.foldl g s) := by
  induction l generalizing s with
  | nil => rfl
  | cons i rest ih =>
    obtain ⟨hstep, hnext⟩ := hround i List.mem_cons_self s hs
    rw [List.forM, bind_inside hstep]
    exact ih (fun j hj => hround j (List.mem_cons_of_mem i hj)) hnext

end Checked

end ArmKernel.Lib
