import Mathlib.Algebra.GroupWithZero.Nat
import Mathlib.Data.List.Basic

/-! Runs of a deterministic step function whose steps carry a guard, with the
invariant rule and the simulation rule. -/
namespace ArmKernel.Lib.Run

variable {σ τ ι : Type} {step : σ → ι → σ} {step' : τ → ι → τ} {ok : σ → ι → Prop}
  {ok' : τ → ι → Prop} {s : σ} {t : τ} {ops : List ι}

def run (step : σ → ι → σ) (s : σ) (ops : List ι) : σ := ops.foldl step s

@[simp] theorem run_nil : run step s [] = s := rfl

@[simp] theorem run_cons (i : ι) : run step s (i :: ops) = run step (step s i) ops := rfl

theorem run_append (ops' : List ι) : run step s (ops ++ ops') = run step (run step s ops) ops' :=
  List.foldl_append

/-- Every step of the run from `s` meets its guard where it is taken. -/
def Along (step : σ → ι → σ) (ok : σ → ι → Prop) : σ → List ι → Prop
  | _, [] => True
  | s, i :: rest => ok s i ∧ Along step ok (step s i) rest

theorem along_append (ops' : List ι) : Along step ok s (ops ++ ops') ↔
    Along step ok s ops ∧ Along step ok (run step s ops) ops' := by
  induction ops generalizing s with
  | nil => simp [Along]
  | cons i rest ih => simp [Along, ih, and_assoc]

theorem invariant {Inv : σ → Prop} (h : ∀ s i, Inv s → ok s i → Inv (step s i)) (h0 : Inv s)
    (ha : Along step ok s ops) : Inv (run step s ops) := by
  induction ops generalizing s with
  | nil => exact h0
  | cons i rest ih => exact ih (h s i h0 ha.1) ha.2

theorem invariant_all {Inv : σ → Prop} (h : ∀ s i, Inv s → Inv (step s i)) (h0 : Inv s) : Inv (run step s ops) := by
  induction ops generalizing s with
  | nil => exact h0
  | cons i rest ih => exact ih (h s i h0)

theorem since {Inv P : σ → Prop} {new : σ → ι → Prop} (h : ∀ s i, Inv s → ok s i → Inv (step s i))
    (hnew : ∀ s i, Inv s → ok s i → P (step s i) → P s ∨ new s i) (h0 : Inv s) (ha : Along step ok s ops)
    (hend : P (run step s ops)) :
    P s ∨ ∃ before i after, ops = before ++ i :: after ∧ new (run step s before) i := by
  induction ops generalizing s with
  | nil => exact .inl hend
  | cons i rest ih =>
    rcases ih (h s i h0 ha.1) ha.2 hend with hstep | ⟨before, j, after, rfl, hj⟩
    · rcases hnew s i h0 ha.1 hstep with hstart | hcame
      · exact .inl hstart
      · exact .inr ⟨[], i, rest, rfl, hcame⟩
    · exact .inr ⟨i :: before, j, after, rfl, hj⟩

theorem potential {Inv : σ → Prop} {rank : σ → Nat} {cost : ι → Nat} (h : ∀ s i, Inv s → ok s i → Inv (step s i))
    (hrank : ∀ s i, Inv s → ok s i → rank s + cost i ≤ rank (step s i)) (h0 : Inv s) (ha : Along step ok s ops) :
    rank s + (ops.map cost).sum ≤ rank (run step s ops) := by
  induction ops generalizing s with
  | nil => exact Nat.le_refl _
  | cons i rest ih =>
    have hstep := hrank s i h0 ha.1
    have hrest := ih (h s i h0 ha.1) ha.2
    rw [List.map_cons, List.sum_cons, run_cons]
    omega

theorem simulation {R : σ → τ → Prop} (h : ∀ s t i, R s t → ok' t i → R (step s i) (step' t i))
    (h0 : R s t) (ha : Along step' ok' t ops) : R (run step s ops) (run step' t ops) := by
  induction ops generalizing s t with
  | nil => exact h0
  | cons i rest ih => exact ih (h s t i h0 ha.1) ha.2

end ArmKernel.Lib.Run
