import Mathlib.Data.List.Basic

/-! States that keep a log, newest entry first, and what is logged on the way
from one to another. -/
namespace ArmKernel.Lib.Log

variable {σ ε : Type} {log : σ → List ε} {P Q R : ε → Prop} {s t u : σ}

/-- From `s` to `t` the log grew by entries that satisfy `P`. -/
def Grows (log : σ → List ε) (P : ε → Prop) (s t : σ) : Prop := ∃ new, log t = new ++ log s ∧ ∀ e ∈ new, P e

theorem Grows.of_eq (h : log t = log s) : Grows log P s t := ⟨[], h, by simp⟩

theorem Grows.cons {e : ε} (h : log t = e :: log s) (he : P e) : Grows log P s t := ⟨[e], h, by simpa using he⟩

theorem Grows.trans (h : Grows log P s t) (h' : Grows log P t u) : Grows log P s u := by
  obtain ⟨new, ht, hP⟩ := h
  obtain ⟨new', hu, hP'⟩ := h'
  refine ⟨new' ++ new, by rw [hu, ht, List.append_assoc], fun e he => ?_⟩
  rcases List.mem_append.mp he with he | he
  · exact hP' e he
  · exact hP e he

theorem Grows.mono (h : Grows log P s t) (hPQ : ∀ e, P e → Q e) : Grows log Q s t := by
  obtain ⟨new, ht, hP⟩ := h
  exact ⟨new, ht, fun e he => hPQ e (hP e he)⟩

end ArmKernel.Lib.Log
