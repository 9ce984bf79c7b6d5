import ArmKernel.Lib.Run
import Mathlib.Data.List.FinRange
import Mathlib.Data.List.Induction

/-! Tables of named slots in which one name marks the slots that are free. A
name is opened in the slot that has it, or else in the first free one, and a
slot is unlinked by giving it the name of the free ones. -/
namespace ArmKernel.Lib.NameTable

open Lib.Run

variable {α : Type} {n : Nat}

/-- `stay` is anything that leaves the names as they are. -/
inductive Op (α : Type) (n : Nat) where
  | open (name : α)
  | unlink (i : Fin n)
  | stay

variable [DecidableEq α] {free x y : α} {t : Fin n → α} {i j : Fin n} {op : Op α n} {ops : List (Op α n)}

/-- The slot that has the name, or else the first free one. -/
def slot (free : α) (t : Fin n → α) (x : α) : Option (Fin n) :=
  ((List.finRange n).find? fun i => t i == x).or ((List.finRange n).find? fun i => t i == free)

def step (free : α) (t : Fin n → α) : Op α n → Fin n → α
  | .open x => match slot free t x with
    | some i => Function.update t i x
    | none => t
  | .unlink i => Function.update t i free
  | .stay => t

/-! One step. -/

theorem slot_eq_some (h : slot free t x = some i) : t i = x ∨ t i = free ∧ ∀ j, t j ≠ x := by
  unfold slot at h
  cases hfind : (List.finRange n).find? (fun i => t i == x) with
  | some j =>
    rw [hfind, Option.some_or, Option.some.injEq] at h
    subst h
    exact .inl (by simpa using List.find?_some hfind)
  | none =>
    rw [hfind, Option.none_or] at h
    refine .inr ⟨by simpa using List.find?_some h, fun j => ?_⟩
    simpa using List.find?_eq_none.mp hfind j (List.mem_finRange j)

theorem slot_eq_none (h : slot free t x = none) (i : Fin n) : t i ≠ free := by
  rw [slot, Option.or_eq_none_iff] at h
  simpa using List.find?_eq_none.mp h.2 i (List.mem_finRange i)

theorem slot_found (h : t i = x) : ∃ j, slot free t x = some j ∧ t j = x := by
  cases hslot : slot free t x with
  | none =>
    rw [slot, Option.or_eq_none_iff] at hslot
    exact absurd h (by simpa using List.find?_eq_none.mp hslot.1 i (List.mem_finRange i))
  | some j =>
    rcases slot_eq_some hslot with hj | ⟨-, hnone⟩
    · exact ⟨j, rfl, hj⟩
    · exact absurd h (hnone i)

theorem step_open (h : slot free t x = some i) : step free t (.open x) = Function.update t i x := by
  rw [step, h]

theorem step_keeps (hx : x ≠ free) (h : t i = x) (hop : op ≠ .unlink i) : step free t op i = x := by
  cases op with
  | «open» y =>
    cases hslot : slot free t y with
    | none =>
      rw [step, hslot]
      exact h
    | some j =>
      rw [step_open hslot, Function.update_apply]
      by_cases hij : i = j
      · rw [if_pos hij]
        rcases slot_eq_some hslot with hj | ⟨hj, -⟩
        · rw [← h, hij, hj]
        · exact absurd (h.symm.trans (hij ▸ hj)) hx
      · rw [if_neg hij, h]
  | unlink j =>
    have hij : i ≠ j := fun hij => hop (by rw [hij])
    rw [step, Function.update_of_ne hij, h]
  | stay => exact h

/-- No two slots have one name other than that of the free slots. -/
def Apart (free : α) (t : Fin n → α) : Prop := ∀ i j, t i = t j → t i ≠ free → i = j

theorem Apart.step (h : Apart free t) (op : Op α n) : Apart free (step free t op) := by
  cases op with
  | «open» x =>
    cases hslot : slot free t x with
    | none =>
      rw [NameTable.step, hslot]
      exact h
    | some i =>
      rw [step_open hslot]
      rcases slot_eq_some hslot with hi | ⟨-, hnone⟩
      · rw [Function.update_eq_self_iff.mpr hi.symm]
        exact h
      · -- the name is new, so it is not that of any other slot
        intro a b hab hne
        rw [Function.update_apply, Function.update_apply] at hab
        rw [Function.update_apply] at hne
        by_cases ha : a = i
        · by_cases hb : b = i
          · rw [ha, hb]
          · rw [if_pos ha, if_neg hb] at hab
            exact absurd hab.symm (hnone b)
        · rw [if_neg ha] at hab hne
          by_cases hb : b = i
          · rw [if_pos hb] at hab
            exact absurd hab (hnone a)
          · rw [if_neg hb] at hab
            exact h a b hab hne
  | unlink i =>
    intro a b hab hne
    rw [NameTable.step, Function.update_apply, Function.update_apply] at hab
    rw [NameTable.step, Function.update_apply] at hne
    split at hne
    · exact absurd rfl hne
    · next ha =>
      rw [if_neg ha] at hab
      split at hab
      · exact absurd hab hne
      · exact h a b hab hne
  | stay => exact h

/-! Runs. -/

theorem run_keeps (hx : x ≠ free) (h : t i = x) (hops : .unlink i ∉ ops) : run (step free) t ops i = x := by
  induction ops generalizing t with
  | nil => exact h
  | cons op ops ih =>
    rw [List.mem_cons, not_or] at hops
    exact ih (step_keeps hx h (Ne.symm hops.1)) hops.2

theorem Apart.run (h : Apart free t) (ops : List (Op α n)) : Apart free (run (NameTable.step free) t ops) := by
  induction ops generalizing t with
  | nil => exact h
  | cons op ops ih => exact ih (h.step op)

theorem slot_ne (hx : x ≠ free) (hxy : x ≠ y) (h : slot free t x = some i) (hops : .unlink i ∉ ops) :
    slot free (run (step free) (step free t (.open x)) ops) y ≠ some i := by
  intro hy
  have hname : run (step free) (step free t (.open x)) ops i = x := by
    apply run_keeps hx _ hops
    rw [step_open h, Function.update_self]
  rcases slot_eq_some hy with hi | ⟨hi, -⟩
  · exact hxy (hname.symm.trans hi)
  · exact hx (hname.symm.trans hi)

theorem slot_again (hx : x ≠ free) (hapart : Apart free t) (h : slot free t x = some i) (hops : .unlink i ∉ ops) :
    slot free (run (step free) (step free t (.open x)) ops) x = some i := by
  have hname : run (step free) (step free t (.open x)) ops i = x := by
    apply run_keeps hx _ hops
    rw [step_open h, Function.update_self]
  obtain ⟨j, hj, hjx⟩ : ∃ j, slot free _ x = some j ∧ _ = x := slot_found hname
  rw [hj, (hapart.step (.open x)).run ops i j (hname.trans hjx.symm) (by rw [hname]; exact hx)]

theorem opened_since (h0 : ∀ i, t i = free) (h : run (step free) t ops i ≠ free) :
    ∃ before x after, ops = before ++ .open x :: after ∧ slot free (run (step free) t before) x = some i ∧
      .unlink i ∉ after := by
  -- the last operation has named the slot or has left its name alone
  induction ops using List.reverseRec with
  | nil => exact absurd (h0 i) h
  | append_singleton ops op ih =>
    have hlater : run (step free) t ops i ≠ free → op ≠ .unlink i → ∃ before x after,
        ops ++ [op] = before ++ .open x :: after ∧ slot free (run (step free) t before) x = some i ∧
          .unlink i ∉ after := by
      intro hbefore hop
      obtain ⟨before, x, after, rfl, hslot, hafter⟩ := ih hbefore
      refine ⟨before, x, after ++ [op], by simp, hslot, ?_⟩
      rw [List.mem_append, List.mem_singleton, not_or]
      exact ⟨hafter, Ne.symm hop⟩
    rw [run_append, run_cons, run_nil] at h
    cases op with
    | «open» x =>
      cases hslot : slot free (run (step free) t ops) x with
      | none =>
        rw [step, hslot] at h
        exact hlater h (by simp)
      | some j =>
        rw [step_open hslot, Function.update_apply] at h
        by_cases hij : i = j
        · exact ⟨ops, x, [], rfl, by rw [hslot, hij], by simp⟩
        · rw [if_neg hij] at h
          exact hlater h (by simp)
    | unlink j =>
      rw [step, Function.update_apply] at h
      by_cases hij : i = j
      · exact absurd (if_pos hij) h
      · rw [if_neg hij] at h
        exact hlater h fun hop => hij (Op.unlink.inj hop).symm
    | stay => exact hlater h (by simp)

end ArmKernel.Lib.NameTable
