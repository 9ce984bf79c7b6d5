import ArmKernel.Core.Turns
import Mathlib.Tactic.FinCases

/-! The order of turns. A process that gives up the processor is followed by the
first executing one behind it; when it exits, the turn that should bring that
one to the front is made after the exiting process has left the front, so the
process behind it is passed over. -/
namespace ArmKernel.Core

open Lib Fs

inductive Leave where
  | timer
  | yield
  | send (m : Fin 32) (msg : List UInt8)
  | receive (m : Fin 32) (len : Nat)
  | exit

def Leave.trap : Leave → Trap
  | .timer => .timer
  | .yield => .yield
  | .send m msg => .send m msg
  | .receive m len => .receive m len
  | .exit => .raise (some .sigkill)

def Leave.blocks (k : Kernel) : Leave → Prop
  | .send m _ => (k.mq m).msgQnum ≠ 0
  | .receive m _ => ¬takes k m
  | _ => True

/-- Who is still in the queue of `x` and those behind it. -/
def Leave.remaining (x : Fin 8) (rest : List (Fin 8)) : Leave → List (Fin 8)
  | .exit => rest
  | _ => x :: rest

def firstExecuting (k : Kernel) (l : List (Fin 8)) : Option (Fin 8) :=
  l.find? fun p => (k.pcb p).pst == .executing

/-- The first executing process behind `x` runs, and the remaining ones are in
the same cyclic order. -/
structure NextInTurn (k : Kernel) (x : Fin 8) (rest : List (Fin 8)) (w : Leave) (k' : Kernel) : Prop where
  next : firstExecuting k rest = some k'.current
  order : ∃ l, Queue k' l ∧ l ~r w.remaining x rest

/-- The process behind an exiting one is not executing, or the only one that
is. -/
def passesNobody (k : Kernel) : List (Fin 8) → Prop
  | [] => True
  | y :: rest => (k.pcb y).pst ≠ .executing ∨ ∀ p ∈ rest, (k.pcb p).pst ≠ .executing

section

variable {k k₁ k' : Kernel} {x y : Fin 8} {rest l : List (Fin 8)}

theorem firstExecuting_isSome : (firstExecuting k l).isSome = true ↔ ∃ p ∈ l, (k.pcb p).pst = .executing := by
  simp [firstExecuting, List.find?_isSome]

theorem firstExecuting_congr (h : ∀ p ∈ l, (k₁.pcb p).pst = (k.pcb p).pst) :
    firstExecuting k₁ l = firstExecuting k l := by
  induction l with
  | nil => rfl
  | cons p l ih =>
    have hp := h p List.mem_cons_self
    have hl := ih fun q hq => h q (List.mem_cons_of_mem p hq)
    unfold firstExecuting at hl ⊢
    rw [List.find?_cons, List.find?_cons, hp, hl]

theorem firstExecuting_append (l l' : List (Fin 8)) :
    firstExecuting k (l ++ l') = (firstExecuting k l).or (firstExecuting k l') := List.find?_append

theorem mem_of_firstExecuting (h : firstExecuting k l = some y) : y ∈ l ∧ (k.pcb y).pst = .executing :=
  ⟨List.mem_of_find?_eq_some h, by simpa using List.find?_some h⟩

theorem Lined.dispatches (h : Lined k (x :: rest)) (hy : firstExecuting k (rest ++ [x]) = some y) :
    ∃ k', Core.scheduler k = some k' ∧ k'.current = y ∧ ∃ l, Queue k' l ∧ l ~r x :: rest := by
  obtain ⟨hye, pre, post, hl, hpre⟩ := List.find?_eq_some_iff_append.mp hy
  obtain ⟨k', hk', hq, hs⟩ := h.queue.scheduler hl (fun p hp => by simpa using hpre p hp) (by simpa using hye)
  refine ⟨k', hk', hs.current, _, hq, ?_⟩
  have hturn : y :: (post ++ pre) ~r pre ++ y :: post := by
    rw [← List.cons_append]
    exact List.isRotated_append
  have hback : rest ++ [x] ~r x :: rest := by
    rw [← List.singleton_append]
    exact List.isRotated_append
  rw [← hl] at hturn
  exact hturn.trans hback

theorem mqSend_full {m : Fin 32} (msg : List UInt8) (h : (k.mq m).msgQnum ≠ 0) : mqSend k m msg =
    (-1, kill (setMq k m { k.mq m with msgLspid := k.self.pid }) k.self.pid .sigwait) := by
  unfold mqSend
  simp only [kill_mq, setMq_mq, self_setMq]
  rw [if_neg h]

theorem Lined.waits (h : Lined k l) (m : Fin 32) (z : Mqueue) :
    Lined (Core.kill (Core.setMq k m z) k.self.pid .sigwait) l := by
  rw [h.self, kill_val]
  exact (h.setMq m z).setPst (by decide)

theorem pst_waits (h : Lined k l) (m : Fin 32) (z : Mqueue) {p : Fin 8} (hp : p ≠ k.current) :
    ((kill (setMq k m z) k.self.pid .sigwait).pcb p).pst = (k.pcb p).pst := by
  rw [h.self, pst_sigwait, if_neg hp]
  rfl

theorem leave_body (h : Lined k (x :: rest)) (hx : k.current = x) {w : Leave} (hw : w ≠ .exit)
    (hb : w.blocks k) : ∃ k₁, Core.trap k w.trap = Core.scheduler k₁ ∧ Lined k₁ (x :: rest) ∧
      ∀ p ∈ rest, (k₁.pcb p).pst = (k.pcb p).pst := by
  have hne : ∀ p ∈ rest, p ≠ k.current := by
    rintro p hp rfl
    exact (List.nodup_cons.mp h.nodup).1 (hx ▸ hp)
  cases w with
  | timer => exact ⟨k, rfl, h, fun _ _ => rfl⟩
  | yield => exact ⟨k, rfl, h, fun _ _ => rfl⟩
  | send m msg =>
    refine ⟨setGpr0 _ noAddr, ?_, (h.waits m { k.mq m with msgLspid := k.self.pid }).setGpr0 _,
      fun p hp => pst_waits h m _ (hne p hp)⟩
    unfold Leave.trap Core.trap trapBody
    simp only [mqSend_full msg hb, toReg_neg_one, decide_true]
  | receive m len =>
    refine ⟨setGpr0 _ noAddr, ?_, (h.waits m { k.mq m with msgLrpid := k.self.pid, msgQrec := 1 }).setGpr0 _,
      fun p hp => pst_waits h m _ (hne p hp)⟩
    unfold Leave.trap Core.trap trapBody
    simp only [mqReceive_wait len hb, toReg_neg_one, decide_true]
  | exit => exact absurd rfl hw

theorem exit_body (h : Lined k (x :: rest)) (hx : k.current = x) : ∃ k₁,
    Core.trap k Leave.exit.trap = Core.scheduler k₁ ∧ Lined k₁ rest ∧
      ∀ p ∈ rest, (k₁.pcb p).pst = (k.pcb p).pst := by
  have hkill : kill k k.self.pid .sigkill = signal k x .sigkill := by rw [h.self, kill_val, hx]
  refine ⟨signal k x .sigkill, ?_, ?_, fun p hp => ?_⟩
  · unfold Leave.trap Core.trap trapBody killSig
    simp only [hkill]
  · have := h.sigkill x
    rwa [List.erase_cons_head] at this
  · rw [(pcb_sigkill k x p).2, if_neg]
    rintro rfl
    exact (List.nodup_cons.mp h.nodup).1 hp

theorem nextInTurn_stay (h : Lined k (x :: rest)) (hx : k.current = x)
    (hex : ∃ p ∈ rest, (k.pcb p).pst = .executing) {w : Leave} (hw : w ≠ .exit) (hb : w.blocks k) :
    ∃ k', Core.trap k w.trap = some k' ∧ NextInTurn k x rest w k' := by
  obtain ⟨k₁, htrap, h₁, hsame⟩ := leave_body h hx hw hb
  obtain ⟨y, hy⟩ := Option.isSome_iff_exists.mp (firstExecuting_isSome.mpr hex)
  have hfirst : firstExecuting k₁ (rest ++ [x]) = some y := by
    rw [firstExecuting_append, firstExecuting_congr hsame, hy]
    rfl
  obtain ⟨k', hk', hcur, hq⟩ := h₁.dispatches hfirst
  have hrem : w.remaining x rest = x :: rest := by
    cases w with
    | exit => exact absurd rfl hw
    | _ => rfl
  refine ⟨k', htrap.trans hk', ?_, ?_⟩
  · rw [hy, hcur]
  · rw [hrem]
    exact hq

theorem nextInTurn_exit_iff (h : Lined k (x :: rest)) (hx : k.current = x)
    (hex : ∃ p ∈ rest, (k.pcb p).pst = .executing) :
    (∃ k', Core.trap k Leave.exit.trap = some k' ∧ NextInTurn k x rest .exit k') ↔ passesNobody k rest := by
  obtain ⟨k₁, htrap, h₁, hsame⟩ := exit_body h hx
  obtain ⟨z, tail, rfl⟩ : ∃ z tail, rest = z :: tail := by
    obtain ⟨p, hp, -⟩ := hex
    exact List.exists_cons_of_ne_nil (List.ne_nil_of_mem hp)
  have hzt : z ∉ tail := (List.nodup_cons.mp h₁.nodup).1
  -- the first executing process once `z` has gone to the end
  have hturned : firstExecuting k₁ (tail ++ [z]) = (firstExecuting k tail).or (firstExecuting k [z]) := by
    rw [← firstExecuting_append]
    apply firstExecuting_congr
    intro p hp
    apply hsame
    simpa [or_comm] using hp
  have hbehind : firstExecuting k (z :: tail) = (firstExecuting k [z]).or (firstExecuting k tail) :=
    firstExecuting_append [z] tail
  obtain ⟨y, hy⟩ : ∃ y, firstExecuting k₁ (tail ++ [z]) = some y := by
    apply Option.isSome_iff_exists.mp
    rw [firstExecuting_isSome]
    obtain ⟨p, hp, hpe⟩ := hex
    exact ⟨p, by simpa [or_comm] using hp, (hsame p hp).trans hpe⟩
  obtain ⟨k', hk', hcur, hq⟩ := h₁.dispatches hy
  have hiff : (∃ k', Core.trap k Leave.exit.trap = some k' ∧ NextInTurn k x (z :: tail) .exit k') ↔
      firstExecuting k (z :: tail) = some y := by
    constructor
    · rintro ⟨k'', hk'', hn⟩
      rw [htrap, hk'] at hk''
      cases hk''
      rw [hn.next, hcur]
    · intro hn
      exact ⟨k', htrap.trans hk', hn.trans (congrArg some hcur.symm), hq⟩
  rw [hiff, hbehind, ← hy, hturned]
  by_cases hz : (k.pcb z).pst = .executing
  · have hone : firstExecuting k [z] = some z := by simp [firstExecuting, hz]
    rw [hone]
    cases ht : firstExecuting k tail with
    | none =>
      refine ⟨fun _ => .inr fun p hp hpe => ?_, fun _ => rfl⟩
      have := firstExecuting_isSome.mpr ⟨p, hp, hpe⟩
      rw [ht] at this
      cases this
    | some u =>
      obtain ⟨hu, hue⟩ := mem_of_firstExecuting ht
      refine ⟨fun he => ?_, fun hpass => ?_⟩
      · cases he
        exact absurd hu hzt
      · obtain hno | hno := hpass
        · exact absurd hz hno
        · exact absurd hue (hno u hu)
  · have hnone : firstExecuting k [z] = none := by simp [firstExecuting, hz]
    rw [hnone]
    exact ⟨fun _ => .inl hz, fun _ => by simp⟩

end

/-- **Round robin.** With the running process at the head of the queue and
another one executing, the first executing process behind it is next and the
others keep their order, unless it exits and the process behind it is one of
several that are executing. -/
theorem round_robin_iff (k : Kernel) (x : Fin 8) (rest : List (Fin 8)) (h : Lined k (x :: rest))
    (hx : k.current = x) (hex : ∃ p ∈ rest, (k.pcb p).pst = .executing) (w : Leave) (hb : w.blocks k) :
    (∃ k', trap k w.trap = some k' ∧ NextInTurn k x rest w k') ↔ (w = .exit → passesNobody k rest) := by
  by_cases hw : w = .exit
  · subst hw
    rw [nextInTurn_exit_iff h hx hex]
    simp
  · exact ⟨fun _ he => absurd he hw, fun _ => nextInTurn_stay h hx hex hw hb⟩

theorem fourProcs_lined : Lined fourProcs [0, 1, 2, 3] := by
  refine ⟨⟨⟨by decide, fun i => ?_⟩, rfl⟩, by decide, fun p hp => ?_, fun p hp => ?_, rfl⟩
  · fin_cases i <;> rfl
  · fin_cases hp <;> exact fun h => Pst.noConfusion h
  · fin_cases hp <;> rfl

theorem round_robin_timer : ∃ k', trap fourProcs .timer = some k' ∧ NextInTurn fourProcs 0 [1, 2, 3] .timer k' :=
  (round_robin_iff fourProcs 0 [1, 2, 3] fourProcs_lined rfl ⟨1, by decide, rfl⟩ .timer trivial).mpr
    fun h => Leave.noConfusion h

/-- Process 1 is next, but process 2 is dispatched. -/
theorem exit_passes_over : Lined fourProcs [0, 1, 2, 3] ∧ fourProcs.current = 0 ∧
    firstExecuting fourProcs [1, 2, 3] = some 1 ∧
    ∃ k', trap fourProcs (.raise (some .sigkill)) = some k' ∧ k'.current = 2 :=
  ⟨fourProcs_lined, rfl, rfl, _, rfl, rfl⟩

end ArmKernel.Core
