import ArmKernel.Core.Supervisor
import ArmKernel.Core.ChannelWakeup

/-! Who gets the processor. `rq_rotate` looks at `rq[ 0 ]->pst` before it tests
`rq[ 0 ]` and goes on while it sees no executing process; only some of the
calls that stop the running process go on to the scheduler; and a process that
exits leaves the queue before the turn that would have put it at the end. -/
namespace ArmKernel.Core

open Lib Lib.Bytes Lib.Run Fs

/-! Process states after signals and channel calls. -/

def signalPst : Sig → Pst → Pst
  | .sigkill, _ => .terminated
  | .sigwait, _ => .waiting
  | .sigcont, s => if s = .waiting then .executing else s
  | .sigpri0, s => s

section

variable {k k' : Kernel} {l : List (Fin 8)}

theorem pst_signal (k : Kernel) (p q : Fin 8) (sig : Sig) : ((signal k p sig).pcb q).pst =
    if q = p then signalPst sig (k.pcb q).pst else (k.pcb q).pst := by
  cases sig with
  | sigkill => exact (pcb_sigkill k p q).2
  | sigwait => exact (pcb_setPst k p q .waiting).2
  | sigcont =>
    have h := pst_sigcont k p q
    rw [kill_val] at h
    rw [h]
    by_cases hq : q = p
    · simp [hq, signalPst]
    · simp [hq]
  | sigpri0 =>
    rw [(pcb_sigpri0 k p q).2]
    simp [signalPst]

theorem pst_kill (k : Kernel) {pid : Int} (hp : 0 ≤ pid ∧ pid < 8) (sig : Sig) (q : Fin 8) :
    ((kill k pid sig).pcb q).pst = if pid = q.val then signalPst sig (k.pcb q).pst else (k.pcb q).pst := by
  obtain ⟨p, rfl⟩ : ∃ p : Fin 8, pid = (p.val : Int) := ⟨⟨pid.toNat, by omega⟩, by simp; omega⟩
  rw [kill_val, pst_signal]
  by_cases hq : q = p
  · simp [hq]
  · have hne : (p.val : Int) ≠ q.val := fun he => hq (Fin.ext (by omega))
    simp [hq, hne]

theorem pst_wake (k : Kernel) (pid : Int) (q : Fin 8) : ((kill k pid .sigcont).pcb q).pst =
    if pid = q.val ∧ (k.pcb q).pst = .waiting then .executing else (k.pcb q).pst := by
  by_cases hp : 0 ≤ pid ∧ pid < 8
  · rw [pst_kill k hp]
    by_cases hq : pid = q.val
    · simp [hq, signalPst]
    · simp [hq]
  · rw [kill_sigcont_outside hp, if_neg fun h => hp (by omega)]

theorem mqSend_pst (m : Fin 32) (msg : List UInt8) (hself : k.self.pid = k.current.val) (q : Fin 8) :
    ((mqSend k m msg).2.pcb q).pst =
      if ((k.mq m).msgQnum = 0 ∧ (k.mq m).msgQrec = 1 ∧ (k.mq m).msgLrpid = q.val) ∧
        (q = k.current ∨ (k.pcb q).pst = .waiting) then .executing
      else if q = k.current then .waiting else (k.pcb q).pst := by
  have hwait : ∀ x, ((kill (setMq k m x) k.current.val .sigwait).pcb q).pst =
      if q = k.current then .waiting else (k.pcb q).pst := fun x => pst_sigwait _ _ _
  unfold mqSend
  simp only [kill_mq, setMq_mq, self_setMq, hself]
  split
  · next h0 =>
    split
    · next h1 =>
      change ((kill _ _ .sigcont).pcb q).pst = _
      rw [pst_wake]
      change (if (k.mq m).msgLrpid = q.val ∧ ((kill (setMq k m _) k.current.val .sigwait).pcb q).pst = .waiting
        then _ else ((kill (setMq k m _) k.current.val .sigwait).pcb q).pst) = _
      rw [hwait]
      by_cases hq : q = k.current
      · simp [h0, h1, hq]
      · simp [h0, h1, hq]
    · next h1 =>
      change ((kill (setMq k m _) k.current.val .sigwait).pcb q).pst = _
      rw [hwait]
      simp [h1]
  · next h0 =>
    rw [hwait]
    simp [h0]

theorem mqReceive_pst (m : Fin 32) (len : Nat) (hself : k.self.pid = k.current.val) (q : Fin 8) :
    ((mqReceive k m len).2.2.pcb q).pst =
      if takes k m then
        if (k.mq m).msgLspid = q.val ∧ (k.pcb q).pst = .waiting then .executing else (k.pcb q).pst
      else if q = k.current then .waiting else (k.pcb q).pst := by
  by_cases h : takes k m
  · rw [mqReceive_take len h, if_pos h, pst_wake]
    rfl
  · rw [mqReceive_wait len h, if_neg h, hself, pst_sigwait]
    rfl

/-! The queue without the converse of `RqInv.live`: this much is kept by every
call whose process numbers are in range. -/

/-- `kill` is called on one of the eight processes, and `mq_unlink` not on the
channel behind the table. -/
def pidInRange : Svc → Prop
  | .trap (.kill pid _) => 0 ≤ pid ∧ pid < 8
  | .fs (.mqUnlink m) => m ≠ 32
  | _ => True

theorem inTables_of_pidInRange {c : Svc} (h : pidInRange c) : inTables c = true := by
  cases c with
  | trap t =>
    cases t with
    | kill pid sig =>
      have hpid : 0 ≤ pid ∧ pid < 8 := h
      simp only [inTables, bne_iff_ne]
      omega
    | _ => rfl
  | fs c =>
    cases c with
    | mqUnlink m => simpa [inTables, pidInRange] using h
    | _ => rfl

theorem Lined.sameProcs (h : Lined k l) (hs : SameProcs k k') : Lined k' l :=
  h.of_same hs.rq hs.size hs.current (fun p => (hs.pcb p).1) fun p he => by rwa [(hs.pcb p).2.1] at he

theorem Lined.setGpr0 (h : Lined k l) (x : UInt32) : Lined (setGpr0 k x) l :=
  h.of_same rfl rfl rfl (fun _ => rfl) fun _ => id

theorem Lined.trapBody (h : Lined k l) {c : Trap} (hc : pidInRange (.trap c)) :
    ∃ l', Lined (trapBody k c).1 l' := by
  cases c with
  | yield => exact ⟨l, h⟩
  | fork =>
    obtain ⟨l', h'⟩ := h.fork
    exact ⟨l', h'.setGpr0 _⟩
  | exec path => exact ⟨l, (h.exec path).setGpr0 _⟩
  | kill pid sig =>
    cases sig with
    | none => exact ⟨l, h⟩
    | some sig =>
      apply h.kill
      intro _ h9
      have := hc.2
      omega
  | raise sig =>
    cases sig with
    | none => exact ⟨l, h⟩
    | some sig =>
      apply h.kill
      intro _ h9
      have := h.self
      omega
  | mqOpen name =>
    obtain ⟨mq', he⟩ := mqOpen_eq k name
    refine ⟨l, ?_⟩
    unfold Core.trapBody
    dsimp only
    rw [he]
    exact h.of_same rfl rfl rfl (fun _ => rfl) fun _ => id
  | send m msg =>
    obtain ⟨l', h'⟩ := h.mqSend m msg
    exact ⟨l', h'.setGpr0 _⟩
  | receive m len =>
    obtain ⟨l', h'⟩ := h.mqReceive m len
    exact ⟨l', h'.setGpr0 _⟩
  | timer => exact ⟨l, h⟩
  | uart => exact ⟨l, h.sameProcs (sameProcs_uart k)⟩

theorem sameProcs_fsBody (k : Kernel) (c : FsCall) : ∃ k₁, SameProcs k k₁ ∧
    (fsBody k c = k₁ ∨ ∃ r, fsBody k c = setGpr0 k₁ r) := by
  have hs := sameProcs_fsCall k c
  unfold fsBody
  generalize fsCall k c = r at hs
  obtain ⟨r, x, k₁⟩ := r
  cases r with
  | none => exact ⟨k₁, hs, .inl rfl⟩
  | some r => exact ⟨k₁, hs, .inr ⟨r, rfl⟩⟩

theorem Lined.svcBody (h : Lined k l) {c : Svc} (hc : pidInRange c) : ∃ l', Lined (svcBody k c).1 l' := by
  cases c with
  | trap c => exact h.trapBody hc
  | fs c =>
    refine ⟨l, ?_⟩
    change Lined (fsBody k c) l
    obtain ⟨k₁, hs, he | ⟨r, he⟩⟩ := sameProcs_fsBody k c
    · rw [he]
      exact h.sameProcs hs
    · rw [he]
      exact (h.sameProcs hs).setGpr0 r

theorem Lined.svc (h : Lined k l) {c : Svc} (hc : pidInRange c) (hk : svc k c = some k') :
    ∃ l', Lined k' l' := by
  obtain ⟨l₁, h₁⟩ := h.svcBody hc
  unfold Core.svc at hk
  generalize Core.svcBody k c = r at h₁ hk
  obtain ⟨k₁, b⟩ := r
  cases b with
  | true => exact h₁.scheduler hk
  | false =>
    cases hk
    exact ⟨l₁, h₁⟩

end

/-! Calls of the scheduler, with what they read. -/

/-- How a call of `rq_rotate` goes: it returns, it reads a process state through
a NULL entry, or it is still calling itself. -/
inductive Rotation where
  | returned (k : Kernel)
  | nullEntry
  | running

def rotateRun : Nat → Kernel → Rotation
  | 0, _ => .running
  | fuel+1, k =>
    let k := rotateOnce k
    match k.rq 0 with
    | none => .nullEntry
    | some p => if (k.pcb p).pst ≠ .executing then rotateRun fuel k else .returned k

/-- A call of `scheduler` returns, and no entry it follows is NULL: neither
those `rq_rotate` looks at nor those the loop over the priorities goes through. -/
def SchedulerSafe (k : Kernel) : Prop :=
  ∃ fuel k', rotateRun fuel k = .returned k' ∧ ∀ i : Fin 8, i.val < k'.rqSize → k'.rq i ≠ none

def Runnable (k : Kernel) : Prop :=
  ∃ (i p : Fin 8), i.val < k.rqSize ∧ k.rq i = some p ∧ (k.pcb p).pst = .executing

section

variable {k k' : Kernel} {l : List (Fin 8)}

theorem Queue.runnable_iff (h : Queue k l) : Runnable k ↔ ∃ p ∈ l, (k.pcb p).pst = .executing := by
  constructor
  · rintro ⟨i, p, -, hp, hex⟩
    exact ⟨p, h.holds.mem_iff.mpr ⟨i, hp⟩, hex⟩
  · rintro ⟨p, hp, hex⟩
    obtain ⟨i, hi⟩ := h.holds.mem_iff.mp hp
    refine ⟨i, p, ?_, hi, hex⟩
    by_contra hge
    rw [h.size] at hge
    rw [h.holds.cell_ge (by omega)] at hi
    cases hi

theorem rotateRun_eq_returned {fuel : Nat} :
    rotateRun fuel k = .returned k' ↔ rotateLoop fuel k = some k' ∧ k'.rq 0 ≠ none := by
  induction fuel generalizing k with
  | zero => simp [rotateRun, rotateLoop]
  | succ fuel ih =>
    unfold rotateRun rotateLoop
    dsimp only
    cases hq : (rotateOnce k).rq 0 with
    | none =>
      simp only [Option.some.injEq, reduceCtorEq, false_iff, not_and, not_not]
      rintro rfl
      exact hq
    | some p =>
      dsimp only
      split
      · exact ih
      · simp only [Rotation.returned.injEq, Option.some.injEq, iff_self_and]
        rintro rfl
        simp [hq]

theorem Queue.schedulerSafe_iff (h : Queue k l) : SchedulerSafe k ↔ Runnable k := by
  rw [h.runnable_iff]
  constructor
  · rintro ⟨fuel, k', hrun, -⟩
    obtain ⟨hloop, hhead⟩ := rotateRun_eq_returned.mp hrun
    by_contra hno
    push Not at hno
    cases l with
    | nil =>
      cases fuel with
      | zero => cases hloop
      | succ fuel =>
        have hnone : (Core.rotateOnce k).rq 0 = none := h.rotateOnce.holds.cell_ge (by simp)
        unfold rotateLoop at hloop
        dsimp only at hloop
        rw [hnone] at hloop
        cases hloop
        exact hhead hnone
    | cons x rest =>
      rw [rotateLoop_none h (by simp) hno] at hloop
      cases hloop
  · intro hex
    cases l with
    | nil => simp at hex
    | cons x rest =>
      obtain ⟨pre, y, post, hl, hpre, hy⟩ := exists_first hex
      obtain ⟨k', hloop, hq⟩ := h.rotate_first hl hpre hy (Nat.lt_succ_self pre.length)
      have hhead : k'.rq 0 = some y := hq.holds.cells 0
      refine ⟨_, k', rotateRun_eq_returned.mpr ⟨hloop, by simp [hhead]⟩, fun i hi => ?_⟩
      rw [hq.size] at hi
      simp [hq.holds.cell_lt hi]

theorem Lined.scheduler_returns (h : Lined k l) (hex : ∃ p ∈ l, (k.pcb p).pst = .executing) :
    ∃ k', Core.scheduler k = some k' ∧ k'.self.pst = .executing := by
  cases l with
  | nil => simp at hex
  | cons x rest =>
    obtain ⟨pre, y, post, hl, hpre, hy⟩ := exists_first hex
    obtain ⟨k', hk', -, hs⟩ := h.queue.scheduler hl hpre hy
    refine ⟨k', hk', ?_⟩
    rw [Kernel.self, hs.current, hs.pst]
    exact hy

end

/-- Numbers are in range, and whenever the scheduler is called some process in
the queue is executing. -/
def schedulerOk (s : Option Kernel) (c : Svc) : Prop :=
  ∀ k, s = some k → pidInRange c ∧ ((svcBody k c).2 = true → Runnable (svcBody k c).1)

def LinedReached (s : Option Kernel) : Prop := ∃ k l, s = some k ∧ Lined k l

theorem linedReached_step (s : Option Kernel) (c : Svc) (h : LinedReached s) (hok : schedulerOk s c) :
    LinedReached (svcStep s c) := by
  obtain ⟨k, l, rfl, hl⟩ := h
  obtain ⟨hin, hrun⟩ := hok k rfl
  obtain ⟨l₁, h₁⟩ := hl.svcBody hin
  have hret : ∃ k', svc k c = some k' := by
    unfold svc
    generalize Core.svcBody k c = r at h₁ hrun
    obtain ⟨k₁, b⟩ := r
    cases b with
    | true =>
      obtain ⟨k', hk', -⟩ := h₁.scheduler_returns (h₁.queue.runnable_iff.mp (hrun rfl))
      exact ⟨k', hk'⟩
    | false => exact ⟨k₁, rfl⟩
  obtain ⟨k', hk'⟩ := hret
  obtain ⟨l', h'⟩ := hl.svc hin hk'
  exact ⟨k', l', (svcStep_some k (inTables_of_pidInRange hin)).trans hk', h'⟩

/-- **The scheduler returns.** In a run in which every call of the scheduler
finds an executing process in the queue, each of them returns without following
a NULL entry; and in every state such a run reaches, the next call of it does so
if and only if it finds one. -/
theorem scheduler_safe (v : Vol) (link : Link) (calls : List Svc)
    (hc : Along svcStep schedulerOk (some (boot v link)) calls) :
    ∃ k, run svcStep (some (boot v link)) calls = some k ∧
      ∀ c, pidInRange c → (svcBody k c).2 = true →
        (SchedulerSafe (svcBody k c).1 ↔ Runnable (svcBody k c).1) := by
  have hboot : LinedReached (some (boot v link)) := ⟨_, [0], rfl, (rqInv_boot v link).lined⟩
  obtain ⟨k, l, hk, hl⟩ := invariant linedReached_step hboot hc
  refine ⟨k, hk, fun c hin _ => ?_⟩
  obtain ⟨l₁, h₁⟩ := hl.svcBody hin
  exact h₁.queue.schedulerSafe_iff

def noLink : Link := ⟨0, 0, fun _ => 0⟩

theorem scheduler_safe_exit : ∃ k,
    run svcStep (some (boot fullVol noLink)) [.trap .fork, .trap .timer] = some k ∧
      SchedulerSafe (svcBody k (.trap (.raise (some .sigkill)))).1 := by
  have hc : Along svcStep schedulerOk (some (boot fullVol noLink)) [.trap .fork, .trap .timer] := by
    refine ⟨?_, ?_, trivial⟩
    · rintro k ⟨⟩
      exact ⟨trivial, fun h => absurd h (by decide)⟩
    · rintro k ⟨⟩
      exact ⟨trivial, fun _ => ⟨0, 0, by decide, rfl, rfl⟩⟩
  obtain ⟨k, hk, h⟩ := scheduler_safe fullVol noLink _ hc
  refine ⟨k, hk, (h (.trap (.raise (some .sigkill))) trivial rfl).mpr ?_⟩
  cases hk
  exact ⟨0, 0, by decide, rfl, rfl⟩

/-- The last process exits, or waits for a message. -/
theorem last_process_leaves : ∃ k, run svcStep (some (boot fullVol noLink)) [] = some k ∧
    (svcBody k (.trap (.raise (some .sigkill)))).2 = true ∧
    ¬SchedulerSafe (svcBody k (.trap (.raise (some .sigkill)))).1 ∧
    (svcBody k (.trap (.receive 0 4))).2 = true ∧ ¬SchedulerSafe (svcBody k (.trap (.receive 0 4))).1 := by
  have hl := (rqInv_boot fullVol noLink).lined
  have hnot : ∀ c, pidInRange c → ¬Runnable (svcBody (boot fullVol noLink) c).1 →
      ¬SchedulerSafe (svcBody (boot fullVol noLink) c).1 := by
    intro c hin hno
    obtain ⟨l, h⟩ := hl.svcBody hin
    rwa [h.queue.schedulerSafe_iff]
  refine ⟨_, rfl, rfl, hnot _ trivial ?_, rfl, hnot _ trivial ?_⟩
  · rintro ⟨i, p, hi, -⟩
    exact absurd hi (Nat.not_lt_zero _)
  · rintro ⟨i, p, hi, hp, hex⟩
    have h0 : i = 0 := Fin.ext (Nat.lt_one_iff.mp hi)
    subst h0
    cases hp
    cases hex

/-! Who runs when a call returns. -/

def OtherExecuting (k : Kernel) : Prop := ∃ p, p ≠ k.current ∧ (k.pcb p).pst = .executing

/-- The call does not stop its caller without a switch: `kill` on the caller's
own number, and a message that is accepted, unless the sender is the receiver
that the send wakes. -/
def goesOn (k : Kernel) : Svc → Prop
  | .trap (.kill pid sig) => pid = k.current.val → sig ≠ some .sigkill ∧ sig ≠ some .sigwait
  | .trap (.send m _) =>
    (k.mq m).msgQnum = 0 → (k.mq m).msgQrec = 1 ∧ (k.mq m).msgLrpid = k.current.val
  | _ => True

def givesUp (k : Kernel) : Svc → Prop
  | .trap (.raise sig) => sig = some .sigkill ∨ sig = some .sigwait
  | .trap (.send m _) => (k.mq m).msgQnum ≠ 0
  | .trap (.receive m _) => ¬takes k m
  | _ => False

/-- SIGWAIT does not go to a process that has terminated. -/
def waitsLive (k : Kernel) : Svc → Prop
  | .trap (.kill pid (some .sigwait)) => ∀ p : Fin 8, pid = p.val → (k.pcb p).pst ≠ .terminated
  | _ => True

section

variable {k k' : Kernel} {l : List (Fin 8)}

/-- What a call leaves before the scheduler runs: an executing process for it to
find, or the caller executing. -/
def ReadyToReturn : Kernel × Bool → Prop
  | (k, true) => ∃ p, (k.pcb p).pst = .executing
  | (k, false) => k.self.pst = .executing

theorem toReg_neg_one : toReg (-1) = noAddr := by decide

theorem svcBody_send (k : Kernel) (m : Fin 32) (msg : List UInt8) : svcBody k (.trap (.send m msg)) =
    (setGpr0 (mqSend k m msg).2 (toReg (mqSend k m msg).1), decide ((k.mq m).msgQnum ≠ 0)) := by
  apply Prod.ext
  · rfl
  · change decide (toReg (mqSend k m msg).1 = noAddr) = _
    rw [mqSend_ret]
    split
    · next h => simp [h, show toReg 0 ≠ noAddr by decide]
    · next h => simp [h, toReg_neg_one]

theorem svcBody_receive (k : Kernel) (m : Fin 32) (len : Nat) : svcBody k (.trap (.receive m len)) =
    (setGpr0 (mqReceive k m len).2.2 (toReg (mqReceive k m len).1),
      decide (¬takes k m ∨ toReg len = noAddr)) := by
  apply Prod.ext
  · rfl
  · change decide (toReg (mqReceive k m len).1 = noAddr) = _
    by_cases h : takes k m
    · simp [mqReceive_take len h, h]
    · simp [mqReceive_wait len h, h, toReg_neg_one]

theorem readyToReturn_trap (hself : k.self.pid = k.current.val) (hex : k.self.pst = .executing) {c : Trap}
    (hin : pidInRange (.trap c)) (hgo : goesOn k (.trap c)) (hup : givesUp k (.trap c) → OtherExecuting k) :
    ReadyToReturn (svcBody k (.trap c)) := by
  have hcur : (k.pcb k.current).pst = .executing := hex
  cases c with
  | yield => exact ⟨k.current, hcur⟩
  | fork =>
    change (fork k).2.self.pst = .executing
    obtain ⟨-, he⟩ | ⟨p, x, hterm, -, hpst, -, he, hpcb⟩ := pcb_fork k
    · rw [he]
      exact hex
    · rw [he, Kernel.self, rqAdd_current, hpcb]
      change (if k.current = p then x else k.pcb k.current).pst = .executing
      split
      · exact hpst
      · exact hcur
  | exec path =>
    change (exec k path).2.self.pst = .executing
    obtain ⟨-, -, hc, -, hpst | hpst⟩ := pcb_exec k path hself
    · rw [Kernel.self, hc, hpst]
      exact hcur
    · rw [Kernel.self, hc, hpst, if_pos rfl]
  | kill pid sig =>
    cases sig with
    | none => exact hex
    | some sig =>
      change (kill k pid sig).self.pst = .executing
      rw [Kernel.self, kill_current, pst_kill k hin]
      split
      · next hp =>
        obtain ⟨h1, h2⟩ := hgo hp
        cases sig with
        | sigkill => exact absurd rfl h1
        | sigwait => exact absurd rfl h2
        | sigcont => simp [signalPst, hcur]
        | sigpri0 => exact hcur
      · exact hcur
  | raise sig =>
    cases sig with
    | none => exact ⟨k.current, hcur⟩
    | some sig =>
      have hrange : 0 ≤ k.self.pid ∧ k.self.pid < 8 := by omega
      change ∃ p, ((kill k k.self.pid sig).pcb p).pst = .executing
      by_cases hstop : sig = .sigkill ∨ sig = .sigwait
      · obtain ⟨p, hp, hpe⟩ := hup (by simpa [givesUp] using hstop)
        have hne : k.self.pid ≠ p.val := by
          rw [hself]
          exact fun he => hp (Fin.ext (by omega))
        refine ⟨p, ?_⟩
        rw [pst_kill k hrange, if_neg hne]
        exact hpe
      · refine ⟨k.current, ?_⟩
        rw [pst_kill k hrange, if_pos hself]
        cases sig with
        | sigkill => exact absurd (.inl rfl) hstop
        | sigwait => exact absurd (.inr rfl) hstop
        | sigcont => simp [signalPst, hcur]
        | sigpri0 => exact hcur
  | mqOpen name =>
    change (mqOpen k name).2.self.pst = .executing
    obtain ⟨mq', he⟩ := mqOpen_eq k name
    rw [he]
    exact hex
  | send m msg =>
    rw [svcBody_send]
    by_cases h0 : (k.mq m).msgQnum = 0
    · simp only [h0, ne_eq, not_true_eq_false, decide_false]
      change ((mqSend k m msg).2.pcb (mqSend k m msg).2.current).pst = .executing
      obtain ⟨h1, h2⟩ := hgo h0
      rw [mqSend_current, mqSend_pst m msg hself, if_pos ⟨⟨h0, h1, h2⟩, .inl rfl⟩]
    · simp only [h0, ne_eq, not_false_eq_true, decide_true]
      obtain ⟨p, hp, hpe⟩ := hup h0
      refine ⟨p, ?_⟩
      change ((mqSend k m msg).2.pcb p).pst = .executing
      rw [mqSend_pst m msg hself, if_neg (fun h => h0 h.1.1), if_neg hp]
      exact hpe
  | receive m len =>
    rw [svcBody_receive]
    by_cases ht : takes k m
    · have hpst : ((mqReceive k m len).2.2.pcb k.current).pst = .executing := by
        rw [mqReceive_pst m len hself, if_pos ht, hcur]
        simp
      by_cases hlen : toReg len = noAddr
      · simp only [hlen, or_true, decide_true]
        exact ⟨k.current, hpst⟩
      · simp only [ht, not_true_eq_false, hlen, or_self, decide_false]
        change ((mqReceive k m len).2.2.pcb (mqReceive k m len).2.2.current).pst = .executing
        rw [mqReceive_current]
        exact hpst
    · simp only [ht, not_false_eq_true, true_or, decide_true]
      obtain ⟨p, hp, hpe⟩ := hup ht
      refine ⟨p, ?_⟩
      change ((mqReceive k m len).2.2.pcb p).pst = .executing
      rw [mqReceive_pst m len hself, if_neg ht, if_neg hp]
      exact hpe
  | timer => exact ⟨k.current, hcur⟩
  | uart =>
    have hs := sameProcs_uart k
    change ReadyToReturn (trapBody k .uart)
    generalize trapBody k .uart = r at hs
    obtain ⟨k₁, b⟩ := r
    have hpst : (k₁.pcb k.current).pst = .executing := (hs.pcb k.current).2.1.trans hcur
    cases b with
    | true => exact ⟨k.current, hpst⟩
    | false =>
      change (k₁.pcb k₁.current).pst = .executing
      rw [hs.current]
      exact hpst

theorem readyToReturn (hself : k.self.pid = k.current.val) (hex : k.self.pst = .executing) {c : Svc}
    (hin : pidInRange c) (hgo : goesOn k c) (hup : givesUp k c → OtherExecuting k) :
    ReadyToReturn (svcBody k c) := by
  cases c with
  | trap c => exact readyToReturn_trap hself hex hin hgo hup
  | fs c =>
    change (fsBody k c).self.pst = .executing
    obtain ⟨k₁, hs, he | ⟨r, he⟩⟩ := sameProcs_fsBody k c
    · rw [he, Kernel.self, hs.current, (hs.pcb _).2.1]
      exact hex
    · rw [he]
      change (k₁.pcb k₁.current).pst = .executing
      rw [hs.current, (hs.pcb _).2.1]
      exact hex

theorem stopped_without_switch (hself : k.self.pid = k.current.val) {c : Svc} (hin : pidInRange c)
    (hgo : ¬goesOn k c) : (svcBody k c).2 = false ∧ (svcBody k c).1.self.pst ≠ .executing := by
  cases c with
  | fs c => exact absurd trivial hgo
  | trap c =>
    cases c with
    | kill pid sig =>
      unfold goesOn at hgo
      push Not at hgo
      obtain ⟨hp, hsig⟩ := hgo
      cases sig with
      | none => exact absurd (hsig (by simp)) (by simp)
      | some sig =>
        refine ⟨rfl, ?_⟩
        change (kill k pid sig).self.pst ≠ .executing
        rw [Kernel.self, kill_current, pst_kill k hin, if_pos hp]
        cases sig with
        | sigkill => simp [signalPst]
        | sigwait => simp [signalPst]
        | sigcont => exact absurd (hsig (by simp)) (by simp)
        | sigpri0 => exact absurd (hsig (by simp)) (by simp)
    | send m msg =>
      unfold goesOn at hgo
      push Not at hgo
      obtain ⟨h0, hwake⟩ := hgo
      rw [svcBody_send]
      refine ⟨by simp [h0], ?_⟩
      change ((mqSend k m msg).2.pcb (mqSend k m msg).2.current).pst ≠ .executing
      rw [mqSend_current, mqSend_pst m msg hself, if_neg (fun h => hwake h.1.2.1 h.1.2.2), if_pos rfl]
      decide
    | _ => exact absurd trivial hgo

theorem RqInv.svcBody (h : RqInv k l) (hlive : k.self.pst ≠ .terminated) {c : Svc} (hin : pidInRange c)
    (hw : waitsLive k c) : ∃ l', RqInv (svcBody k c).1 l' := by
  cases c with
  | fs c =>
    refine ⟨l, ?_⟩
    change RqInv (fsBody k c) l
    obtain ⟨k₁, hs, he | ⟨r, he⟩⟩ := sameProcs_fsBody k c
    · rw [he]
      exact h.sameProcs hs
    · rw [he]
      exact (h.sameProcs hs).setGpr0 r
  | trap c =>
    apply h.trapBody
    cases c with
    | kill pid sig =>
      refine ⟨.inl hin, ?_⟩
      rintro sig rfl
      refine ⟨?_, fun _ h9 => ?_⟩
      · rintro rfl
        exact hw
      · have := hin.2
        omega
    | exec path => exact hlive
    | send m msg => exact hlive
    | receive m len => exact hlive
    | raise sig => exact fun _ => hlive
    | _ => trivial

theorem RqInv.resumes (h : RqInv k l) (hex : k.self.pst = .executing) {c : Svc} (hin : pidInRange c)
    (hgo : goesOn k c) (hup : givesUp k c → OtherExecuting k) :
    ∃ k', Core.svc k c = some k' ∧ k'.self.pst = .executing := by
  have hready := readyToReturn h.self hex hin hgo hup
  have hlive : k.self.pst ≠ .terminated := by
    rw [hex]
    decide
  cases hb : (Core.svcBody k c).2 with
  | false =>
    refine ⟨(Core.svcBody k c).1, ?_, ?_⟩
    · unfold Core.svc
      generalize Core.svcBody k c = r at hb
      obtain ⟨k₁, b⟩ := r
      cases hb
      rfl
    · generalize Core.svcBody k c = r at hb hready
      obtain ⟨k₁, b⟩ := r
      cases hb
      exact hready
  | true =>
    -- `kill` does not call the scheduler
    have hw : waitsLive k c := by
      unfold waitsLive
      split
      · cases hb
      · trivial
    obtain ⟨l₁, h₁⟩ := h.svcBody hlive hin hw
    unfold Core.svc
    generalize Core.svcBody k c = r at hb hready h₁
    obtain ⟨k₁, b⟩ := r
    cases hb
    obtain ⟨p, hp⟩ := hready
    refine h₁.lined.scheduler_returns ⟨p, (h₁.live p).mpr ?_, hp⟩
    change (k₁.pcb p).pst ≠ .terminated
    rw [hp]
    decide

theorem RqInv.svc (h : RqInv k l) (hlive : k.self.pst ≠ .terminated) {c : Svc} (hin : pidInRange c)
    (hw : waitsLive k c) (hk : svc k c = some k') : ∃ l', RqInv k' l' := by
  obtain ⟨l₁, h₁⟩ := h.svcBody hlive hin hw
  unfold Core.svc at hk
  generalize Core.svcBody k c = r at h₁ hk
  obtain ⟨k₁, b⟩ := r
  cases b with
  | true => exact h₁.scheduler hk
  | false =>
    cases hk
    exact ⟨l₁, h₁⟩

end

/-- Numbers are in range, the caller is not stopped without a switch, the last
executing process does not give up the processor, and SIGWAIT goes to live
processes. -/
def resumeOk (s : Option Kernel) (c : Svc) : Prop :=
  ∀ k, s = some k → pidInRange c ∧ goesOn k c ∧ (givesUp k c → OtherExecuting k) ∧ waitsLive k c

def ExecutingReached (s : Option Kernel) : Prop := ∃ k l, s = some k ∧ RqInv k l ∧ k.self.pst = .executing

theorem executingReached_step (s : Option Kernel) (c : Svc) (h : ExecutingReached s) (hok : resumeOk s c) :
    ExecutingReached (svcStep s c) := by
  obtain ⟨k, l, rfl, hl, hex⟩ := h
  obtain ⟨hin, hgo, hup, hw⟩ := hok k rfl
  obtain ⟨k', hk', hex'⟩ := hl.resumes hex hin hgo hup
  obtain ⟨l', hl'⟩ := hl.svc (by rw [hex]; decide) hin hw hk'
  exact ⟨k', l', (svcStep_some k (inTables_of_pidInRange hin)).trans hk', hl', hex'⟩

/-- **Only executing processes run.** In every state reached by calls that meet
the condition the running process is executing, and with a second executing
process the next call returns to an executing one if and only if it does not
stop its caller without a switch. -/
theorem only_executing_runs (v : Vol) (link : Link) (calls : List Svc)
    (hc : Along svcStep resumeOk (some (boot v link)) calls) :
    ∃ k, run svcStep (some (boot v link)) calls = some k ∧ k.self.pst = .executing ∧
      ∀ c, pidInRange c → OtherExecuting k →
        ((∃ k', svc k c = some k' ∧ k'.self.pst = .executing) ↔ goesOn k c) := by
  have hboot : ExecutingReached (some (boot v link)) := ⟨_, [0], rfl, rqInv_boot v link, rfl⟩
  obtain ⟨k, l, hk, hl, hex⟩ := invariant executingReached_step hboot hc
  refine ⟨k, hk, hex, fun c hin ho => ⟨?_, fun hgo => hl.resumes hex hin hgo fun _ => ho⟩⟩
  rintro ⟨k', hk', hex'⟩
  by_contra hgo
  obtain ⟨hno, hstop⟩ := stopped_without_switch hl.self hin hgo
  unfold svc at hk'
  generalize svcBody k c = r at hno hstop hk'
  obtain ⟨k₁, b⟩ := r
  cases hno
  cases hk'
  exact hstop hex'

theorem only_executing_runs_fork : ∃ k, run svcStep (some (boot fullVol noLink)) [.trap .fork] = some k ∧
    ∃ k', svc k (.trap (.raise (some .sigkill))) = some k' ∧ k'.self.pst = .executing := by
  have hc : Along svcStep resumeOk (some (boot fullVol noLink)) [.trap .fork] := by
    refine ⟨?_, trivial⟩
    rintro k ⟨⟩
    exact ⟨trivial, trivial, fun h => h.elim, trivial⟩
  obtain ⟨k, hk, -, h⟩ := only_executing_runs fullVol noLink [.trap .fork] hc
  refine ⟨k, hk, (h (.trap (.raise (some .sigkill))) trivial ?_).mpr trivial⟩
  cases hk
  exact ⟨1, by decide, rfl⟩

/-- A sender whose message is accepted waits and goes on. -/
theorem waiting_sender_runs : ∃ k k', run svcStep (some (boot fullVol noLink)) [.trap .fork] = some k ∧
    OtherExecuting k ∧ svc k (.trap (.send 0 [])) = some k' ∧ k'.self.pst = .waiting :=
  ⟨_, _, rfl, ⟨1, by decide, rfl⟩, rfl, rfl⟩

end ArmKernel.Core
