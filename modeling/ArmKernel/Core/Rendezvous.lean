import ArmKernel.Core.ChannelWakeup
import ArmKernel.Core.ReadyQueue

/-! The rendezvous of a channel. A sender goes on running until the next
switch although it is waiting, and is not dispatched again before its message
is taken, unless it asks to receive in between: a refused receiver leaves the
flag `msg_qrec` set on the full buffer, and the next `mq_send` wakes whoever
called `mq_receive` last. -/
namespace ArmKernel.Core

open Lib Lib.Bytes Lib.Run Fs

section

variable {k k' : Kernel} {l : List (Fin 8)}

/-! What a switch does. -/

/-- With a live process on the processor, a switch ends at an executing one and
changes neither channels nor process states. -/
theorem RqInv.switch (h : RqInv k l) (hlive : k.self.pst ≠ .terminated) (hk : Core.scheduler k = some k') :
    k'.self.pst = .executing ∧ k'.mq = k.mq ∧ ∀ q, (k'.pcb q).pst = (k.pcb q).pst := by
  have hmem := (h.live k.current).mpr hlive
  obtain ⟨rfl, -⟩ | ⟨x, rest, pre, y, post, -, -, hy, -, hs⟩ := h.queue.scheduler_cases hk
  · cases hmem
  · refine ⟨?_, hs.mq, hs.pst⟩
    rw [Kernel.self, hs.current, hs.pst]
    exact hy

/-! A channel call leaves its caller alive. -/

theorem terminated_sigcont (k : Kernel) (pid : Int) (q : Fin 8) :
    ((kill k pid .sigcont).pcb q).pst = .terminated ↔ (k.pcb q).pst = .terminated := by
  by_cases hp : 0 ≤ pid ∧ pid < 8
  · obtain ⟨p, rfl⟩ : ∃ p : Fin 8, pid = (p.val : Int) :=
      ⟨⟨pid.toNat, by omega⟩, by simp; omega⟩
    rw [pst_sigcont]
    split
    · next hq => simp [hq.2]
    · rfl
  · rw [kill_sigcont_outside hp]

theorem setMq_pcb (k : Kernel) (m : Fin 32) (x : Mqueue) : (setMq k m x).pcb = k.pcb := rfl

theorem mqSend_live (m : Fin 32) (msg : List UInt8) (hself : k.self.pid = k.current.val) :
    (mqSend k m msg).2.self.pst ≠ .terminated := by
  rw [Kernel.self, mqSend_current]
  unfold mqSend
  dsimp only
  rw [self_setMq, hself]
  have hwait : ((kill (setMq k m { k.mq m with msgLspid := k.current.val }) k.current.val .sigwait).pcb
      k.current).pst ≠ .terminated := by
    rw [pst_sigwait, if_pos rfl]
    decide
  generalize kill (setMq k m { k.mq m with msgLspid := k.current.val }) k.current.val .sigwait = k₁ at hwait
  split
  · split
    · rw [setMq_pcb, ne_eq, terminated_sigcont]
      exact hwait
    · exact hwait
  · exact hwait

theorem mqReceive_live (m : Fin 32) (len : Nat) (hself : k.self.pid = k.current.val)
    (hlive : k.self.pst ≠ .terminated) : (mqReceive k m len).2.2.self.pst ≠ .terminated := by
  rw [Kernel.self, mqReceive_current]
  by_cases h : takes k m
  · rw [mqReceive_take len h, ne_eq, terminated_sigcont]
    exact hlive
  · rw [mqReceive_wait len h, hself, pst_sigwait, if_pos rfl]
    decide

end

/-! The channel between calls. `Off` says which waiting processes will not run
before they are woken. -/

structure Paired (m : Fin 32) (Off : Fin 8 → Prop) (k : Kernel) (owner : Option (Fin 8)) : Prop where
  one : (k.mq m).msgQnum ≤ 1
  flag : (k.mq m).msgQrec = 0 ∨ (k.mq m).msgQrec = 1
  nobody : (k.mq m).msgQnum = 0 → owner = none
  sleeper : (k.mq m).msgQnum = 0 → (k.mq m).msgQrec = 1 → ∃ r : Fin 8, (k.mq m).msgLrpid = r.val ∧ Off r
  clear : (k.mq m).msgQnum ≠ 0 → (k.mq m).msgQrec = 0
  last : (k.mq m).msgQnum ≠ 0 → ∃ q : Fin 8, (k.mq m).msgLspid = q.val ∧ (owner = some q ∨ Off q)
  waits : ∀ o, owner = some o → Waiting k o

def Asleep (k : Kernel) (p : Fin 8) : Prop := Waiting k p ∧ k.current ≠ p

section

variable {m : Fin 32} {k k' : Kernel} {owner : Option (Fin 8)}

theorem Paired.congr (h : Paired m (Asleep k) k owner) (hmq : k'.mq m = k.mq m)
    (hcur : k'.current = k.current) (hw : ∀ p, Waiting k' p ↔ Waiting k p) :
    Paired m (Asleep k') k' owner := by
  have hoff : ∀ p, Asleep k' p ↔ Asleep k p := fun p => by rw [Asleep, hw, hcur, Asleep]
  constructor <;> simp only [hmq, hw, hoff]
  · exact h.one
  · exact h.flag
  · exact h.nobody
  · exact h.sleeper
  · exact h.clear
  · exact h.last
  · exact h.waits

theorem Paired.weaken (h : Paired m (Asleep k) k owner) : Paired m (Waiting k) k owner := by
  refine ⟨h.one, h.flag, h.nobody, fun h0 h1 => ?_, h.clear, fun h1 => ?_, h.waits⟩
  · obtain ⟨r, hr, hoff⟩ := h.sleeper h0 h1
    exact ⟨r, hr, hoff.1⟩
  · obtain ⟨q, hq, hoff⟩ := h.last h1
    exact ⟨q, hq, hoff.imp_right And.left⟩

theorem Paired.switch (h : Paired m (Waiting k) k owner) (hself : k'.self.pst = .executing)
    (hmq : k'.mq = k.mq) (hpst : ∀ q, (k'.pcb q).pst = (k.pcb q).pst) :
    Paired m (Asleep k') k' owner := by
  have hw : ∀ q, Waiting k q → Asleep k' q := by
    intro q hq
    have hq' : (k'.pcb q).pst = .waiting := (hpst q).trans hq
    refine ⟨hq', ?_⟩
    rintro rfl
    rw [Kernel.self, hq'] at hself
    cases hself
  refine ⟨?_, ?_, ?_, ?_, ?_, ?_, fun o ho => (hw o (h.waits o ho)).1⟩ <;> rw [hmq]
  · exact h.one
  · exact h.flag
  · exact h.nobody
  · intro h0 h1
    obtain ⟨r, hr, hoff⟩ := h.sleeper h0 h1
    exact ⟨r, hr, hw r hoff⟩
  · exact h.clear
  · intro h1
    obtain ⟨q, hq, hoff⟩ := h.last h1
    exact ⟨q, hq, hoff.imp_right (hw q)⟩

theorem Paired.sent (h : Paired m (Asleep k) k owner) (msg : List UInt8)
    (hself : k.self.pid = k.current.val) (h0 : (k.mq m).msgQnum = 0) :
    Paired m (Asleep (mqSend k m msg).2) (mqSend k m msg).2 (some k.current) := by
  have hmq := mqSend_mq k m msg
  rw [if_pos h0, hself] at hmq
  refine ⟨by simp [hmq], ?_, by simp [hmq], by simp [hmq], ?_, fun _ => ⟨k.current, by simp [hmq], .inl rfl⟩,
    fun o ho => ?_⟩
  · obtain hq | hq := h.flag <;> simp [hmq, hq]
  · obtain hq | hq := h.flag <;> simp [hmq, hq]
  · obtain rfl := Option.some.inj ho
    refine (mqSend_waiting k.current hself).mpr ⟨.inl rfl, fun _ h1 => ?_⟩
    obtain ⟨r, hr, -, hne⟩ := h.sleeper h0 h1
    rw [hr]
    exact fun he => hne (Fin.ext (by omega))

theorem Paired.refused (h : Paired m (Asleep k) k owner) (msg : List UInt8)
    (hself : k.self.pid = k.current.val) (h1 : (k.mq m).msgQnum ≠ 0) :
    Paired m (Waiting (mqSend k m msg).2) (mqSend k m msg).2 owner := by
  have hmq := mqSend_mq k m msg
  rw [if_neg h1, hself] at hmq
  have hw : ∀ q, Waiting (mqSend k m msg).2 q ↔ q = k.current ∨ Waiting k q := by
    intro q
    rw [mqSend_waiting q hself]
    simp [h1]
  refine ⟨by simpa [hmq] using h.one, by simpa [hmq] using h.flag, fun h0 => absurd (by simpa [hmq] using h0) h1,
    fun h0 => absurd (by simpa [hmq] using h0) h1, fun _ => by simpa [hmq] using h.clear h1,
    fun _ => ⟨k.current, by simp [hmq], .inr ((hw _).mpr (.inl rfl))⟩, fun o ho => ?_⟩
  exact (hw o).mpr (.inr (h.waits o ho))

theorem Paired.taken (h : Paired m (Asleep k) k owner) (len : Nat) (ht : takes k m) :
    Paired m (Asleep (mqReceive k m len).2.2) (mqReceive k m len).2.2 none := by
  have hmq := mqReceive_mq k m len
  rw [if_pos ht] at hmq
  have h1 : (k.mq m).msgQnum = 1 := by
    have := h.one
    have := ht.1
    omega
  have hclear := h.clear (by omega)
  refine ⟨by simp [hmq, h1], by simp [hmq, hclear], fun _ => rfl, by simp [hmq, hclear], by simp [hmq, hclear],
    by simp [hmq, h1], fun o ho => by cases ho⟩

theorem Paired.blocked (h : Paired m (Asleep k) k owner) (len : Nat)
    (hself : k.self.pid = k.current.val) (ht : ¬takes k m)
    (hown : ¬(owner = some k.current ∧ (k.mq m).msgLspid = k.current.val)) :
    Paired m (Waiting (mqReceive k m len).2.2) (mqReceive k m len).2.2 owner := by
  -- on the full buffer only the last sender is refused: it owns the message or is asleep
  have h0 : (k.mq m).msgQnum = 0 := by
    by_contra h1
    obtain ⟨q, hq, hoff⟩ := h.last h1
    have hls : (k.mq m).msgLspid = k.current.val := by
      by_contra hne
      exact ht ⟨by omega, by rwa [hself]⟩
    obtain rfl : q = k.current := Fin.ext (by omega)
    obtain ho | hoff := hoff
    · exact hown ⟨ho, hls⟩
    · exact hoff.2 rfl
  have hmq := mqReceive_mq k m len
  rw [if_neg ht, hself] at hmq
  have hw : Waiting (mqReceive k m len).2.2 k.current := by
    rw [mqReceive_waiting k.current hself, if_neg ht]
    exact .inl rfl
  refine ⟨by simp [hmq, h0], by simp [hmq], fun _ => h.nobody h0, fun _ _ => ⟨k.current, by simp [hmq], hw⟩,
    by simp [hmq, h0], by simp [hmq, h0], fun o ho => ?_⟩
  rw [h.nobody h0] at ho
  cases ho

end

/-! Runs. -/

structure Rendezvous where
  k : Kernel
  owner : Option (Fin 8)

/-- A channel call of the running process, a yield or timer interrupt, or a
system call that has to do with neither channel nor process states. -/
inductive ChanEvent where
  | send (msg : List UInt8)
  | receive (len : Nat)
  | switch
  | other (k : Kernel)

def rendezvousStep (m : Fin 32) (s : Option Rendezvous) (c : ChanEvent) : Option Rendezvous :=
  s.bind fun s => match c with
    | .send msg => (trap s.k (.send m msg)).map fun k =>
      ⟨k, if (mqSend s.k m msg).1 = 0 then some s.k.current else s.owner⟩
    | .receive len => (trap s.k (.receive m len)).map fun k =>
      ⟨k, if (mqReceive s.k m len).1 = -1 then s.owner else none⟩
    | .switch => (trap s.k .timer).map fun k => ⟨k, s.owner⟩
    | .other k => some ⟨k, s.owner⟩

/-- Other activity keeps the channel, the running process and who is waiting,
and with them the ready queue. -/
def eventFits (m : Fin 32) (s : Rendezvous) : ChanEvent → Prop
  | .other k => k.mq m = s.k.mq m ∧ k.current = s.k.current ∧ (∀ p, Waiting k p ↔ Waiting s.k p) ∧
      (∃ l, RqInv k l) ∧ k.self.pst ≠ .terminated
  | _ => True

/-- Nobody asks to receive while it is the last sender and the message in the
buffer is its own. -/
def notOwnMessage (m : Fin 32) (s : Rendezvous) : ChanEvent → Prop
  | .receive _ => ¬(s.owner = some s.k.current ∧ (s.k.mq m).msgLspid = s.k.current.val)
  | _ => True

def rendezvousOk (m : Fin 32) (s : Option Rendezvous) (c : ChanEvent) : Prop :=
  ∀ r, s = some r → eventFits m r c ∧ notOwnMessage m r c

/-- The sender of the buffered message is waiting, and a switch now would not
dispatch it. -/
def SenderBlocked (s : Rendezvous) : Prop :=
  ∀ o, s.owner = some o → Waiting s.k o ∧ ∀ k', scheduler s.k = some k' → k'.current ≠ o

structure Meeting (m : Fin 32) (s : Rendezvous) : Prop where
  queue : ∃ l, RqInv s.k l
  live : s.k.self.pst ≠ .terminated
  paired : Paired m (Asleep s.k) s.k s.owner

theorem Meeting.senderBlocked {m : Fin 32} {s : Rendezvous} (h : Meeting m s) : SenderBlocked s := by
  intro o ho
  have hw := h.paired.waits o ho
  refine ⟨hw, fun k' hk' => ?_⟩
  obtain ⟨l, hl⟩ := h.queue
  obtain ⟨hself, -, hpst⟩ := hl.switch h.live hk'
  rintro rfl
  rw [Kernel.self, hpst, hw] at hself
  cases hself

section

variable {m : Fin 32} {k k' : Kernel} {owner : Option (Fin 8)}

theorem trap_ends {c : Trap} (hk : trap k c = some k') {l : List (Fin 8)}
    (hl : RqInv (trapBody k c).1 l) (hlive : (trapBody k c).1.self.pst ≠ .terminated) :
    (∃ l', RqInv k' l') ∧ k'.self.pst ≠ .terminated ∧
      ((trapBody k c).2 = false ∧ k' = (trapBody k c).1 ∨
        (trapBody k c).2 = true ∧ k'.self.pst = .executing ∧ k'.mq = (trapBody k c).1.mq ∧
          ∀ q, (k'.pcb q).pst = ((trapBody k c).1.pcb q).pst) := by
  unfold trap at hk
  generalize trapBody k c = r at hl hlive hk
  obtain ⟨k₁, b⟩ := r
  cases b with
  | true =>
    obtain ⟨hself, hmq, hpst⟩ := hl.switch hlive hk
    exact ⟨hl.scheduler hk, by rw [hself]; decide, .inr ⟨rfl, hself, hmq, hpst⟩⟩
  | false =>
    cases hk
    exact ⟨⟨l, hl⟩, hlive, .inl ⟨rfl, rfl⟩⟩

theorem meeting_trap {c : Trap} (hk : trap k c = some k') {l : List (Fin 8)}
    (hl : RqInv (trapBody k c).1 l) (hlive : (trapBody k c).1.self.pst ≠ .terminated)
    (hrun : Paired m (Asleep (trapBody k c).1) (trapBody k c).1 owner ∨
      (trapBody k c).2 = true ∧ Paired m (Waiting (trapBody k c).1) (trapBody k c).1 owner) :
    Meeting m ⟨k', owner⟩ := by
  obtain ⟨hq, hlive', ⟨hb, rfl⟩ | ⟨-, hself, hmq, hpst⟩⟩ := trap_ends hk hl hlive
  · exact ⟨hq, hlive', hrun.resolve_right fun h => by rw [hb] at h; cases h.1⟩
  · refine ⟨hq, hlive', ?_⟩
    obtain hrun | ⟨-, hrun⟩ := hrun
    · exact hrun.weaken.switch hself hmq hpst
    · exact hrun.switch hself hmq hpst

theorem meeting_send (h : Meeting m ⟨k, owner⟩) (msg : List UInt8) (hk : trap k (.send m msg) = some k') :
    Meeting m ⟨k', if (mqSend k m msg).1 = 0 then some k.current else owner⟩ := by
  obtain ⟨l, hl⟩ := h.queue
  obtain ⟨l₁, hl₁⟩ := hl.mqSend m msg h.live
  have hret := mqSend_ret k m msg
  refine meeting_trap hk (hl₁.setGpr0 _) (mqSend_live m msg hl.self) ?_
  by_cases h0 : (k.mq m).msgQnum = 0
  · rw [if_pos h0] at hret
    rw [if_pos hret]
    exact .inl ((h.paired.sent msg hl.self h0).congr rfl rfl fun _ => Iff.rfl)
  · rw [if_neg h0] at hret
    rw [if_neg (by rw [hret]; decide)]
    refine .inr ⟨?_, ?_⟩
    · simp only [trapBody, hret]
      decide
    · have := h.paired.refused msg hl.self h0
      exact ⟨this.one, this.flag, this.nobody, this.sleeper, this.clear, this.last, this.waits⟩

theorem meeting_receive (h : Meeting m ⟨k, owner⟩) (len : Nat) (hk : trap k (.receive m len) = some k')
    (hown : ¬(owner = some k.current ∧ (k.mq m).msgLspid = k.current.val)) :
    Meeting m ⟨k', if (mqReceive k m len).1 = -1 then owner else none⟩ := by
  obtain ⟨l, hl⟩ := h.queue
  obtain ⟨l₁, hl₁⟩ := hl.mqReceive m len h.live
  have hret := mqReceive_ret_eq_neg_one k m len
  refine meeting_trap hk (hl₁.setGpr0 _) (mqReceive_live m len hl.self h.live) ?_
  by_cases ht : takes k m
  · rw [if_neg (fun he => hret.mp he ht)]
    exact .inl ((h.paired.taken len ht).congr rfl rfl fun _ => Iff.rfl)
  · have hneg := hret.mpr ht
    rw [if_pos hneg]
    refine .inr ⟨?_, ?_⟩
    · simp only [trapBody, hneg]
      decide
    · have := h.paired.blocked len hl.self ht hown
      exact ⟨this.one, this.flag, this.nobody, this.sleeper, this.clear, this.last, this.waits⟩

theorem meeting_switch (h : Meeting m ⟨k, owner⟩) (hk : trap k .timer = some k') : Meeting m ⟨k', owner⟩ := by
  obtain ⟨l, hl⟩ := h.queue
  exact meeting_trap hk hl h.live (.inl h.paired)

end

def MeetingReached (m : Fin 32) (s : Option Rendezvous) : Prop := ∀ r, s = some r → Meeting m r

theorem meeting_step {m : Fin 32} (s : Option Rendezvous) (c : ChanEvent) (h : MeetingReached m s)
    (hc : rendezvousOk m s c) : MeetingReached m (rendezvousStep m s c) := by
  intro r' hr'
  obtain ⟨r, hr, hstep⟩ := Option.bind_eq_some_iff.mp hr'
  have hm := h r hr
  obtain ⟨hfits, hown⟩ := hc r hr
  cases c with
  | send msg =>
    obtain ⟨k', hk', rfl⟩ := Option.map_eq_some_iff.mp hstep
    exact meeting_send hm msg hk'
  | receive len =>
    obtain ⟨k', hk', rfl⟩ := Option.map_eq_some_iff.mp hstep
    exact meeting_receive hm len hk' hown
  | switch =>
    obtain ⟨k', hk', rfl⟩ := Option.map_eq_some_iff.mp hstep
    exact meeting_switch hm hk'
  | other k =>
    cases hstep
    obtain ⟨hmq, hcur, hw, hq, hlive⟩ := hfits
    exact ⟨hq, hlive, hm.paired.congr hmq hcur hw⟩

/-- **A sender stays blocked until its message is taken.** On a channel freshly
opened by a live process, with a well-formed ready queue: in every run in which
nobody asks to receive while the buffer holds a message of its own that it was
the last to try to send over, the sender of the buffered message is waiting in
every state reached, and the scheduler does not dispatch it. -/
theorem sender_stays_blocked (k₀ k : Kernel) (name : Int) (m : Fin 32) (l : List (Fin 8)) (hq : RqInv k₀ l)
    (hlive : k₀.self.pst ≠ .terminated) (hnew : ∀ i, (k₀.mq i).msgQname ≠ name)
    (hopen : mqOpen k₀ name = ((m.val : Int), k)) (events : List ChanEvent)
    (hc : Along (rendezvousStep m) (rendezvousOk m) (some ⟨k, none⟩) events) (s : Rendezvous)
    (hs : run (rendezvousStep m) (some ⟨k, none⟩) events = some s) : SenderBlocked s := by
  obtain ⟨hnum, hrec, hpcb⟩ := mqOpen_fresh hnew hopen
  obtain ⟨mq', he⟩ := mqOpen_eq k₀ name
  rw [hopen] at he
  subst he
  have hstart : MeetingReached m (some ⟨{ k₀ with mq := mq' }, none⟩) := by
    rintro r ⟨⟩
    refine ⟨⟨l, hq.of_same rfl rfl rfl (fun _ => rfl) fun _ => Iff.rfl⟩, hlive, ?_⟩
    dsimp only at hnum hrec
    constructor <;> simp [hnum, hrec]
  exact (invariant meeting_step hstart hc s hs).senderBlocked

theorem fourProcs_queue : ∃ l, RqInv fourProcs l := by
  obtain ⟨l₁, h₁, -⟩ := (rqInv_boot fullVol ⟨0, 0, fun _ => 0⟩).fork
  obtain ⟨l₂, h₂, -⟩ := h₁.fork
  obtain ⟨l₃, h₃, -⟩ := h₂.fork
  exact ⟨l₃, h₃⟩

theorem sender_stays_blocked_sent : ∃ s,
    run (rendezvousStep 0) (some ⟨(mqOpen fourProcs 100).2, none⟩) [.receive 1, .send [65], .switch] =
      some s ∧ s.owner = some 1 ∧ SenderBlocked s := by
  obtain ⟨l, hl⟩ := fourProcs_queue
  refine ⟨_, rfl, by decide, sender_stays_blocked fourProcs (mqOpen fourProcs 100).2 100 0 l hl (by decide)
    (fun i => by rw [fourProcs_mq]; decide) (Prod.ext (by decide) rfl) [.receive 1, .send [65], .switch]
    ⟨?_, ?_, ?_, trivial⟩ _ rfl⟩
  · rintro r ⟨⟩
    exact ⟨trivial, fun h => by cases h.1⟩
  · exact fun _ _ => ⟨trivial, trivial⟩
  · exact fun _ _ => ⟨trivial, trivial⟩

/-- Process 0 sends and then asks to receive, which sets the flag on the full
buffer. Process 1 takes the message and sends in turn: the wake-up goes to the
last process that called `mq_receive`, which is process 1 itself. -/
theorem sender_wakes_itself : ∃ s,
    run (rendezvousStep 0) (some ⟨(mqOpen fourProcs 100).2, none⟩)
      [.send [65], .receive 1, .receive 1, .send [66]] = some s ∧
    s.owner = some 1 ∧ (s.k.mq 0).msgQnum = 1 ∧ ¬SenderBlocked s := by
  refine ⟨_, rfl, by decide, by decide, fun h => ?_⟩
  exact absurd (h 1 (by decide)).1 (by decide)

/-! Who can take a message. The test of `mq_receive` is on the last process that
tried to send, so the sender of the buffered message is kept off only while it
is that process, or sleeps. -/

/-- Nobody tries to send while the buffer holds the message of another process
that has been woken. -/
def senderAsleep (m : Fin 32) (s : Rendezvous) : ChanEvent → Prop
  | .send _ => (s.k.mq m).msgQnum ≠ 0 → ∀ o, s.owner = some o → o = s.k.current ∨ Waiting s.k o
  | _ => True

def keptOffOk (m : Fin 32) (s : Option Rendezvous) (c : ChanEvent) : Prop :=
  ∀ r, s = some r → eventFits m r c ∧ senderAsleep m r c

/-- An `mq_receive` that succeeds now takes another process's message. -/
def TakesOthers (m : Fin 32) (s : Rendezvous) : Prop :=
  ∀ len, (mqReceive s.k m len).1 ≠ -1 → s.owner ≠ some s.k.current

structure KeptOff (m : Fin 32) (s : Rendezvous) : Prop where
  queue : ∃ l, RqInv s.k l
  live : s.k.self.pst ≠ .terminated
  one : (s.k.mq m).msgQnum ≤ 1
  owned : ∀ o, s.owner = some o → (s.k.mq m).msgQnum ≠ 0 ∧
    ((s.k.mq m).msgLspid = o.val ∨ Asleep s.k o)

theorem KeptOff.takesOthers {m : Fin 32} {s : Rendezvous} (h : KeptOff m s) : TakesOthers m s := by
  intro len hr ho
  obtain ⟨l, hl⟩ := h.queue
  have ht : takes s.k m := by
    by_contra hno
    exact hr ((mqReceive_ret_eq_neg_one s.k m len).mpr hno)
  obtain ⟨-, hls | hoff⟩ := h.owned _ ho
  · exact ht.2 (by rw [hls, hl.self])
  · exact hoff.2 rfl

section

variable {m : Fin 32} {k k' : Kernel} {owner : Option (Fin 8)}

theorem keptOff_trap {c : Trap} (hk : trap k c = some k') {l : List (Fin 8)}
    (hl : RqInv (trapBody k c).1 l) (hlive : (trapBody k c).1.self.pst ≠ .terminated)
    (hone : ((trapBody k c).1.mq m).msgQnum ≤ 1)
    (howned : ∀ o, owner = some o → ((trapBody k c).1.mq m).msgQnum ≠ 0 ∧
      (((trapBody k c).1.mq m).msgLspid = o.val ∨ Asleep (trapBody k c).1 o)) :
    KeptOff m ⟨k', owner⟩ := by
  obtain ⟨hq, hlive', ⟨-, rfl⟩ | ⟨-, hself, hmq, hpst⟩⟩ := trap_ends hk hl hlive
  · exact ⟨hq, hlive', hone, howned⟩
  · refine ⟨hq, hlive', by rw [hmq]; exact hone, fun o ho => ?_⟩
    obtain ⟨hnum, hlast⟩ := howned o ho
    rw [hmq]
    refine ⟨hnum, hlast.imp_right fun hoff => ?_⟩
    have hw : Waiting k' o := (hpst o).trans hoff.1
    refine ⟨hw, ?_⟩
    rintro rfl
    rw [Kernel.self, hw] at hself
    cases hself

theorem keptOff_send (h : KeptOff m ⟨k, owner⟩) (msg : List UInt8) (hk : trap k (.send m msg) = some k')
    (hc : (k.mq m).msgQnum ≠ 0 → ∀ o, owner = some o → o = k.current ∨ Waiting k o) :
    KeptOff m ⟨k', if (mqSend k m msg).1 = 0 then some k.current else owner⟩ := by
  obtain ⟨l, hl⟩ := h.queue
  obtain ⟨l₁, hl₁⟩ := hl.mqSend m msg h.live
  have hself : k.self.pid = k.current.val := hl.self
  have hret := mqSend_ret k m msg
  have hmq : (trapBody k (.send m msg)).1.mq m = _ := mqSend_mq k m msg
  have hcur : (trapBody k (.send m msg)).1.current = k.current := mqSend_current k m msg
  refine keptOff_trap hk (hl₁.setGpr0 _) (mqSend_live m msg hself) ?_ fun o ho => ?_
  · rw [hmq]
    split
    · exact le_refl 1
    · exact h.one
  · rw [hmq, hself]
    by_cases h0 : (k.mq m).msgQnum = 0
    · rw [if_pos (by rw [hret, if_pos h0])] at ho
      obtain rfl := Option.some.inj ho
      simp [h0]
    · rw [if_neg (by rw [hret, if_neg h0]; decide)] at ho
      rw [if_neg h0]
      refine ⟨h0, ?_⟩
      by_cases hoc : o = k.current
      · exact .inl (by rw [hoc])
      · have hw := (hc h0 o ho).resolve_left hoc
        refine .inr ⟨(mqSend_waiting o hself).mpr ⟨.inr hw, fun hz => absurd hz h0⟩, ?_⟩
        rw [hcur]
        exact fun he => hoc he.symm

theorem keptOff_receive (h : KeptOff m ⟨k, owner⟩) (len : Nat) (hk : trap k (.receive m len) = some k') :
    KeptOff m ⟨k', if (mqReceive k m len).1 = -1 then owner else none⟩ := by
  obtain ⟨l, hl⟩ := h.queue
  obtain ⟨l₁, hl₁⟩ := hl.mqReceive m len h.live
  have hself : k.self.pid = k.current.val := hl.self
  have hret := mqReceive_ret_eq_neg_one k m len
  have hmq : (trapBody k (.receive m len)).1.mq m = _ := mqReceive_mq k m len
  have hcur : (trapBody k (.receive m len)).1.current = k.current := mqReceive_current k m len
  refine keptOff_trap hk (hl₁.setGpr0 _) (mqReceive_live m len hself h.live) ?_ fun o ho => ?_
  · have := h.one
    rw [hmq]
    split
    · dsimp only at this ⊢
      omega
    · exact this
  · by_cases ht : takes k m
    · rw [if_neg (fun he => hret.mp he ht)] at ho
      cases ho
    · rw [if_pos (hret.mpr ht)] at ho
      obtain ⟨hnum, hlast⟩ := h.owned o ho
      rw [hmq, if_neg ht]
      refine ⟨hnum, hlast.imp_right fun hoff => ⟨?_, by rw [hcur]; exact hoff.2⟩⟩
      refine (mqReceive_waiting o hself).mpr ?_
      rw [if_neg ht]
      exact .inr hoff.1

theorem keptOff_switch (h : KeptOff m ⟨k, owner⟩) (hk : trap k .timer = some k') : KeptOff m ⟨k', owner⟩ := by
  obtain ⟨l, hl⟩ := h.queue
  exact keptOff_trap hk hl h.live h.one h.owned

end

def KeptOffReached (m : Fin 32) (s : Option Rendezvous) : Prop := ∀ r, s = some r → KeptOff m r

theorem keptOff_step {m : Fin 32} (s : Option Rendezvous) (c : ChanEvent) (h : KeptOffReached m s)
    (hc : keptOffOk m s c) : KeptOffReached m (rendezvousStep m s c) := by
  intro r' hr'
  obtain ⟨r, hr, hstep⟩ := Option.bind_eq_some_iff.mp hr'
  have hm := h r hr
  obtain ⟨hfits, hsend⟩ := hc r hr
  cases c with
  | send msg =>
    obtain ⟨k', hk', rfl⟩ := Option.map_eq_some_iff.mp hstep
    exact keptOff_send hm msg hk' hsend
  | receive len =>
    obtain ⟨k', hk', rfl⟩ := Option.map_eq_some_iff.mp hstep
    exact keptOff_receive hm len hk'
  | switch =>
    obtain ⟨k', hk', rfl⟩ := Option.map_eq_some_iff.mp hstep
    exact keptOff_switch hm hk'
  | other k =>
    cases hstep
    obtain ⟨hmq, hcur, hw, hq, hlive⟩ := hfits
    refine ⟨hq, hlive, by rw [hmq]; exact hm.one, fun o ho => ?_⟩
    obtain ⟨hnum, hlast⟩ := hm.owned o ho
    rw [hmq]
    exact ⟨hnum, hlast.imp_right fun hoff => ⟨(hw o).mpr hoff.1, by rw [hcur]; exact hoff.2⟩⟩

/-- **No process receives its own message** in a run in which nobody tries to
send while the buffer holds the message of another process that has been
woken: whoever runs in a state reached, if its `mq_receive` succeeds then the
message is another process's. -/
theorem never_receives_own (k₀ k : Kernel) (name : Int) (m : Fin 32) (l : List (Fin 8)) (hq : RqInv k₀ l)
    (hlive : k₀.self.pst ≠ .terminated) (hnew : ∀ i, (k₀.mq i).msgQname ≠ name)
    (hopen : mqOpen k₀ name = ((m.val : Int), k)) (events : List ChanEvent)
    (hc : Along (rendezvousStep m) (keptOffOk m) (some ⟨k, none⟩) events) (s : Rendezvous)
    (hs : run (rendezvousStep m) (some ⟨k, none⟩) events = some s) : TakesOthers m s := by
  obtain ⟨hnum, -, -⟩ := mqOpen_fresh hnew hopen
  obtain ⟨mq', he⟩ := mqOpen_eq k₀ name
  rw [hopen] at he
  subst he
  have hstart : KeptOffReached m (some ⟨{ k₀ with mq := mq' }, none⟩) := by
    rintro r ⟨⟩
    dsimp only at hnum
    exact ⟨⟨l, hq.of_same rfl rfl rfl (fun _ => rfl) fun _ => Iff.rfl⟩, hlive, by simp [hnum],
      fun o ho => by cases ho⟩
  exact (invariant keptOff_step hstart hc s hs).takesOthers

theorem never_receives_own_three : ∃ s,
    run (rendezvousStep 0) (some ⟨(mqOpen fourProcs 100).2, none⟩) [.send [65], .switch, .send [66]] =
      some s ∧ s.owner = some 0 ∧ s.k.current = 2 ∧ TakesOthers 0 s := by
  obtain ⟨l, hl⟩ := fourProcs_queue
  refine ⟨_, rfl, by decide, by decide, never_receives_own fourProcs (mqOpen fourProcs 100).2 100 0 l hl
    (by decide) (fun i => by rw [fourProcs_mq]; decide) (Prod.ext (by decide) rfl)
    [.send [65], .switch, .send [66]] ⟨?_, ?_, ?_, trivial⟩ _ rfl⟩
  · rintro r ⟨⟩
    exact ⟨trivial, fun h => absurd rfl h⟩
  · exact fun _ _ => ⟨trivial, trivial⟩
  · rintro r ⟨⟩
    refine ⟨trivial, fun _ o ho => ?_⟩
    obtain rfl : o = 0 := by
      have : some (0 : Fin 8) = some o := ho
      exact (Option.some.inj this).symm
    exact .inr (by decide)

/-- Process 1 wakes itself with its own send, as above. Process 0 tries to send
and becomes the last sender, and process 1 takes the message it sent. -/
theorem receives_own_message : ∃ s,
    run (rendezvousStep 0) (some ⟨(mqOpen fourProcs 100).2, none⟩)
      [.send [65], .receive 1, .receive 1, .send [66], .switch, .switch, .switch, .send [67]] = some s ∧
    s.k.current = 1 ∧ s.owner = some 1 ∧ (mqReceive s.k 0 1).1 = 1 ∧ ¬TakesOthers 0 s := by
  refine ⟨_, rfl, by decide, by decide, by decide, fun h => ?_⟩
  exact h 1 (by decide) (by decide)

end ArmKernel.Core
