import ArmKernel.Core.Channel
import ArmKernel.Core.Signals
import ArmKernel.Core.Reset
import ArmKernel.Fs.Allocator
import ArmKernel.Lib.Run

/-! What a channel call does to the channel, and delivery: over any
interleaving the received payloads are the sent ones, in order, short of the
one in the buffer. -/
namespace ArmKernel.Core

open Lib Lib.Bytes Lib.Run Fs

/-! Effects on the channel. -/

theorem setMq_mq (k : Kernel) (m : Fin 32) (x : Mqueue) : (setMq k m x).mq m = x := by
  simp [setMq]

@[simp] theorem self_setMq (k : Kernel) (m : Fin 32) (x : Mqueue) : (setMq k m x).self = k.self := rfl

theorem mqSend_ret (k : Kernel) (m : Fin 32) (msg : List UInt8) :
    (mqSend k m msg).1 = if (k.mq m).msgQnum = 0 then 0 else -1 := by
  unfold mqSend
  simp only [kill_mq, setMq_mq]
  split
  · split <;> rfl
  · rfl

theorem mqSend_mq (k : Kernel) (m : Fin 32) (msg : List UInt8) :
    (mqSend k m msg).2.mq m = if (k.mq m).msgQnum = 0 then { k.mq m with
        msgLspid := k.self.pid
        msgQnum := 1
        msgQbuf := putBytes (k.mq m).msgQbuf 0 msg
        msgQrec := if (k.mq m).msgQrec = 1 then 0 else (k.mq m).msgQrec }
      else { k.mq m with msgLspid := k.self.pid } := by
  unfold mqSend
  simp only [kill_mq, setMq_mq]
  split
  · next h0 =>
    split
    · next h1 => simp [setMq_mq, h0, h1]
    · simp [setMq_mq, h0]
  · simp [setMq_mq]

/-- A receiver takes the message unless it was the last to try to send. -/
def takes (k : Kernel) (m : Fin 32) : Prop := 0 < (k.mq m).msgQnum ∧ (k.mq m).msgLspid ≠ k.self.pid

instance (k : Kernel) (m : Fin 32) : Decidable (takes k m) := inferInstanceAs (Decidable (_ ∧ _))

@[simp] theorem setMq_setMq (k : Kernel) (m : Fin 32) (x y : Mqueue) :
    setMq (setMq k m x) m y = setMq k m y := by
  simp [setMq]

theorem mqReceive_take {k : Kernel} {m : Fin 32} (len : Nat) (h : takes k m) :
    mqReceive k m len = ((len : Int), (List.range len).map (byte (k.mq m).msgQbuf),
      kill (setMq k m { k.mq m with msgLrpid := k.self.pid, msgQnum := (k.mq m).msgQnum - 1 })
        (k.mq m).msgLspid .sigcont) := by
  unfold takes at h
  simp [mqReceive, setMq_mq, h]

theorem mqReceive_wait {k : Kernel} {m : Fin 32} (len : Nat) (h : ¬takes k m) :
    mqReceive k m len = (-1, [],
      kill (setMq k m { k.mq m with msgLrpid := k.self.pid, msgQrec := 1 }) k.self.pid .sigwait) := by
  unfold takes at h
  unfold mqReceive
  simp only [setMq_mq, self_setMq, setMq_setMq]
  rw [if_neg h]

theorem mqReceive_mq (k : Kernel) (m : Fin 32) (len : Nat) :
    (mqReceive k m len).2.2.mq m = if takes k m then { k.mq m with
        msgLrpid := k.self.pid
        msgQnum := (k.mq m).msgQnum - 1 }
      else { k.mq m with msgLrpid := k.self.pid, msgQrec := 1 } := by
  by_cases h : takes k m
  · simp [mqReceive_take len h, h, setMq_mq]
  · simp [mqReceive_wait len h, h, setMq_mq]

theorem mqReceive_ret_eq_neg_one (k : Kernel) (m : Fin 32) (len : Nat) :
    (mqReceive k m len).1 = -1 ↔ ¬takes k m := by
  by_cases h : takes k m
  · simp [mqReceive_take len h, h]
  · simp [mqReceive_wait len h, h]

theorem mqOpen_fresh {k k' : Kernel} {name : Int} {m : Fin 32}
    (hnew : ∀ i, (k.mq i).msgQname ≠ name) (h : mqOpen k name = ((m.val : Int), k')) :
    (k'.mq m).msgQnum = 0 ∧ (k'.mq m).msgQrec = 0 ∧ ∀ p, k'.pcb p = k.pcb p := by
  have hnone : (List.finRange 32).find? (fun i => (k.mq i).msgQname == name) = none := by
    rw [List.find?_eq_none]
    intro i _
    simpa using hnew i
  unfold mqOpen at h
  rw [hnone] at h
  dsimp only at h
  split at h
  · next i _ =>
    obtain ⟨hi, hk⟩ := Prod.mk.inj h
    have him : i = m := Fin.ext (by simpa using hi)
    subst him
    subst hk
    simp [setMq]
  · obtain ⟨hi, _⟩ := Prod.mk.inj h
    omega

/-! Runs. -/

/-- A call on the channel by a process, or anything the kernel does that leaves
the channel as it is. -/
inductive ChanCall where
  | send (p : Fin 8) (msg : List UInt8)
  | receive (p : Fin 8)
  | other (k : Kernel)

/-- The kernel with the payloads of the successful calls so far. -/
structure Delivery where
  k : Kernel
  sent : List (List UInt8)
  received : List (List UInt8)

def enter (k : Kernel) (p : Fin 8) : Kernel := { k with current := p }

@[simp] theorem enter_mq (k : Kernel) (p : Fin 8) : (enter k p).mq = k.mq := rfl

def retOf (m : Fin 32) (len : Nat) (k : Kernel) : ChanCall → Int
  | .send p msg => (mqSend (enter k p) m msg).1
  | .receive p => (mqReceive (enter k p) m len).1
  | .other _ => 0

def deliver (m : Fin 32) (len : Nat) (d : Delivery) : ChanCall → Delivery
  | .send p msg =>
    match mqSend (enter d.k p) m msg with
    | (r, k) => ⟨k, if r = 0 then d.sent ++ [msg] else d.sent, d.received⟩
  | .receive p =>
    match mqReceive (enter d.k p) m len with
    | (r, msg, k) => ⟨k, d.sent, if r = -1 then d.received else d.received ++ [msg]⟩
  | .other k => ⟨k, d.sent, d.received⟩

/-- Messages have the channel's length, and other activity leaves the channel. -/
def callFits (m : Fin 32) (len : Nat) (d : Delivery) : ChanCall → Prop
  | .send _ msg => msg.length = len
  | .receive _ => True
  | .other k => k.mq m = d.k.mq m

/-- The sent payloads are the received ones followed by the buffer. -/
structure InOrder (m : Fin 32) (len : Nat) (d : Delivery) : Prop where
  one : (d.k.mq m).msgQnum ≤ 1
  order : d.sent = d.received ++
    if (d.k.mq m).msgQnum = 0 then [] else [(List.range len).map (byte (d.k.mq m).msgQbuf)]

theorem inOrder_step {m : Fin 32} {len : Nat} (hlen : len ≤ 64) (d : Delivery) (c : ChanCall)
    (h : InOrder m len d) (hc : callFits m len d c) : InOrder m len (deliver m len d c) := by
  obtain ⟨hone, horder⟩ := h
  cases c with
  | send p msg =>
    have hr := mqSend_ret (enter d.k p) m msg
    have hm := mqSend_mq (enter d.k p) m msg
    simp only [callFits] at hc
    by_cases h0 : (d.k.mq m).msgQnum = 0
    · simp only [enter_mq, h0, if_true] at hr hm horder
      have hbuf := map_byte_putBytes (d.k.mq m).msgQbuf msg (hc ▸ hlen)
      refine ⟨by simp [deliver, hm], ?_⟩
      simp [deliver, hr, hm, horder, ← hc, hbuf]
    · simp only [enter_mq, h0, if_false] at hr hm horder
      exact ⟨by simpa [deliver, hm] using hone, by simp [deliver, hr, hm, horder, h0]⟩
  | receive p =>
    have hr := mqReceive_ret_eq_neg_one (enter d.k p) m len
    have hm := mqReceive_mq (enter d.k p) m len
    by_cases ht : takes (enter d.k p) m
    · have hd := congrArg (fun r => r.2.1) (mqReceive_take len ht)
      have h1 : (d.k.mq m).msgQnum = 1 := by
        have : 0 < (d.k.mq m).msgQnum := ht.1
        omega
      simp only [ht, not_true, iff_false, if_true, enter_mq] at hr hm hd
      simp only [h1, one_ne_zero, if_false] at horder
      exact ⟨by simp [deliver, hm, h1], by simp [deliver, hr, hm, hd, h1, horder]⟩
    · simp only [ht, not_false_iff, iff_true, if_false, enter_mq] at hr hm
      exact ⟨by simpa [deliver, hm] using hone, by simpa [deliver, hr, hm] using horder⟩
  | other k =>
    simp only [callFits] at hc
    exact ⟨by simpa [deliver, hc] using hone, by simp [deliver, hc, horder]⟩

theorem failed_call_keeps_buffer {m : Fin 32} {len : Nat} (d : Delivery) (c : ChanCall)
    (h : retOf m len d.k c = -1) :
    ((deliver m len d c).k.mq m).msgQnum = (d.k.mq m).msgQnum ∧
      ((deliver m len d c).k.mq m).msgQbuf = (d.k.mq m).msgQbuf := by
  cases c with
  | send p msg =>
    simp only [retOf, mqSend_ret, enter_mq] at h
    by_cases h0 : (d.k.mq m).msgQnum = 0
    · simp [h0] at h
    · simp [deliver, mqSend_mq, h0]
  | receive p =>
    simp only [retOf] at h
    have ht := (mqReceive_ret_eq_neg_one _ _ _).mp h
    simp [deliver, mqReceive_mq, ht]
  | other k => simp [retOf] at h

/-- **Exactly once and in order.** On a freshly opened channel, after any
interleaving of sends and receives of one length by any processes: the buffer
holds at most one message, what was received is a prefix of what was sent and
falls short by the buffer, and a further call that fails leaves the buffered
message alone. -/
theorem channel_delivers_in_order (k₀ k : Kernel) (name : Int) (m : Fin 32) (len : Nat)
    (hnew : ∀ i, (k₀.mq i).msgQname ≠ name) (hopen : mqOpen k₀ name = ((m.val : Int), k)) (hlen : len ≤ 64)
    (calls : List ChanCall) (hc : Along (deliver m len) (callFits m len) ⟨k, [], []⟩ calls) :
    let d := run (deliver m len) ⟨k, [], []⟩ calls
    ((d.k.mq m).msgQnum = 0 ∨ (d.k.mq m).msgQnum = 1) ∧ d.received <+: d.sent ∧
      d.sent.length = d.received.length + (d.k.mq m).msgQnum ∧
      ∀ c, retOf m len d.k c = -1 →
        ((deliver m len d c).k.mq m).msgQnum = (d.k.mq m).msgQnum ∧
          ((deliver m len d c).k.mq m).msgQbuf = (d.k.mq m).msgQbuf := by
  intro d
  have h0 : InOrder m len ⟨k, [], []⟩ := by
    have hq := (mqOpen_fresh hnew hopen).1
    exact ⟨by simp [hq], by simp [hq]⟩
  have hinv : InOrder m len d := invariant (inOrder_step hlen) h0 hc
  have hone := hinv.one
  refine ⟨by omega, ⟨_, hinv.order.symm⟩, ?_, failed_call_keeps_buffer d⟩
  rw [hinv.order, List.length_append]
  split
  · next hq => simp [hq]
  · simp
    omega

/-- A reset machine on which `init` has forked three times. -/
def fourProcs : Kernel :=
  (fork (fork (fork (boot fullVol ⟨0, 0, fun _ => 0⟩)).2).2).2

theorem fourProcs_mq (i : Fin 32) : fourProcs.mq i = Mqueue.zero := rfl

theorem channel_delivers_two :
    (run (deliver 0 1) ⟨(mqOpen fourProcs 100).2, [], []⟩
      [.send 1 [65], .receive 1, .send 2 [66], .receive 3, .receive 3, .send 2 [66], .receive 3]).received =
        [[65], [66]] := by
  have h := channel_delivers_in_order fourProcs (mqOpen fourProcs 100).2 100 0 1
    (fun i => by rw [fourProcs_mq]; decide) (Prod.ext (by decide) rfl) (by decide)
    [.send 1 [65], .receive 1, .send 2 [66], .receive 3, .receive 3, .send 2 [66], .receive 3]
    ⟨rfl, trivial, rfl, trivial, trivial, rfl, trivial, trivial⟩
  exact h.2.1.eq_of_length rfl

end ArmKernel.Core
