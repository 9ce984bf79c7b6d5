import ArmKernel.Core.ChannelDelivery
import ArmKernel.Core.Reset

/-! Wake-ups. A channel remembers one sender and one receiver, so a process
can be forgotten when a second one blocks in the same role; these lemmas say
who is waiting after each call. -/
namespace ArmKernel.Core

open Lib Lib.Bytes Lib.Run Fs

def Waiting (k : Kernel) (p : Fin 8) : Prop := (k.pcb p).pst = .waiting

instance (k : Kernel) (p : Fin 8) : Decidable (Waiting k p) := inferInstanceAs (Decidable (_ = _))

@[simp] theorem waiting_setMq (k : Kernel) (m : Fin 32) (x : Mqueue) (p : Fin 8) :
    Waiting (setMq k m x) p ↔ Waiting k p := Iff.rfl

@[simp] theorem waiting_enter (k : Kernel) (p q : Fin 8) : Waiting (enter k p) q ↔ Waiting k q :=
  Iff.rfl

@[simp] theorem waiting_sigwait (k : Kernel) (p q : Fin 8) :
    Waiting (kill k p.val .sigwait) q ↔ q = p ∨ Waiting k q := by
  unfold Waiting
  rw [pst_sigwait]
  split
  · next hq => simp [hq]
  · next hq => simp [hq]

theorem kill_sigcont_outside {k : Kernel} {pid : Int} (hp : ¬(0 ≤ pid ∧ pid < 8)) :
    kill k pid .sigcont = k := by
  unfold kill
  split
  · rw [dif_neg (by omega)]
  · simp

@[simp] theorem waiting_sigcont (k : Kernel) (pid : Int) (q : Fin 8) :
    Waiting (kill k pid .sigcont) q ↔ Waiting k q ∧ pid ≠ q.val := by
  by_cases hp : 0 ≤ pid ∧ pid < 8
  · obtain ⟨p, rfl⟩ : ∃ p : Fin 8, pid = (p.val : Int) :=
      ⟨⟨pid.toNat, by omega⟩, by simp; omega⟩
    unfold Waiting
    rw [pst_sigcont]
    by_cases hq : q = p
    · subst hq
      by_cases hw : (k.pcb q).pst = .waiting <;> simp [hw]
    · have hne : (p.val : Int) ≠ q.val := fun he => hq (Fin.ext (by omega))
      simp [hq, hne]
  · have hne : pid ≠ q.val := by omega
    simp [kill_sigcont_outside hp, hne]

theorem mqSend_waiting {k : Kernel} {m : Fin 32} {msg : List UInt8} {p : Fin 8} (q : Fin 8)
    (hself : k.self.pid = p.val) : Waiting (mqSend k m msg).2 q ↔ (q = p ∨ Waiting k q) ∧
      ((k.mq m).msgQnum = 0 → (k.mq m).msgQrec = 1 → (k.mq m).msgLrpid ≠ q.val) := by
  unfold mqSend
  simp only [kill_mq, setMq_mq, self_setMq, hself]
  split
  · next h0 =>
    split
    · next h1 => simp [h0, h1]
    · next h1 => simp [h1]
  · next h0 => simp [h0]

theorem mqReceive_waiting {k : Kernel} {m : Fin 32} {len : Nat} {p : Fin 8} (q : Fin 8)
    (hself : k.self.pid = p.val) : Waiting (mqReceive k m len).2.2 q ↔
      if takes k m then Waiting k q ∧ (k.mq m).msgLspid ≠ q.val else q = p ∨ Waiting k q := by
  by_cases ht : takes k m
  · simp [mqReceive_take len ht, ht]
  · simp [mqReceive_wait len ht, ht, hself]

@[simp] theorem mqSend_pid (k : Kernel) (m : Fin 32) (msg : List UInt8) (p : Fin 8) :
    ((mqSend k m msg).2.pcb p).pid = (k.pcb p).pid := by
  unfold mqSend
  simp only
  split
  · split <;> simp [setMq]
  · simp [setMq]

@[simp] theorem mqReceive_pid (k : Kernel) (m : Fin 32) (len : Nat) (p : Fin 8) :
    ((mqReceive k m len).2.2.pcb p).pid = (k.pcb p).pid := by
  by_cases h : takes k m
  · simp [mqReceive_take len h, setMq]
  · simp [mqReceive_wait len h, setMq]

theorem mqSend_current (k : Kernel) (m : Fin 32) (msg : List UInt8) :
    (mqSend k m msg).2.current = k.current := by
  unfold mqSend
  dsimp only
  split
  · split <;> simp [setMq]
  · simp [setMq]

theorem mqReceive_current (k : Kernel) (m : Fin 32) (len : Nat) :
    (mqReceive k m len).2.2.current = k.current := by
  by_cases h : takes k m
  · simp [mqReceive_take len h, setMq]
  · simp [mqReceive_wait len h, setMq]

/-! Runs with any number of parties. -/

inductive LastOp where
  | send | failedReceive | receive
deriving DecidableEq

/-- The kernel, each process's latest operation on the channel, and the sender
of the buffered message. -/
structure Parties where
  k : Kernel
  latest : Fin 8 → Option LastOp
  owner : Option (Fin 8)

/-- A call on the channel, or kernel activity that neither touches it nor
signals anybody. -/
inductive PartyCall where
  | send (p : Fin 8) (msg : List UInt8)
  | receive (p : Fin 8) (len : Nat)
  | other (k : Kernel)

def partyStep (m : Fin 32) (s : Parties) : PartyCall → Parties
  | .send p msg =>
    match mqSend (enter s.k p) m msg with
    | (r, k) => ⟨k, Function.update s.latest p (some .send), if r = 0 then some p else s.owner⟩
  | .receive p len =>
    match mqReceive (enter s.k p) m len with
    | (r, _, k) =>
      if r = -1 then ⟨k, Function.update s.latest p (some .failedReceive), s.owner⟩
      else ⟨k, Function.update s.latest p (some .receive), none⟩
  | .other k => { s with k := k }

/-- No blocked sender while the buffer is empty, and no blocked receiver while
it is full, the sender of the message itself excepted. -/
def NoLostWakeup (m : Fin 32) (s : Parties) : Prop :=
  ((s.k.mq m).msgQnum = 0 → ∀ p, s.latest p = some .send → ¬Waiting s.k p) ∧
    ((s.k.mq m).msgQnum ≠ 0 → ∀ p, s.latest p = some .failedReceive → s.owner ≠ some p →
      ¬Waiting s.k p)

instance (m : Fin 32) (s : Parties) : Decidable (NoLostWakeup m s) :=
  inferInstanceAs (Decidable (_ ∧ _))

/-- A caller's control block carries its own index; other activity changes
neither the channel nor a process state. -/
def partyFits (m : Fin 32) (s : Parties) : PartyCall → Prop
  | .send p _ => (s.k.pcb p).pid = p.val
  | .receive p _ => (s.k.pcb p).pid = p.val
  | .other k => k.mq m = s.k.mq m ∧ ∀ p, (k.pcb p).pst = (s.k.pcb p).pst

/-- Nobody is made to be forgotten: no `mq_send` while the buffer holds another
process's message, no `mq_receive` on the empty buffer while another process is
blocked in one. -/
def oneAtATime (m : Fin 32) (s : Parties) : PartyCall → Prop
  | .send p _ => (s.k.mq m).msgQnum = 0 ∨ s.owner = some p
  | .receive p _ => (s.k.mq m).msgQnum ≠ 0 ∨
      ∀ q, q ≠ p → s.latest q = some .failedReceive → ¬Waiting s.k q
  | .other _ => True

instance (m : Fin 32) (s : Parties) : (c : PartyCall) → Decidable (oneAtATime m s c)
  | .send _ _ => inferInstanceAs (Decidable (_ ∨ _))
  | .receive _ _ => inferInstanceAs (Decidable (_ ∨ _))
  | .other _ => inferInstanceAs (Decidable True)

structure Remembered (m : Fin 32) (s : Parties) : Prop where
  full : (s.k.mq m).msgQnum ≠ 0 → ∃ o : Fin 8, s.owner = some o ∧ (s.k.mq m).msgLspid = o.val
  senders : ∀ p, s.latest p = some .send → Waiting s.k p →
    (s.k.mq m).msgQnum ≠ 0 ∧ s.owner = some p
  emptied : (s.k.mq m).msgQnum = 0 → ∀ p, s.latest p = some .failedReceive → Waiting s.k p →
    (s.k.mq m).msgLrpid = p.val ∧ (s.k.mq m).msgQrec = 1
  filled : (s.k.mq m).msgQnum ≠ 0 → ∀ p, s.latest p = some .failedReceive → Waiting s.k p →
    s.owner = some p
  one : (s.k.mq m).msgQnum ≤ 1

theorem Remembered.noLostWakeup {m : Fin 32} {s : Parties} (h : Remembered m s) :
    NoLostWakeup m s :=
  ⟨fun h0 p hl hw => (h.senders p hl hw).1 h0, fun h1 p hl ho hw => ho (h.filled h1 p hl hw)⟩

theorem remembered_send {m : Fin 32} {s : Parties} (h : Remembered m s) (p : Fin 8)
    (msg : List UInt8) (hpid : (s.k.pcb p).pid = p.val)
    (hc : (s.k.mq m).msgQnum = 0 ∨ s.owner = some p) :
    Remembered m (partyStep m s (.send p msg)) := by
  have hr := mqSend_ret (enter s.k p) m msg
  have hm := mqSend_mq (enter s.k p) m msg
  have hself : (enter s.k p).self.pid = p.val := hpid
  have hw : ∀ q, Waiting (mqSend (enter s.k p) m msg).2 q → _ := fun q =>
    (mqSend_waiting q hself).mp
  -- after the call only the caller has a new latest operation
  have hl : ∀ q op, q ≠ p → Function.update s.latest p (some .send) q = some op →
      s.latest q = some op := fun q op hq hu => by rwa [Function.update_of_ne hq] at hu
  by_cases h0 : (s.k.mq m).msgQnum = 0
  · simp only [enter_mq, h0, if_true, hself] at hr hm
    have hs : partyStep m s (.send p msg) = ⟨(mqSend (enter s.k p) m msg).2,
        Function.update s.latest p (some .send), some p⟩ := by simp [partyStep, hr]
    rw [hs]
    refine ⟨fun _ => ⟨p, rfl, by simp [hm]⟩, fun q hq hwq => ?_, fun hz => ?_, fun _ q hq hwq => ?_,
      by simp [hm]⟩
    · by_cases hqp : q = p
      · exact ⟨by simp [hm], by rw [hqp]⟩
      · have hwas := ((hw q hwq).1.resolve_left hqp : Waiting s.k q)
        exact absurd h0 (h.senders q (hl q _ hqp hq) hwas).1
    · simp [hm] at hz
    · have hqp : q ≠ p := by
        rintro rfl
        simp at hq
      have hwas := ((hw q hwq).1.resolve_left hqp : Waiting s.k q)
      obtain ⟨hlr, hqr⟩ := h.emptied h0 q (hl q _ hqp hq) hwas
      exact absurd hlr ((hw q hwq).2 h0 hqr)
  · have ho : s.owner = some p := hc.resolve_left h0
    simp only [enter_mq, h0, if_false, hself] at hr hm
    have hs : partyStep m s (.send p msg) = ⟨(mqSend (enter s.k p) m msg).2,
        Function.update s.latest p (some .send), s.owner⟩ := by simp [partyStep, hr]
    rw [hs]
    refine ⟨fun _ => ⟨p, ho, by simp [hm]⟩, fun q hq hwq => ?_, fun hz => ?_, fun _ q hq hwq => ?_,
      by simpa [hm] using h.one⟩
    · by_cases hqp : q = p
      · exact ⟨by simpa [hm] using h0, by rw [hqp]; exact ho⟩
      · have hwas := ((hw q hwq).1.resolve_left hqp : Waiting s.k q)
        exact ⟨by simpa [hm] using h0, (h.senders q (hl q _ hqp hq) hwas).2⟩
    · exact absurd (by simpa [hm] using hz) h0
    · have hqp : q ≠ p := by
        rintro rfl
        simp at hq
      have hwas := ((hw q hwq).1.resolve_left hqp : Waiting s.k q)
      exact h.filled h0 q (hl q _ hqp hq) hwas

theorem remembered_receive {m : Fin 32} {s : Parties} (h : Remembered m s) (p : Fin 8) (len : Nat)
    (hpid : (s.k.pcb p).pid = p.val) (hc : (s.k.mq m).msgQnum ≠ 0 ∨
      ∀ q, q ≠ p → s.latest q = some .failedReceive → ¬Waiting s.k q) :
    Remembered m (partyStep m s (.receive p len)) := by
  have hr := mqReceive_ret_eq_neg_one (enter s.k p) m len
  have hm := mqReceive_mq (enter s.k p) m len
  have hself : (enter s.k p).self.pid = p.val := hpid
  by_cases ht : takes (enter s.k p) m
  · -- the message goes and its sender is the one woken
    have h1 : (s.k.mq m).msgQnum = 1 := by
      have h0 : 0 < (s.k.mq m).msgQnum := ht.1
      have := h.one
      omega
    obtain ⟨o, ho, hls⟩ := h.full (by omega)
    have hw : ∀ q, Waiting (mqReceive (enter s.k p) m len).2.2 q → Waiting s.k q ∧ o ≠ q := by
      intro q hq
      have := (mqReceive_waiting q hself).mp hq
      rw [if_pos ht] at this
      refine ⟨this.1, fun he => this.2 ?_⟩
      rw [enter_mq, hls, he]
    simp only [ht, not_true, iff_false, if_true, enter_mq] at hr hm
    have hs : partyStep m s (.receive p len) = ⟨(mqReceive (enter s.k p) m len).2.2,
        Function.update s.latest p (some .receive), none⟩ := by simp [partyStep, hr]
    rw [hs]
    have hl : ∀ q op, op ≠ .receive → Function.update s.latest p (some .receive) q = some op →
        s.latest q = some op := by
      intro q op hop hu
      by_cases hqp : q = p
      · subst hqp
        simp at hu
        exact absurd hu.symm hop
      · rwa [Function.update_of_ne hqp] at hu
    refine ⟨fun hz => absurd (by simp [hm, h1]) hz, fun q hq hwq => ?_, fun _ q hq hwq => ?_,
      fun hz => absurd (by simp [hm, h1]) hz, by simp [hm, h1]⟩
    · have := (h.senders q (hl q _ (by decide) hq) (hw q hwq).1).2
      exact absurd (Option.some.inj (ho.symm.trans this)) (hw q hwq).2
    · have := h.filled (by omega) q (hl q _ (by decide) hq) (hw q hwq).1
      exact absurd (Option.some.inj (ho.symm.trans this)) (hw q hwq).2
  · have hw : ∀ q, Waiting (mqReceive (enter s.k p) m len).2.2 q → q = p ∨ Waiting s.k q := by
      intro q hq
      have := (mqReceive_waiting q hself).mp hq
      rwa [if_neg ht] at this
    simp only [ht, not_false_iff, iff_true, if_false, enter_mq, hself] at hr hm
    have hs : partyStep m s (.receive p len) = ⟨(mqReceive (enter s.k p) m len).2.2,
        Function.update s.latest p (some .failedReceive), s.owner⟩ := by simp [partyStep, hr]
    rw [hs]
    refine ⟨fun hz => ?_, fun q hq hwq => ?_, fun hz q hq hwq => ?_, fun hz q hq hwq => ?_,
      by simpa [hm] using h.one⟩
    · simpa [hm] using h.full (by simpa [hm] using hz)
    · have hqp : q ≠ p := by
        rintro rfl
        simp at hq
      simp only [Function.update_of_ne hqp] at hq
      have := h.senders q hq ((hw q hwq).resolve_left hqp)
      exact ⟨by simpa [hm] using this.1, this.2⟩
    · have hz' : (s.k.mq m).msgQnum = 0 := by simpa [hm] using hz
      by_cases hqp : q = p
      · subst hqp
        simp [hm]
      · simp only [Function.update_of_ne hqp] at hq
        exact absurd ((hw q hwq).resolve_left hqp) ((hc.resolve_left (not_not.mpr hz')) q hqp hq)
    · have hz' : (s.k.mq m).msgQnum ≠ 0 := by simpa [hm] using hz
      by_cases hqp : q = p
      · -- refused on a full buffer: the last sender, who owns the message
        subst hqp
        obtain ⟨o, ho, hls⟩ := h.full hz'
        have hpos : 0 < (s.k.mq m).msgQnum := by omega
        have : (s.k.mq m).msgLspid = (q.val : Int) := by
          by_contra hne
          exact ht ⟨hpos, by rw [enter_mq, hself]; exact hne⟩
        have hoq : o = q := Fin.ext (by omega)
        rw [ho, hoq]
      · simp only [Function.update_of_ne hqp] at hq
        exact h.filled hz' q hq ((hw q hwq).resolve_left hqp)

theorem remembered_step {m : Fin 32} (s : Parties) (c : PartyCall) (h : Remembered m s)
    (hc : partyFits m s c ∧ oneAtATime m s c) : Remembered m (partyStep m s c) := by
  cases c with
  | send p msg => exact remembered_send h p msg hc.1 hc.2
  | receive p len => exact remembered_receive h p len hc.1 hc.2
  | other k =>
    obtain ⟨hm, hp⟩ := hc.1
    have hw : ∀ p, Waiting k p ↔ Waiting s.k p := fun p => by rw [Waiting, hp, Waiting]
    constructor <;> simp only [partyStep, hm, hw]
    · exact h.full
    · exact h.senders
    · exact h.emptied
    · exact h.filled
    · exact h.one

def opened (k : Kernel) : Parties := ⟨k, fun _ => none, none⟩

theorem remembered_opened {k₀ k : Kernel} {name : Int} {m : Fin 32}
    (hnew : ∀ i, (k₀.mq i).msgQname ≠ name) (hopen : mqOpen k₀ name = ((m.val : Int), k)) :
    Remembered m (opened k) := by
  have hq := (mqOpen_fresh hnew hopen).1
  constructor <;> simp [opened, hq]

/-- **Wake-ups are not lost while one process at a time can block in each
role.** In every run from a freshly opened channel whose calls all respect
that, no reached state has a sender waiting on the empty buffer or, its owner
excepted, a receiver waiting on the full one. -/
theorem wakeup_not_lost (k₀ k : Kernel) (name : Int) (m : Fin 32)
    (hnew : ∀ i, (k₀.mq i).msgQname ≠ name) (hopen : mqOpen k₀ name = ((m.val : Int), k))
    (calls : List PartyCall)
    (hc : Along (partyStep m) (fun s c => partyFits m s c ∧ oneAtATime m s c) (opened k) calls) :
    NoLostWakeup m (run (partyStep m) (opened k) calls) :=
  (invariant remembered_step (remembered_opened hnew hopen) hc).noLostWakeup

theorem wakeup_not_lost_three :
    NoLostWakeup 0 (run (partyStep 0) (opened (mqOpen fourProcs 100).2)
      [.send 1 [65], .receive 2 1, .receive 3 1, .send 2 [66], .receive 3 1]) :=
  wakeup_not_lost fourProcs (mqOpen fourProcs 100).2 100 0
    (fun i => by rw [fourProcs_mq]; decide) (Prod.ext (by decide) rfl) _
    ⟨⟨rfl, by decide⟩, ⟨rfl, by decide⟩, ⟨rfl, by decide⟩, ⟨rfl, by decide⟩, ⟨rfl, by decide⟩, trivial⟩

/-- Process 1 sends, process 2 tries to and becomes the last sender, process 3
receives and wakes process 2: process 1 is left waiting on the empty buffer.
Each of them was executing when it called. -/
theorem second_sender_hides_first :
    Along (partyStep 0) (fun s c => partyFits 0 s c ∧ match c with
        | .send p _ => (s.k.pcb p).pst = .executing
        | .receive p _ => (s.k.pcb p).pst = .executing
        | .other _ => False)
      (opened (mqOpen fourProcs 100).2) [.send 1 [65], .send 2 [66], .receive 3 1] ∧
    ¬NoLostWakeup 0 (run (partyStep 0) (opened (mqOpen fourProcs 100).2)
      [.send 1 [65], .send 2 [66], .receive 3 1]) := by
  refine ⟨⟨⟨rfl, rfl⟩, ⟨rfl, rfl⟩, ⟨rfl, rfl⟩, trivial⟩, ?_⟩
  intro h
  exact h.1 rfl 1 rfl rfl

end ArmKernel.Core
