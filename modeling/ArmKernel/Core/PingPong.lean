import ArmKernel.Core.ChannelWakeup

/-! The exchange of `ping.c` and `pong.c`: one process sends all of its
messages and then receives, the other receives and then sends, both retrying
every call that fails. A process keeps the processor until it is preempted or
a call fails, and only an executing process is dispatched. -/
namespace ArmKernel.Core

open Lib Lib.Bytes Lib.Run Fs

/-! One attempt of `msgsend` or `msgreceive`. -/

inductive ChanOp where
  | send (msg : List UInt8)
  | receive

/-- Whether the kernel did not return -1, what was received, and the kernel. -/
def attempt (m : Fin 32) (len : Nat) (k : Kernel) (p : Fin 8) :
    ChanOp → Bool × List (List UInt8) × Kernel
  | .send msg =>
    match mqSend (enter k p) m msg with
    | (r, k) => (r != -1, [], k)
  | .receive =>
    match mqReceive (enter k p) m len with
    | (r, msg, k) => (r != -1, if r = -1 then [] else [msg], k)

def Live (k : Kernel) (p : Fin 8) : Prop := (k.pcb p).pst = .executing ∨ Waiting k p

theorem live_sigwait {k : Kernel} {q : Fin 8} (p : Fin 8) (h : Live k q) :
    Live (kill k p.val .sigwait) q := by
  unfold Live Waiting at *
  rw [pst_sigwait]
  split
  · exact .inr rfl
  · exact h

theorem live_sigcont {k : Kernel} {q : Fin 8} (pid : Int) (h : Live k q) :
    Live (kill k pid .sigcont) q := by
  by_cases hp : 0 ≤ pid ∧ pid < 8
  · obtain ⟨p, rfl⟩ : ∃ p : Fin 8, pid = (p.val : Int) :=
      ⟨⟨pid.toNat, by omega⟩, by simp; omega⟩
    unfold Live Waiting at *
    rw [pst_sigcont]
    split
    · exact .inl rfl
    · exact h
  · rwa [kill_sigcont_outside hp]

theorem live_attempt {m : Fin 32} {len : Nat} {k : Kernel} {p q : Fin 8} (op : ChanOp)
    (hpid : (k.pcb p).pid = p.val) (h : Live k q) : Live (attempt m len k p op).2.2 q := by
  have hself : (enter k p).self.pid = p.val := hpid
  cases op with
  | send msg =>
    simp only [attempt, mqSend, self_setMq, hself]
    split
    · split
      · exact live_sigcont _ (live_sigwait p h)
      · exact live_sigwait p h
    · exact live_sigwait p h
  | receive =>
    by_cases ht : takes (enter k p) m
    · simp only [attempt, mqReceive_take len ht]
      exact live_sigcont _ h
    · simp only [attempt, mqReceive_wait len ht, hself]
      exact live_sigwait p h

theorem pid_attempt (m : Fin 32) (len : Nat) (k : Kernel) (p q : Fin 8) (op : ChanOp) :
    ((attempt m len k p op).2.2.pcb q).pid = (k.pcb q).pid := by
  cases op with
  | send msg => simp [attempt, enter]
  | receive => simp [attempt, enter]

theorem attempt_send_empty {m : Fin 32} (len : Nat) {k : Kernel} {p : Fin 8} (msg : List UInt8)
    (hpid : (k.pcb p).pid = p.val) (h0 : (k.mq m).msgQnum = 0) :
    let r := attempt m len k p (.send msg)
    r.1 = true ∧ r.2.1 = [] ∧ (r.2.2.mq m).msgQnum = 1 ∧ (r.2.2.mq m).msgLspid = p.val ∧
      (r.2.2.mq m).msgQbuf = putBytes (k.mq m).msgQbuf 0 msg ∧
      ∀ q, Waiting r.2.2 q → (q = p ∨ Waiting k q) ∧
        ((k.mq m).msgQrec = 1 → (k.mq m).msgLrpid ≠ q.val) := by
  have hself : (enter k p).self.pid = p.val := hpid
  have hr := mqSend_ret (enter k p) m msg
  have hm := mqSend_mq (enter k p) m msg
  simp only [enter_mq, h0, if_true, hself] at hr hm
  refine ⟨by simp [attempt, hr], rfl, by simp [attempt, hm], by simp [attempt, hm],
    by simp [attempt, hm], fun q hq => ?_⟩
  have := (mqSend_waiting q hself).mp hq
  exact ⟨this.1, this.2 h0⟩

theorem attempt_send_full {m : Fin 32} (len : Nat) {k : Kernel} {p : Fin 8} (msg : List UInt8)
    (hpid : (k.pcb p).pid = p.val) (h0 : (k.mq m).msgQnum ≠ 0) :
    let r := attempt m len k p (.send msg)
    r.1 = false ∧ r.2.2.mq m = { k.mq m with msgLspid := p.val } ∧
      ∀ q, Waiting r.2.2 q → q = p ∨ Waiting k q := by
  have hself : (enter k p).self.pid = p.val := hpid
  have hr := mqSend_ret (enter k p) m msg
  have hm := mqSend_mq (enter k p) m msg
  simp only [enter_mq, h0, if_false, hself] at hr hm
  exact ⟨by simp [attempt, hr], by simp [attempt, hm], fun q hq => ((mqSend_waiting q hself).mp hq).1⟩

theorem attempt_receive_take {m : Fin 32} (len : Nat) {k : Kernel} {p : Fin 8}
    (hpid : (k.pcb p).pid = p.val) (h0 : (k.mq m).msgQnum ≠ 0)
    (hls : (k.mq m).msgLspid ≠ p.val) :
    let r := attempt m len k p .receive
    r.1 = true ∧ r.2.1 = [(List.range len).map (byte (k.mq m).msgQbuf)] ∧
      (r.2.2.mq m).msgQnum = (k.mq m).msgQnum - 1 ∧
      ∀ q, Waiting r.2.2 q → Waiting k q ∧ (k.mq m).msgLspid ≠ q.val := by
  have hself : (enter k p).self.pid = p.val := hpid
  have ht : takes (enter k p) m := ⟨Nat.pos_of_ne_zero h0, by rw [hself]; exact hls⟩
  have hr := (mqReceive_ret_eq_neg_one (enter k p) m len).not.mpr (not_not.mpr ht)
  have hd := congrArg (fun r => r.2.1) (mqReceive_take len ht)
  have hm := mqReceive_mq (enter k p) m len
  simp only [ht, if_true, enter_mq] at hm hd
  refine ⟨by simp [attempt, hr], by simp [attempt, hr, hd], by simp [attempt, hm], fun q hq => ?_⟩
  have := (mqReceive_waiting q hself).mp hq
  rwa [if_pos ht] at this

theorem attempt_receive_fail {m : Fin 32} (len : Nat) {k : Kernel} {p : Fin 8}
    (hpid : (k.pcb p).pid = p.val)
    (h : (k.mq m).msgQnum = 0 ∨ (k.mq m).msgLspid = p.val) :
    let r := attempt m len k p .receive
    r.1 = false ∧ r.2.2.mq m = { k.mq m with msgLrpid := p.val, msgQrec := 1 } ∧
      ∀ q, Waiting r.2.2 q → q = p ∨ Waiting k q := by
  have hself : (enter k p).self.pid = p.val := hpid
  have ht : ¬takes (enter k p) m := by
    rintro ⟨h1, h2⟩
    rw [hself] at h2
    rcases h with h0 | hls
    · exact absurd h0 (Nat.pos_iff_ne_zero.mp h1)
    · exact h2 hls
  have hr := (mqReceive_ret_eq_neg_one (enter k p) m len).mpr ht
  have hm := mqReceive_mq (enter k p) m len
  simp only [ht, if_false, enter_mq, hself] at hm
  refine ⟨by simp [attempt, hr], by simp [attempt, hm], fun q hq => ?_⟩
  have := (mqReceive_waiting q hself).mp hq
  rwa [if_neg ht] at this

/-! The exchange. -/

/-- The kernel, the process on the processor, the calls each party has
completed and the messages each has received. -/
structure Exchange where
  k : Kernel
  cpu : Option (Fin 8)
  a : Nat
  b : Nat
  gotA : List (List UInt8)
  gotB : List (List UInt8)

/-- A system call of one of the parties, or what happens around them. -/
inductive Move where
  | ping | pong | preempt
  | dispatch (p : Fin 8)
  | other (k : Kernel)

section

variable (m : Fin 32) (len : Nat) (A B : Fin 8) (xs ys : List (List UInt8))

def pingOp (i : Nat) : ChanOp :=
  if i < xs.length then .send (xs.getD i []) else .receive

def pongOp (i : Nat) : ChanOp :=
  if i < xs.length then .receive else .send (ys.getD (i - xs.length) [])

def move (s : Exchange) : Move → Exchange
  | .ping =>
    match attempt m len s.k A (pingOp xs s.a) with
    | (true, got, k) => { s with k := k, a := s.a + 1, gotA := s.gotA ++ got }
    | (false, _, k) => { s with k := k, cpu := none }
  | .pong =>
    match attempt m len s.k B (pongOp xs ys s.b) with
    | (true, got, k) => { s with k := k, b := s.b + 1, gotB := s.gotB ++ got }
    | (false, _, k) => { s with k := k, cpu := none }
  | .preempt => { s with cpu := none }
  | .dispatch p => { s with cpu := some p }
  | .other k => { s with k := k }

/-- A party moves while it is on the processor and has calls left; nobody else
touches the channel or the states of the two. -/
def moveFits (s : Exchange) : Move → Prop
  | .ping => s.cpu = some A ∧ s.a < xs.length + ys.length
  | .pong => s.cpu = some B ∧ s.b < xs.length + ys.length
  | .preempt => True
  | .dispatch p => s.cpu = none ∧ (s.k.pcb p).pst = .executing
  | .other k => k.mq m = s.k.mq m ∧ ∀ p, p = A ∨ p = B →
      (k.pcb p).pst = (s.k.pcb p).pst ∧ (k.pcb p).pid = (s.k.pcb p).pid

/-- The two parties are processes of the kernel, and messages fit. -/
structure Seated (k : Kernel) : Prop where
  pidA : (k.pcb A).pid = A.val
  pidB : (k.pcb B).pid = B.val
  liveA : Live k A
  liveB : Live k B

structure Forth (s : Exchange) : Prop where
  early : s.b < xs.length
  num : s.a = s.b + (s.k.mq m).msgQnum
  sent : s.a ≤ xs.length
  one : (s.k.mq m).msgQnum ≤ 1
  full : (s.k.mq m).msgQnum ≠ 0 → (s.k.mq m).msgLspid = A.val ∧
    (List.range len).map (byte (s.k.mq m).msgQbuf) = xs.getD s.b []
  waitA : Waiting s.k A → (s.k.mq m).msgQnum ≠ 0
  waitB : Waiting s.k B → (s.k.mq m).msgQnum = 0 ∧ (s.k.mq m).msgQrec = 1 ∧
    (s.k.mq m).msgLrpid = B.val
  gotA : s.gotA = []
  gotB : s.gotB = xs.take s.b

structure Back (s : Exchange) : Prop where
  late : xs.length ≤ s.a
  num : s.b = s.a + (s.k.mq m).msgQnum
  sent : s.b ≤ xs.length + ys.length
  one : (s.k.mq m).msgQnum ≤ 1
  full : (s.k.mq m).msgQnum ≠ 0 → (s.k.mq m).msgLspid = B.val ∧
    (List.range len).map (byte (s.k.mq m).msgQbuf) = ys.getD (s.a - xs.length) []
  waitA : Waiting s.k A → (s.k.mq m).msgQnum = 0 ∧ (s.k.mq m).msgQrec = 1 ∧
    (s.k.mq m).msgLrpid = A.val
  waitB : Waiting s.k B → (s.k.mq m).msgQnum ≠ 0
  gotA : s.gotA = ys.take (s.a - xs.length)
  gotB : s.gotB = xs

def Playing (s : Exchange) : Prop :=
  Seated A B s.k ∧ (Forth m len A B xs s ∨ Back m len A B xs ys s)

end

variable {m : Fin 32} {len : Nat} {A B : Fin 8} {xs ys : List (List UInt8)} {s : Exchange}

theorem Seated.attempt {k : Kernel} (h : Seated A B k) {p : Fin 8} (op : ChanOp)
    (hpid : (k.pcb p).pid = p.val) : Seated A B (attempt m len k p op).2.2 where
  pidA := (pid_attempt ..).trans h.pidA
  pidB := (pid_attempt ..).trans h.pidB
  liveA := live_attempt op hpid h.liveA
  liveB := live_attempt op hpid h.liveB

theorem move_ping (r : Bool × List (List UInt8) × Kernel)
    (h : attempt m len s.k A (pingOp xs s.a) = r) : move m len A B xs ys s .ping =
      if r.1 then { s with k := r.2.2, a := s.a + 1, gotA := s.gotA ++ r.2.1 }
      else { s with k := r.2.2, cpu := none } := by
  obtain ⟨ok, got, k⟩ := r
  cases ok <;> simp [move, h]

theorem move_pong (r : Bool × List (List UInt8) × Kernel)
    (h : attempt m len s.k B (pongOp xs ys s.b) = r) : move m len A B xs ys s .pong =
      if r.1 then { s with k := r.2.2, b := s.b + 1, gotB := s.gotB ++ r.2.1 }
      else { s with k := r.2.2, cpu := none } := by
  obtain ⟨ok, got, k⟩ := r
  cases ok <;> simp [move, h]

theorem take_append_getD {α : Type} (l : List α) {i : Nat} (d : α) (h : i < l.length) :
    l.take i ++ [l.getD i d] = l.take (i+1) := by
  rw [List.take_add_one, List.getD_eq_getElem?_getD, List.getElem?_eq_getElem h]
  rfl

theorem getD_mem {α : Type} {l : List α} {i : Nat} {d : α} (h : i < l.length) : l.getD i d ∈ l := by
  rw [List.getD_eq_getElem?_getD, List.getElem?_eq_getElem h]
  exact List.getElem_mem h

theorem sent_bytes {l : List (List UInt8)} {i : Nat} (b : Bytes 64) (hlen : len ≤ 64)
    (hl : ∀ x ∈ l, x.length = len) (hi : i < l.length) :
    (List.range len).map (byte (putBytes b 0 (l.getD i []))) = l.getD i [] := by
  have hx := hl _ (getD_mem (d := []) hi)
  have := map_byte_putBytes b (l.getD i []) (by omega)
  rwa [hx] at this

theorem forth_ping (hlen : len ≤ 64) (hxs : ∀ x ∈ xs, x.length = len) (hAB : A ≠ B)
    (hs : Seated A B s.k) (h : Forth m len A B xs s) :
    Forth m len A B xs (move m len A B xs ys s .ping) := by
  by_cases ha : s.a < xs.length
  · have hop : pingOp xs s.a = .send (xs.getD s.a []) := by simp [pingOp, ha]
    rw [move_ping _ rfl, hop]
    by_cases h0 : (s.k.mq m).msgQnum = 0
    · obtain ⟨hok, hgot, hn, hls, hbuf, hw⟩ :=
        attempt_send_empty len (xs.getD s.a []) hs.pidA h0
      generalize attempt m len s.k A (.send (xs.getD s.a [])) = r at *
      have hab : s.a = s.b := by simpa [h0] using h.num
      rw [hok, if_pos rfl]
      refine ⟨h.early, by simp [hn, hab], ha, by simp [hn], fun _ => ⟨hls, ?_⟩,
        fun _ => by simp [hn], fun hwB => ?_, by simp [hgot, h.gotA], h.gotB⟩
      · rw [hbuf, sent_bytes _ hlen hxs ha, hab]
      · obtain ⟨hor, hlr⟩ := hw B hwB
        have hwas := h.waitB (hor.resolve_left hAB.symm)
        exact absurd hwas.2.2 (hlr hwas.2.1)
    · obtain ⟨hok, hm, hw⟩ :=
        attempt_send_full len (xs.getD s.a []) hs.pidA h0
      generalize attempt m len s.k A (.send (xs.getD s.a [])) = r at *
      rw [hok, if_neg (by decide)]
      refine ⟨h.early, by simpa [hm] using h.num, h.sent, by simpa [hm] using h.one,
        fun _ => ⟨by simp [hm], by simpa [hm] using (h.full h0).2⟩, fun _ => by simpa [hm] using h0,
        fun hwB => ?_, h.gotA, h.gotB⟩
      exact absurd (h.waitB ((hw B hwB).resolve_left hAB.symm)).1 h0
  · -- `A` is ahead of the role reversal: it is refused its own message
    have hop : pingOp xs s.a = .receive := by simp [pingOp, ha]
    have h0 : (s.k.mq m).msgQnum ≠ 0 := by
      have := h.num
      have := h.early
      omega
    obtain ⟨hok, hm, hw⟩ :=
      attempt_receive_fail len hs.pidA (.inr (h.full h0).1)
    rw [move_ping _ rfl, hop, hok, if_neg (by decide)]
    refine ⟨h.early, by simpa [hm] using h.num, h.sent, by simpa [hm] using h.one,
      fun _ => by simpa [hm] using h.full h0, fun _ => by simpa [hm] using h0, fun hwB => ?_,
      h.gotA, h.gotB⟩
    exact absurd (h.waitB ((hw B hwB).resolve_left hAB.symm)).1 h0

theorem forth_pong (hAB : A ≠ B) (hs : Seated A B s.k) (h : Forth m len A B xs s) :
    Forth m len A B xs (move m len A B xs ys s .pong) ∨
      Back m len A B xs ys (move m len A B xs ys s .pong) := by
  have hop : pongOp xs ys s.b = .receive := by simp [pongOp, h.early]
  rw [move_pong _ rfl, hop]
  by_cases h0 : (s.k.mq m).msgQnum = 0
  · obtain ⟨hok, hm, hw⟩ := attempt_receive_fail len hs.pidB (.inl h0)
    rw [hok, if_neg (by decide)]
    refine .inl ⟨h.early, by simpa [hm] using h.num, h.sent, by simpa [hm] using h.one,
      fun hn => absurd (by simpa [hm] using h0) hn, fun hwA => ?_, fun _ => by simp [hm, h0],
      h.gotA, h.gotB⟩
    exact absurd h0 (h.waitA ((hw A hwA).resolve_left hAB))
  · have h1 : (s.k.mq m).msgQnum = 1 := by
      have := h.one
      omega
    obtain ⟨hls, hbuf⟩ := h.full h0
    obtain ⟨hok, hgot, hn, hw⟩ := attempt_receive_take len hs.pidB h0
      (by rw [hls]; exact fun he => hAB (Fin.ext (by omega)))
    have hz : ((attempt m len s.k B .receive).2.2.mq m).msgQnum = 0 := by omega
    have hnA : ¬Waiting (attempt m len s.k B .receive).2.2 A := fun hwA => (hw A hwA).2 hls
    have hnB : ¬Waiting (attempt m len s.k B .receive).2.2 B := fun hwB =>
      h0 (h.waitB (hw B hwB).1).1
    have hgotB : s.gotB ++ [(List.range len).map (byte (s.k.mq m).msgQbuf)] = xs.take (s.b + 1) := by
      rw [hbuf, h.gotB, take_append_getD xs [] h.early]
    have hnum := h.num
    have hsent := h.sent
    rw [hok, if_pos rfl]
    by_cases hlast : s.b + 1 < xs.length
    · exact .inl ⟨hlast, by dsimp only; omega, hsent, by dsimp only; omega,
        fun hn0 => absurd hz hn0, fun hwA => absurd hwA hnA, fun hwB => absurd hwB hnB, h.gotA,
        by rw [hgot]; exact hgotB⟩
    · -- the last message of `A`: from here on `B` is the sender
      have hearly := h.early
      refine .inr ⟨by dsimp only; omega, by dsimp only; omega, by dsimp only; omega,
        by dsimp only; omega, fun hn0 => absurd hz hn0, fun hwA => absurd hwA hnA,
        fun hwB => absurd hwB hnB, ?_, ?_⟩
      · dsimp only
        rw [h.gotA, show s.a - xs.length = 0 by omega, List.take_zero]
      · rw [hgot, hgotB, List.take_of_length_le (by omega)]

theorem back_ping (hAB : A ≠ B) (hs : Seated A B s.k) (h : Back m len A B xs ys s)
    (ha : s.a < xs.length + ys.length) :
    Back m len A B xs ys (move m len A B xs ys s .ping) := by
  have hlate := h.late
  have hop : pingOp xs s.a = .receive := by simp [pingOp, Nat.not_lt.mpr hlate]
  rw [move_ping _ rfl, hop]
  by_cases h0 : (s.k.mq m).msgQnum = 0
  · obtain ⟨hok, hm, hw⟩ := attempt_receive_fail len hs.pidA (.inl h0)
    rw [hok, if_neg (by decide)]
    refine ⟨hlate, by simpa [hm] using h.num, h.sent, by simpa [hm] using h.one,
      fun hn => absurd (by simpa [hm] using h0) hn, fun _ => by simp [hm, h0], fun hwB => ?_,
      h.gotA, h.gotB⟩
    exact absurd h0 (h.waitB ((hw B hwB).resolve_left hAB.symm))
  · obtain ⟨hls, hbuf⟩ := h.full h0
    obtain ⟨hok, hgot, hn, hw⟩ := attempt_receive_take len hs.pidA h0
      (by rw [hls]; exact fun he => hAB (Fin.ext (by omega)))
    have hone := h.one
    have hz : ((attempt m len s.k A .receive).2.2.mq m).msgQnum = 0 := by omega
    have hnum := h.num
    rw [hok, if_pos rfl]
    refine ⟨by dsimp only; omega, by dsimp only; omega, h.sent, by dsimp only; omega,
      fun hn0 => absurd hz hn0, fun hwA => absurd (h.waitA (hw A hwA).1).1 h0,
      fun hwB => absurd hls (hw B hwB).2, ?_, h.gotB⟩
    dsimp only
    rw [hgot, hbuf, h.gotA, take_append_getD ys [] (by omega)]
    congr 1
    omega

theorem back_pong (hlen : len ≤ 64) (hys : ∀ y ∈ ys, y.length = len) (hAB : A ≠ B)
    (hs : Seated A B s.k) (h : Back m len A B xs ys s) (hb : s.b < xs.length + ys.length) :
    Back m len A B xs ys (move m len A B xs ys s .pong) := by
  have hlate := h.late
  have hnum := h.num
  have hop : pongOp xs ys s.b = .send (ys.getD (s.b - xs.length) []) := by
    simp [pongOp, show ¬s.b < xs.length by omega]
  rw [move_pong _ rfl, hop]
  by_cases h0 : (s.k.mq m).msgQnum = 0
  · obtain ⟨hok, hgot, hn, hls, hbuf, hw⟩ :=
      attempt_send_empty len (ys.getD (s.b - xs.length) []) hs.pidB h0
    generalize attempt m len s.k B (.send (ys.getD (s.b - xs.length) [])) = r at *
    have hab : s.b = s.a := by simpa [h0] using hnum
    rw [hok, if_pos rfl]
    refine ⟨hlate, by dsimp only; omega, by dsimp only; omega, by simp [hn], fun _ => ⟨hls, ?_⟩,
      fun hwA => ?_, fun _ => by simp [hn], h.gotA, by simp [hgot, h.gotB]⟩
    · rw [hbuf, sent_bytes _ hlen hys (by omega), hab]
    · obtain ⟨hor, hlr⟩ := hw A hwA
      have hwas := h.waitA (hor.resolve_left hAB)
      exact absurd hwas.2.2 (hlr hwas.2.1)
  · obtain ⟨hok, hm, hw⟩ :=
      attempt_send_full len (ys.getD (s.b - xs.length) []) hs.pidB h0
    generalize attempt m len s.k B (.send (ys.getD (s.b - xs.length) [])) = r at *
    rw [hok, if_neg (by decide)]
    refine ⟨hlate, by simpa [hm] using hnum, h.sent, by simpa [hm] using h.one,
      fun _ => ⟨by simp [hm], by simpa [hm] using (h.full h0).2⟩, fun hwA => ?_,
      fun _ => by simpa [hm] using h0, h.gotA, h.gotB⟩
    exact absurd (h.waitA ((hw A hwA).resolve_left hAB)).1 h0

theorem Playing.of_same {s' : Exchange} (h : Playing m len A B xs ys s)
    (hm : s'.k.mq m = s.k.mq m) (hk : ∀ p, p = A ∨ p = B →
      (s'.k.pcb p).pst = (s.k.pcb p).pst ∧ (s'.k.pcb p).pid = (s.k.pcb p).pid)
    (ha : s'.a = s.a) (hb : s'.b = s.b) (hgA : s'.gotA = s.gotA) (hgB : s'.gotB = s.gotB) :
    Playing m len A B xs ys s' := by
  obtain ⟨hA, hpA⟩ := hk A (.inl rfl)
  obtain ⟨hB, hpB⟩ := hk B (.inr rfl)
  have hwA : Waiting s'.k A ↔ Waiting s.k A := by rw [Waiting, hA, Waiting]
  have hwB : Waiting s'.k B ↔ Waiting s.k B := by rw [Waiting, hB, Waiting]
  refine ⟨⟨hpA.trans h.1.pidA, hpB.trans h.1.pidB, ?_, ?_⟩, h.2.imp (fun hf => ?_) fun hf => ?_⟩
  · unfold Live
    rw [hA, hwA]
    exact h.1.liveA
  · unfold Live
    rw [hB, hwB]
    exact h.1.liveB
  · constructor <;> simp only [hm, ha, hb, hgA, hgB, hwA, hwB]
    · exact hf.early
    · exact hf.num
    · exact hf.sent
    · exact hf.one
    · exact hf.full
    · exact hf.waitA
    · exact hf.waitB
    · exact hf.gotA
    · exact hf.gotB
  · constructor <;> simp only [hm, ha, hb, hgA, hgB, hwA, hwB]
    · exact hf.late
    · exact hf.num
    · exact hf.sent
    · exact hf.one
    · exact hf.full
    · exact hf.waitA
    · exact hf.waitB
    · exact hf.gotA
    · exact hf.gotB

theorem seated_move (hs : Seated A B s.k) :
    Seated A B (move m len A B xs ys s .ping).k ∧ Seated A B (move m len A B xs ys s .pong).k := by
  rw [move_ping _ rfl, move_pong _ rfl]
  constructor
  · split
    · exact hs.attempt _ hs.pidA
    · exact hs.attempt _ hs.pidA
  · split
    · exact hs.attempt _ hs.pidB
    · exact hs.attempt _ hs.pidB

theorem playing_step (hlen : len ≤ 64) (hxs : ∀ x ∈ xs, x.length = len)
    (hys : ∀ y ∈ ys, y.length = len) (hAB : A ≠ B) (s : Exchange) (c : Move)
    (h : Playing m len A B xs ys s) (hc : moveFits m A B xs ys s c) :
    Playing m len A B xs ys (move m len A B xs ys s c) := by
  cases c with
  | ping =>
    refine ⟨(seated_move h.1).1, ?_⟩
    rcases h.2 with hf | hf
    · exact .inl (forth_ping hlen hxs hAB h.1 hf)
    · exact .inr (back_ping hAB h.1 hf hc.2)
  | pong =>
    refine ⟨(seated_move h.1).2, ?_⟩
    rcases h.2 with hf | hf
    · exact forth_pong hAB h.1 hf
    · exact .inr (back_pong hlen hys hAB h.1 hf hc.2)
  | preempt => exact h.of_same rfl (fun _ _ => ⟨rfl, rfl⟩) rfl rfl rfl rfl
  | dispatch p => exact h.of_same rfl (fun _ _ => ⟨rfl, rfl⟩) rfl rfl rfl rfl
  | other k => exact h.of_same hc.1 hc.2 rfl rfl rfl rfl

theorem Playing.can_move (h : Playing m len A B xs ys s)
    (hleft : ¬(s.a = xs.length + ys.length ∧ s.b = xs.length + ys.length)) :
    (s.a < xs.length + ys.length ∧ (s.k.pcb A).pst = .executing) ∨
      (s.b < xs.length + ys.length ∧ (s.k.pcb B).pst = .executing) := by
  obtain ⟨hs, hf | hf⟩ := h
  · have hnum := hf.num
    have hearly := hf.early
    rcases hs.liveB with hB | hB
    · exact .inr ⟨by omega, hB⟩
    · -- `B` waits for a message, so `A` has one to send and does not wait
      have h0 := (hf.waitB hB).1
      exact .inl ⟨by omega, hs.liveA.resolve_right fun hA => hf.waitA hA h0⟩
  · have hnum := hf.num
    have hsent := hf.sent
    rcases hs.liveA with hA | hA
    · exact .inl ⟨by omega, hA⟩
    · have h0 := (hf.waitA hA).1
      exact .inr ⟨by omega, hs.liveB.resolve_right fun hB => hf.waitB hB h0⟩

theorem Playing.received (h : Playing m len A B xs ys s) :
    s.gotB = xs.take s.b ∧ s.gotA = ys.take (s.a - xs.length) := by
  rcases h.2 with hf | hf
  · have := hf.sent
    exact ⟨hf.gotB, by rw [hf.gotA, show s.a - xs.length = 0 by omega, List.take_zero]⟩
  · have := hf.late
    have := hf.num
    exact ⟨by rw [hf.gotB, List.take_of_length_le (by omega)], hf.gotA⟩

def seats (k : Kernel) (cpu : Option (Fin 8)) : Exchange := ⟨k, cpu, 0, 0, [], []⟩

theorem playing_seats {k₀ k : Kernel} {name : Int} (cpu : Option (Fin 8))
    (hnew : ∀ i, (k₀.mq i).msgQname ≠ name) (hopen : mqOpen k₀ name = ((m.val : Int), k))
    (hA : (k₀.pcb A).pid = A.val ∧ (k₀.pcb A).pst = .executing)
    (hB : (k₀.pcb B).pid = B.val ∧ (k₀.pcb B).pst = .executing) :
    Playing m len A B xs ys (seats k cpu) := by
  obtain ⟨hq, -, hk⟩ := mqOpen_fresh hnew hopen
  have hwA : ¬Waiting k A := by simp [Waiting, hk, hA.2]
  have hwB : ¬Waiting k B := by simp [Waiting, hk, hB.2]
  refine ⟨⟨?_, ?_, .inl ?_, .inl ?_⟩, ?_⟩
  · simpa [seats, hk] using hA.1
  · simpa [seats, hk] using hB.1
  · simpa [seats, hk] using hA.2
  · simpa [seats, hk] using hB.2
  · rcases Nat.eq_zero_or_pos xs.length with h0 | hpos
    · have hnil : xs = [] := List.eq_nil_of_length_eq_zero h0
      right
      constructor <;> simp [seats, hq, hnil, hwA, hwB]
    · left
      constructor <;> simp [seats, hq, hwA, hwB]
      exact hpos

/-! Progress. A call that fails takes the processor from its caller, and the two
are never both blocked. -/

def Move.made : Move → Nat
  | .ping | .pong => 1
  | _ => 0

/-- One of the two is blocked and has lost the processor. -/
def Off (A B : Fin 8) (k : Kernel) (cpu : Option (Fin 8)) : Prop := ∃ p, (p = A ∨ p = B) ∧ Waiting k p ∧ cpu ≠ some p

instance (A B : Fin 8) (k : Kernel) (cpu : Option (Fin 8)) : Decidable (Off A B k cpu) :=
  inferInstanceAs (Decidable (∃ _, _))

/-- Rises with every call: a call that gets through counts for two, and one that
fails has its caller blocked, while the other is not. -/
def rank (A B : Fin 8) (through : Nat) (k : Kernel) (cpu : Option (Fin 8)) : Nat :=
  2 * through + if Off A B k cpu then 1 else 0

theorem rank_le (A B : Fin 8) (through : Nat) (k : Kernel) (cpu : Option (Fin 8)) :
    rank A B through k cpu ≤ 2 * through + 1 := by
  unfold rank
  split <;> omega

section

variable {k k' : Kernel} {cpu cpu' : Option (Fin 8)} {p q : Fin 8} {done done' : Nat}

theorem Off.preempt (h : Off A B k cpu) : Off A B k none := by
  obtain ⟨p, hp, hw, -⟩ := h
  exact ⟨p, hp, hw, (Option.some_ne_none p).symm⟩

theorem Off.dispatch (hq : (k.pcb q).pst = .executing) (h : Off A B k cpu) : Off A B k (some q) := by
  obtain ⟨p, hp, hw, -⟩ := h
  refine ⟨p, hp, hw, fun he => ?_⟩
  obtain rfl : q = p := Option.some.inj he
  exact absurd (hq.symm.trans hw) (by decide)

theorem Off.same (hpst : ∀ p, p = A ∨ p = B → (k'.pcb p).pst = (k.pcb p).pst) (h : Off A B k cpu) : Off A B k' cpu := by
  obtain ⟨p, hp, hw, hcpu⟩ := h
  exact ⟨p, hp, (hpst p hp).trans hw, hcpu⟩

theorem rank_of_off (hoff : Off A B k cpu → Off A B k' cpu') : rank A B done k cpu ≤ rank A B done k' cpu' := by
  unfold rank
  by_cases hs : Off A B k cpu
  · rw [if_pos hs, if_pos (hoff hs)]
  · rw [if_neg hs]
    omega

theorem rank_call (ok : Bool) (hp : p = A ∨ p = B) (hpq : ∀ r, r = A ∨ r = B → r = p ∨ r = q)
    (hcpu : cpu = some p) (hcpu' : cpu' = if ok then cpu else none) (hthrough : done' = done + if ok then 1 else 0)
    (hblocked : ok = false → Waiting k' p ∧ ∀ q, Waiting k q → Waiting k' q)
    (hboth : ¬(Waiting k' p ∧ Waiting k' q)) : rank A B done k cpu + 1 ≤ rank A B done' k' cpu' := by
  unfold rank
  cases ok with
  | true =>
    rw [if_pos rfl] at hthrough
    split <;> split <;> omega
  | false =>
    rw [if_neg Bool.false_ne_true] at hthrough hcpu'
    obtain ⟨hwp, hkept⟩ := hblocked rfl
    have hoff' : Off A B k' cpu' := ⟨p, hp, hwp, by rw [hcpu']; exact (Option.some_ne_none p).symm⟩
    have hoff : ¬Off A B k cpu := by
      rintro ⟨r, hr, hwr, hne⟩
      rcases hpq r hr with rfl | rfl
      · exact hne hcpu
      · exact hboth ⟨hwp, hkept r hwr⟩
    rw [if_pos hoff', if_neg hoff]
    omega

theorem attempt_blocks (m : Fin 32) (len : Nat) {p : Fin 8} (op : ChanOp) (hpid : (k.pcb p).pid = p.val)
    (h : (attempt m len k p op).1 = false) : Waiting (attempt m len k p op).2.2 p ∧
      ∀ q, Waiting k q → Waiting (attempt m len k p op).2.2 q := by
  have hself : (enter k p).self.pid = p.val := hpid
  cases op with
  | send msg =>
    have hret := mqSend_ret (enter k p) m msg
    have hfull : (k.mq m).msgQnum ≠ 0 := by
      intro h0
      rw [enter_mq, if_pos h0] at hret
      simp [attempt, hret] at h
    have hwait := fun q => (@mqSend_waiting (enter k p) m msg p q hself).mpr
    exact ⟨hwait p ⟨.inl rfl, fun h0 => absurd h0 hfull⟩, fun q hq => hwait q ⟨.inr hq, fun h0 => absurd h0 hfull⟩⟩
  | receive =>
    have ht : ¬takes (enter k p) m := by
      rw [← mqReceive_ret_eq_neg_one _ _ len]
      simpa [attempt] using h
    have hwait := fun q => (@mqReceive_waiting (enter k p) m len p q hself).mpr
    simp only [if_neg ht] at hwait
    exact ⟨hwait p (.inl rfl), fun q hq => hwait q (.inr hq)⟩

end

theorem Playing.not_both (h : Playing m len A B xs ys s) : ¬(Waiting s.k A ∧ Waiting s.k B) := by
  rintro ⟨hA, hB⟩
  rcases h.2 with hf | hf
  · exact hf.waitA hA (hf.waitB hB).1
  · exact hf.waitB hB (hf.waitA hA).1

theorem playing_rank (hlen : len ≤ 64) (hxs : ∀ x ∈ xs, x.length = len)
    (hys : ∀ y ∈ ys, y.length = len) (hAB : A ≠ B) (s : Exchange) (c : Move)
    (h : Playing m len A B xs ys s) (hc : moveFits m A B xs ys s c) :
    rank A B (s.a + s.b) s.k s.cpu + c.made ≤
      rank A B ((move m len A B xs ys s c).a + (move m len A B xs ys s c).b) (move m len A B xs ys s c).k
        (move m len A B xs ys s c).cpu := by
  have hnext := (playing_step hlen hxs hys hAB s c h hc).not_both
  cases c with
  | ping =>
    rw [move_ping _ rfl] at hnext ⊢
    have hblocked := attempt_blocks m len (pingOp xs s.a) h.1.pidA
    generalize attempt m len s.k A (pingOp xs s.a) = r at hnext hblocked ⊢
    obtain ⟨ok, got, k⟩ := r
    refine rank_call ok (.inl rfl) (fun _ hr => hr) hc.1 ?_ ?_ (fun he => ?_) ?_
    · cases ok <;> rfl
    · cases ok
      · rfl
      · exact Nat.add_right_comm s.a 1 s.b
    · subst he
      exact hblocked rfl
    · cases ok <;> exact hnext
  | pong =>
    rw [move_pong _ rfl] at hnext ⊢
    have hblocked := attempt_blocks m len (pongOp xs ys s.b) h.1.pidB
    generalize attempt m len s.k B (pongOp xs ys s.b) = r at hnext hblocked ⊢
    obtain ⟨ok, got, k⟩ := r
    refine rank_call ok (.inr rfl) (fun _ hr => hr.symm) hc.1 ?_ ?_ (fun he => ?_) ?_
    · cases ok <;> rfl
    · cases ok <;> rfl
    · subst he
      exact hblocked rfl
    · cases ok <;> exact fun hboth => hnext hboth.symm
  | preempt => exact rank_of_off Off.preempt
  | dispatch q => exact rank_of_off (Off.dispatch hc.2)
  | other k' => exact rank_of_off (Off.same fun p hp => (hc.2 p hp).1)

theorem Playing.within (h : Playing m len A B xs ys s) :
    s.a ≤ xs.length + ys.length ∧ s.b ≤ xs.length + ys.length := by
  rcases h.2 with hf | hf
  · have := hf.sent
    have := hf.early
    exact ⟨by omega, by omega⟩
  · have := hf.num
    have := hf.sent
    exact ⟨by omega, by omega⟩

/-- **The exchange neither deadlocks nor loses a message.** In every state
reached by any interleaving and any preemption: unless both programs are done,
one that is not has its process executing; of the calls they have made, at most
one more than half have failed, so that both are done after four calls for each
message; each has received, in order, the first messages of the other; and once
both are done it has received all. -/
theorem exchange_completes (k₀ k : Kernel) (name : Int) (m : Fin 32) (len : Nat) (A B : Fin 8)
    (xs ys : List (List UInt8)) (cpu : Option (Fin 8)) (hAB : A ≠ B) (hlen : len ≤ 64)
    (hxs : ∀ x ∈ xs, x.length = len) (hys : ∀ y ∈ ys, y.length = len)
    (hnew : ∀ i, (k₀.mq i).msgQname ≠ name) (hopen : mqOpen k₀ name = ((m.val : Int), k))
    (hA : (k₀.pcb A).pid = A.val ∧ (k₀.pcb A).pst = .executing)
    (hB : (k₀.pcb B).pid = B.val ∧ (k₀.pcb B).pst = .executing) (moves : List Move)
    (hc : Along (move m len A B xs ys) (moveFits m A B xs ys) (seats k cpu) moves) :
    let s := run (move m len A B xs ys) (seats k cpu) moves
    let total := xs.length + ys.length
    (¬(s.a = total ∧ s.b = total) →
      (s.a < total ∧ (s.k.pcb A).pst = .executing) ∨
        (s.b < total ∧ (s.k.pcb B).pst = .executing)) ∧
    s.gotB = xs.take s.b ∧ s.gotA = ys.take (s.a - xs.length) ∧
    (s.a = total ∧ s.b = total → s.gotB = xs ∧ s.gotA = ys) ∧
    (moves.map Move.made).sum ≤ 2 * (s.a + s.b) + 1 ∧
    (4 * total ≤ (moves.map Move.made).sum → s.a = total ∧ s.b = total) := by
  intro s total
  have h0 : Playing m len A B xs ys (seats k cpu) := playing_seats cpu hnew hopen hA hB
  have h : Playing m len A B xs ys s := invariant (playing_step hlen hxs hys hAB) h0 hc
  have hrank := potential (playing_step hlen hxs hys hAB) (playing_rank hlen hxs hys hAB) h0 hc
  have hmade : (moves.map Move.made).sum ≤ 2 * (s.a + s.b) + 1 :=
    le_trans (Nat.le_add_left _ _) (hrank.trans (rank_le A B (s.a + s.b) s.k s.cpu))
  obtain ⟨hgB, hgA⟩ := h.received
  obtain ⟨hltA, hltB⟩ := h.within
  refine ⟨h.can_move, hgB, hgA, ?_, hmade, fun hmany => ⟨by omega, by omega⟩⟩
  rintro ⟨ha, hb⟩
  rw [hgB, hgA, List.take_of_length_le (by omega), List.take_of_length_le (by omega)]
  exact ⟨rfl, rfl⟩

/-- One message each way, the first taken after `B` was blocked once. -/
theorem exchange_one_each :
    (run (move 0 1 1 2 [[65]] [[66]]) (seats (mqOpen fourProcs 100).2 none)
      [.dispatch 2, .pong, .dispatch 1, .ping, .preempt, .dispatch 2, .pong, .pong, .preempt,
        .dispatch 1, .ping]).gotB = [[65]] := by
  have h := exchange_completes fourProcs (mqOpen fourProcs 100).2 100 0 1 1 2 [[65]] [[66]] none
    (by decide) (by decide) (by simp) (by simp) (fun i => by rw [fourProcs_mq]; decide)
    (Prod.ext (by decide) rfl) ⟨rfl, rfl⟩ ⟨rfl, rfl⟩
    [.dispatch 2, .pong, .dispatch 1, .ping, .preempt, .dispatch 2, .pong, .pong, .preempt,
      .dispatch 1, .ping]
    ⟨⟨rfl, rfl⟩, ⟨rfl, by decide⟩, ⟨rfl, rfl⟩, ⟨rfl, by decide⟩, trivial, ⟨rfl, rfl⟩,
      ⟨rfl, by decide⟩, ⟨rfl, by decide⟩, trivial, ⟨rfl, rfl⟩, ⟨rfl, by decide⟩, trivial⟩
  exact h.2.1

end ArmKernel.Core
