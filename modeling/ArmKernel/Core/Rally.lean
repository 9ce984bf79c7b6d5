import ArmKernel.Core.ChannelNames
import ArmKernel.Core.PingPong

/-! The programs `ping.c` and `pong.c` as a whole. Round after round both open
the channel of the round, exchange their messages over it, and `ping` unlinks
it. Neither waits for the other to open: `pong` can be in the next round, on a
second channel, while `ping` has still to take the last message of this one. -/
namespace ArmKernel.Core

open Lib Lib.Bytes Lib.Run Fs

/-- Where a program is: the round, `m` once `mqinit` has returned, the messages
sent and received in this round, and all that were ever received. -/
structure Player where
  round : Nat
  m : Option Int
  done : Nat
  got : List (List UInt8)

structure Rally where
  k : Kernel
  cpu : Option (Fin 8)
  ping : Player
  pong : Player

def channelOf (m : Int) : Option (Fin 32) :=
  if h : 0 ≤ m ∧ m.toNat < 32 then some ⟨m.toNat, h.2⟩ else none

/-- One call of `msgsend` or `msgreceive`, and whether it need not be made again.
A descriptor outside of the array is never passed, as is shown below. -/
def retry (len : Nat) (p : Fin 8) (op : ChanOp) (k : Kernel) (x : Player) (m : Int) : Bool × Player × Kernel :=
  match channelOf m with
  | some i =>
    match attempt i len k p op with
    | (true, got, k) => (true, { x with done := x.done + 1, got := x.got ++ got }, k)
    | (false, _, k) => (false, x, k)
  | none => (true, x, k)

def mqinit (k : Kernel) (p : Fin 8) (x : Player) (name : Int) : Bool × Player × Kernel :=
  match mqOpen (enter k p) name with
  | (m, k) => (true, { x with m := some m }, k)

section

variable (base : Int) (len : Nat) (A B : Fin 8) (xs ys : List (List UInt8))

def pingCall (k : Kernel) (x : Player) : Bool × Player × Kernel :=
  match x.m with
  | none => mqinit k A x (base + x.round)
  | some m =>
    if x.done < xs.length + ys.length then retry len A (pingOp xs x.done) k x m
    else
      match mqUnlink (enter k A) m with
      | (_, k) => (true, { x with round := x.round + 1, m := none, done := 0 }, k)

/-- The next system call of `pong`, which does not unlink. -/
def pongCall (k : Kernel) (x : Player) : Bool × Player × Kernel :=
  match x.m with
  | none => mqinit k B x (base + x.round)
  | some m =>
    match retry len B (pongOp xs ys x.done) k x m with
    | (ok, x, k) =>
      if x.done < xs.length + ys.length then (ok, x, k)
      else (ok, { x with round := x.round + 1, m := none, done := 0 }, k)

def rally (s : Rally) : Move → Rally
  | .ping =>
    match pingCall base len A xs ys s.k s.ping with
    | (ok, x, k) => { s with k := k, ping := x, cpu := if ok then s.cpu else none }
  | .pong =>
    match pongCall base len B xs ys s.k s.pong with
    | (ok, y, k) => { s with k := k, pong := y, cpu := if ok then s.cpu else none }
  | .preempt => { s with cpu := none }
  | .dispatch p => { s with cpu := some p }
  | .other k => { s with k := k }

/-- A channel that is free, or has one of the names from `base` on. -/
def Spare (k : Kernel) (i : Fin 32) : Prop := names k i = 0 ∨ base ≤ names k i

def TwoSpare (k : Kernel) : Prop := ∃ i j, i ≠ j ∧ Spare base k i ∧ Spare base k j

/-- The rounds are counted by an `int`. The other processes leave the two their
names, two channels, and their states. -/
def rallyFits (s : Rally) : Move → Prop
  | .ping => s.cpu = some A ∧ base + s.ping.round < 2 ^ 31
  | .pong => s.cpu = some B ∧ base + s.pong.round < 2 ^ 31
  | .preempt => True
  | .dispatch p => s.cpu = none ∧ (s.k.pcb p).pst = .executing
  | .other k => (∀ i, base ≤ names s.k i ∨ base ≤ names k i → k.mq i = s.k.mq i) ∧ TwoSpare base k ∧
      ∀ p, p = A ∨ p = B → (k.pcb p).pst = (s.k.pcb p).pst ∧ (k.pcb p).pid = (s.k.pcb p).pid

/-! Messages on their way from one to the other. -/

structure Flow (m : Fin 32) (S R : Fin 8) (msgs : List (List UInt8)) (sent taken : Nat) (k : Kernel) : Prop where
  num : sent = taken + (k.mq m).msgQnum
  one : (k.mq m).msgQnum ≤ 1
  full : (k.mq m).msgQnum ≠ 0 → (k.mq m).msgLspid = S.val ∧
    (List.range len).map (byte (k.mq m).msgQbuf) = msgs.getD taken []
  waitS : Waiting k S → (k.mq m).msgQnum ≠ 0
  waitR : Waiting k R → (k.mq m).msgQnum = 0 ∧ (k.mq m).msgQrec = 1 ∧ (k.mq m).msgLrpid = R.val

end

section

variable {len : Nat} {m : Fin 32} {S R : Fin 8} {msgs : List (List UInt8)} {sent taken : Nat} {k : Kernel}

theorem Flow.fresh (hnum : (k.mq m).msgQnum = 0) (hS : ¬Waiting k S)
    (hR : Waiting k R → (k.mq m).msgQrec = 1 ∧ (k.mq m).msgLrpid = R.val) : Flow len m S R msgs 0 0 k where
  num := by omega
  one := by omega
  full h := absurd hnum h
  waitS h := absurd h hS
  waitR h := ⟨hnum, hR h⟩

theorem Flow.emptied {n : Nat} (hnum : (k.mq m).msgQnum = 0) (hS : ¬Waiting k S) (hR : ¬Waiting k R) :
    Flow len m S R msgs n n k where
  num := by omega
  one := by omega
  full h := absurd hnum h
  waitS h := absurd h hS
  waitR h := absurd h hR

theorem Flow.enter (h : Flow len m S R msgs sent taken k) (p : Fin 8) : Flow len m S R msgs sent taken (enter k p) :=
  ⟨h.num, h.one, h.full, h.waitS, h.waitR⟩

theorem Flow.of_same {k' : Kernel} (h : Flow len m S R msgs sent taken k) (hm : k'.mq m = k.mq m)
    (hS : Waiting k' S ↔ Waiting k S) (hR : Waiting k' R ↔ Waiting k R) : Flow len m S R msgs sent taken k' := by
  constructor <;> simp only [hm, hS, hR]
  · exact h.num
  · exact h.one
  · exact h.full
  · exact h.waitS
  · exact h.waitR

theorem Flow.send (h : Flow len m S R msgs sent taken k) (hlen : len ≤ 64) (hmsgs : ∀ x ∈ msgs, x.length = len)
    (hsent : sent < msgs.length) (hpid : (k.pcb S).pid = S.val) (hSR : S ≠ R) :
    let r := attempt m len k S (.send (msgs.getD sent []))
    (r.1 = true ∧ r.2.1 = [] ∧ Flow len m S R msgs (sent + 1) taken r.2.2) ∨
      (r.1 = false ∧ Flow len m S R msgs sent taken r.2.2) := by
  have hnum := h.num
  by_cases h0 : (k.mq m).msgQnum = 0
  · obtain ⟨hok, hgot, hn, hls, hbuf, hw⟩ := attempt_send_empty len (msgs.getD sent []) hpid h0
    refine .inl ⟨hok, hgot, by omega, by omega, fun _ => ⟨hls, ?_⟩, fun _ => by omega, fun hwR => ?_⟩
    · rw [hbuf, sent_bytes _ hlen hmsgs hsent, show sent = taken by omega]
    · obtain ⟨hor, hlr⟩ := hw R hwR
      have hwas := h.waitR (hor.resolve_left hSR.symm)
      exact absurd hwas.2.2 (hlr hwas.2.1)
  · obtain ⟨hok, hm, hw⟩ := attempt_send_full len (msgs.getD sent []) hpid h0
    refine .inr ⟨hok, by rw [hm]; exact h.num, by rw [hm]; exact h.one, fun _ => ?_, fun _ => by rw [hm]; exact h0,
      fun hwR => ?_⟩
    · rw [hm]
      exact ⟨rfl, (h.full h0).2⟩
    exact absurd (h.waitR ((hw R hwR).resolve_left hSR.symm)).1 h0

theorem Flow.receive (h : Flow len m S R msgs sent taken k) (hpid : (k.pcb R).pid = R.val) (hSR : S ≠ R) :
    let r := attempt m len k R .receive
    (r.1 = true ∧ r.2.1 = [msgs.getD taken []] ∧ sent = taken + 1 ∧ (r.2.2.mq m).msgQnum = 0 ∧
      ¬Waiting r.2.2 S ∧ ¬Waiting r.2.2 R) ∨ (r.1 = false ∧ Flow len m S R msgs sent taken r.2.2) := by
  have hnum := h.num
  have hone := h.one
  by_cases h0 : (k.mq m).msgQnum = 0
  · obtain ⟨hok, hm, hw⟩ := attempt_receive_fail len hpid (.inl h0)
    refine .inr ⟨hok, by simpa [hm] using h.num, by simpa [hm] using h.one,
      fun hn => absurd (by simpa [hm] using h0) hn, fun hwS => ?_, fun _ => by simp [hm, h0]⟩
    exact absurd h0 (h.waitS ((hw S hwS).resolve_left hSR))
  · obtain ⟨hls, hbuf⟩ := h.full h0
    obtain ⟨hok, hgot, hn, hw⟩ := attempt_receive_take len hpid h0
      (by rw [hls]; exact fun he => hSR (Fin.ext (by omega)))
    refine .inl ⟨hok, by rw [hgot, hbuf], by omega, by omega, fun hwS => (hw S hwS).2 hls, fun hwR => ?_⟩
    exact h0 (h.waitR (hw R hwR).1).1

theorem Flow.refuse (h : Flow len m S R msgs sent taken k) (hpid : (k.pcb S).pid = S.val) (hSR : S ≠ R)
    (hahead : taken < sent) : let r := attempt m len k S .receive
    r.1 = false ∧ Flow len m S R msgs sent taken r.2.2 := by
  have hnum := h.num
  have h0 : (k.mq m).msgQnum ≠ 0 := by omega
  obtain ⟨hok, hm, hw⟩ := attempt_receive_fail len hpid (.inr (h.full h0).1)
  refine ⟨hok, by simpa [hm] using h.num, by simpa [hm] using h.one, fun _ => by simpa [hm] using h.full h0,
    fun _ => by simpa [hm] using h0, fun hwR => ?_⟩
  exact absurd (h.waitR ((hw R hwR).resolve_left hSR.symm)).1 h0

end

/-! What a call of one of the two leaves alone. -/

section

variable {base : Int} {len : Nat} {A B p q : Fin 8} {k k' : Kernel} {m : Fin 32}

/-- The states of the two and the channels left to them are all that changes. -/
structure KeepsOthers (base : Int) (A B : Fin 8) (k k' : Kernel) : Prop where
  seated : Seated A B k'
  spare : ∀ i, Spare base k' i ↔ Spare base k i
  mq : ∀ i, ¬Spare base k i → k'.mq i = k.mq i
  pcb : ∀ q, q ≠ A → q ≠ B → k'.pcb q = k.pcb q

theorem KeepsOthers.roomy (h : KeepsOthers base A B k k') (hroom : TwoSpare base k) : TwoSpare base k' := by
  obtain ⟨i, j, hij, hi, hj⟩ := hroom
  exact ⟨i, j, hij, (h.spare i).mpr hi, (h.spare j).mpr hj⟩

theorem pcb_sigwait (k : Kernel) (hq : q ≠ p) : (kill k p.val .sigwait).pcb q = k.pcb q := by
  rw [kill_val]
  simp [signal, setPst, Kernel.setPcb, hq]

theorem pcb_sigcont (k : Kernel) {pid : Int} (hq : pid ≠ q.val) : (kill k pid .sigcont).pcb q = k.pcb q := by
  by_cases hp : 0 ≤ pid ∧ pid < 8
  · obtain ⟨p, rfl⟩ : ∃ p : Fin 8, pid = (p.val : Int) := ⟨⟨pid.toNat, by omega⟩, by simp; omega⟩
    have hqp : q ≠ p := fun he => hq (by rw [he])
    rw [kill_val, signal]
    split
    · simp [setPst, Kernel.setPcb, hqp]
    · rfl
  · rw [kill_sigcont_outside hp]

theorem names_attempt (m : Fin 32) (len : Nat) (k : Kernel) (p : Fin 8) (op : ChanOp) :
    names (attempt m len k p op).2.2 = names k := by
  cases op with
  | send msg => exact names_mqSend (enter k p) m msg
  | receive => exact names_mqReceive (enter k p) m len

theorem mq_attempt_ne {i : Fin 32} (hi : i ≠ m) (len : Nat) (k : Kernel) (p : Fin 8) (op : ChanOp) :
    (attempt m len k p op).2.2.mq i = k.mq i := by
  have hset : ∀ (k : Kernel) (x : Mqueue), (setMq k m x).mq i = k.mq i :=
    fun k x => Function.update_of_ne hi _ _
  cases op with
  | send msg =>
    simp only [attempt, mqSend]
    split
    · split
      · simp [hset]
      · simp [hset]
    · simp [hset]
  | receive =>
    by_cases ht : takes (enter k p) m
    · simp [attempt, mqReceive_take len ht, hset]
    · simp [attempt, mqReceive_wait len ht, hset]

theorem pcb_attempt (op : ChanOp) (hpid : (k.pcb p).pid = p.val) (hq : q ≠ p)
    (hlr : (k.mq m).msgQrec = 1 → (k.mq m).msgLrpid ≠ q.val)
    (hls : (k.mq m).msgQnum ≠ 0 → (k.mq m).msgLspid ≠ q.val) :
    (attempt m len k p op).2.2.pcb q = k.pcb q := by
  have hself : (enter k p).self.pid = p.val := hpid
  cases op with
  | send msg =>
    simp only [attempt, mqSend, self_setMq, hself, kill_mq, setMq_mq]
    split
    · split
      · next hrec => exact (pcb_sigcont _ (hlr hrec)).trans (pcb_sigwait _ hq)
      · exact pcb_sigwait _ hq
    · exact pcb_sigwait _ hq
  | receive =>
    by_cases ht : takes (enter k p) m
    · simp only [attempt, mqReceive_take len ht]
      exact pcb_sigcont _ (hls (Nat.pos_iff_ne_zero.mp ht.1))
    · simp only [attempt, mqReceive_wait len ht, hself]
      exact pcb_sigwait _ hq

structure Known (A B : Fin 8) (m : Fin 32) (k : Kernel) : Prop where
  receiver : (k.mq m).msgQrec = 1 → (k.mq m).msgLrpid = A.val ∨ (k.mq m).msgLrpid = B.val
  sender : (k.mq m).msgQnum ≠ 0 → (k.mq m).msgLspid = A.val ∨ (k.mq m).msgLspid = B.val

theorem Known.attempt (h : Known A B m k) (op : ChanOp) (hp : p = A ∨ p = B) (hpid : (k.pcb p).pid = p.val) :
    Known A B m (Core.attempt m len k p op).2.2 := by
  have hself : (enter k p).self.pid = p.val := hpid
  have hpAB : (p.val : Int) = A.val ∨ (p.val : Int) = B.val := by
    rcases hp with rfl | rfl
    · exact .inl rfl
    · exact .inr rfl
  cases op with
  | send msg =>
    have hm := mqSend_mq (enter k p) m msg
    simp only [enter_mq, hself] at hm
    by_cases h0 : (k.mq m).msgQnum = 0
    · rw [if_pos h0] at hm
      constructor
      · intro hrec
        simp only [Core.attempt, hm] at hrec ⊢
        by_cases hwas : (k.mq m).msgQrec = 1
        · exact h.receiver hwas
        · exact absurd ((if_neg hwas).symm.trans hrec) hwas
      · intro _
        simpa only [Core.attempt, hm] using hpAB
    · rw [if_neg h0] at hm
      constructor
      · simpa only [Core.attempt, hm] using h.receiver
      · intro _
        simpa only [Core.attempt, hm] using hpAB
  | receive =>
    have hm := mqReceive_mq (enter k p) m len
    simp only [enter_mq, hself] at hm
    split at hm
    · next ht =>
      constructor
      · intro _
        simpa only [Core.attempt, hm] using hpAB
      · intro _
        simpa only [Core.attempt, hm] using h.sender (Nat.pos_iff_ne_zero.mp ht.1)
    · constructor
      · intro _
        simpa only [Core.attempt, hm] using hpAB
      · intro h0
        simp only [Core.attempt, hm] at h0 ⊢
        exact h.sender h0

theorem Known.keeps (h : Known A B m k) (op : ChanOp) (hs : Seated A B k) (hspare : Spare base k m)
    (hp : p = A ∨ p = B) (hpid : (k.pcb p).pid = p.val) : KeepsOthers base A B k (Core.attempt m len k p op).2.2 where
  seated := hs.attempt op hpid
  spare i := by rw [Spare, Spare, names_attempt]
  mq i hi := mq_attempt_ne (fun he => hi (by rw [he]; exact hspare)) len k p op
  pcb q hA hB := by
    have hne : ∀ {x : Int}, x = A.val ∨ x = B.val → x ≠ q.val := by
      intro x hx he
      rcases hx with hx | hx
      · exact hA (Fin.ext (by omega))
      · exact hB (Fin.ext (by omega))
    refine pcb_attempt op hpid ?_ (fun hrec => hne (h.receiver hrec)) fun h0 => hne (h.sender h0)
    rcases hp with rfl | rfl
    · exact hA
    · exact hB

/-! Opening and unlinking. -/

theorem keeps_setMq (hs : Seated A B k) {x : Mqueue} (hm : Spare base k m)
    (hx : x.msgQname = 0 ∨ base ≤ x.msgQname) : KeepsOthers base A B k (setMq (enter k p) m x) where
  seated := ⟨hs.pidA, hs.pidB, hs.liveA, hs.liveB⟩
  spare i := by
    rw [Spare, names_setMq, Function.update_apply]
    split
    · next he => exact iff_of_true hx (he ▸ hm)
    · rfl
  mq i hi := Function.update_of_ne (fun he => hi (by rw [he]; exact hm)) _ _
  pcb _ _ _ := rfl

theorem keeps_enter (hs : Seated A B k) : KeepsOthers base A B k (enter k p) where
  seated := ⟨hs.pidA, hs.pidB, hs.liveA, hs.liveB⟩
  spare _ := Iff.rfl
  mq _ _ := rfl
  pcb _ _ _ := rfl

structure NewChannel (m : Fin 32) (name : Int) (k k' : Kernel) : Prop where
  table : names k' = Function.update (names k) m name
  empty : (k'.mq m).msgQnum = 0
  unasked : (k'.mq m).msgQrec ≠ 1
  others : ∀ i, i ≠ m → k'.mq i = k.mq i
  waiting : ∀ q, Waiting k' q ↔ Waiting k q

theorem mqinit_new {name : Int} (x : Player) (hs : Seated A B k) (hnew : ∀ i, names k i ≠ name)
    (hfree : ∃ i, names k i = 0) (hname : base ≤ name) : ∃ (m : Fin 32) (k' : Kernel),
      mqinit k p x name = (true, { x with m := some (m.val : Int) }, k') ∧ names k m = 0 ∧
        NewChannel m name k k' ∧ KeepsOthers base A B k k' := by
  obtain ⟨i, hi⟩ := hfree
  have hnone : (List.finRange 32).find? (fun i => ((enter k p).mq i).msgQname == name) = none := by
    rw [List.find?_eq_none]
    intro i _
    simpa [names] using hnew i
  cases hfind : (List.finRange 32).find? fun i => ((enter k p).mq i).msgQname == 0 with
  | none =>
    exact absurd hi (by simpa [names] using List.find?_eq_none.mp hfind i (List.mem_finRange i))
  | some m =>
    have hm : names k m = 0 := by simpa [names] using List.find?_some hfind
    let new : Mqueue := { k.mq m with msgQname := name, msgQnum := 0, msgQrec := 0, msgLspid := 0, msgLrpid := 0 }
    refine ⟨m, setMq (enter k p) m new, ?_, hm, ⟨names_setMq (enter k p) m new, ?_, ?_,
      fun j hj => Function.update_of_ne hj _ _, fun _ => Iff.rfl⟩, keeps_setMq hs (.inl hm) (.inr hname)⟩
    · rw [mqinit, mqOpen, hnone]
      dsimp only
      rw [hfind]
      rfl
    · rw [setMq_mq]
    · rw [setMq_mq]
      exact Nat.zero_ne_one

theorem mqinit_again {name : Int} (x : Player) (hm : names k m = name) (honly : ∀ i, names k i = name → i = m) :
    mqinit k p x name = (true, { x with m := some (m.val : Int) }, enter k p) := by
  have hfound : ∃ i, NameTable.slot 0 (names k) name = some i ∧ names k i = name := NameTable.slot_found hm
  obtain ⟨i, hslot, hi⟩ := hfound
  obtain ⟨hret, -, hstay⟩ := @mqOpen_some (enter k p) name i hslot
  rw [honly i hi] at hret hstay
  rw [mqinit, show mqOpen (enter k p) name = ((m.val : Int), enter k p) from Prod.ext hret (hstay hm)]

theorem mqUnlink_named (hs : Seated A B k) (hm : Spare base k m) : ∃ k',
    mqUnlink (enter k p) m.val = (0, k') ∧ names k' = Function.update (names k) m 0 ∧
      (∀ i, i ≠ m → k'.mq i = k.mq i) ∧ (∀ q, Waiting k' q ↔ Waiting k q) ∧ KeepsOthers base A B k k' := by
  let free : Mqueue := { (enter k p).mq m with msgQname := 0 }
  refine ⟨setMq (enter k p) m free, ?_, names_setMq (enter k p) m free, fun i hi => Function.update_of_ne hi _ _,
    fun _ => Iff.rfl, keeps_setMq hs hm (.inl rfl)⟩
  rw [mqUnlink, if_pos (by omega), dif_pos (by simp)]
  rfl

end

/-! Where the two are. -/

section

variable (base : Int) (len : Nat) (A B : Fin 8) (xs ys : List (List UInt8))

structure Unopened (k : Kernel) (x y : Player) : Prop where
  ping : x.m = none ∧ x.done = 0
  pong : y.m = none ∧ y.done = 0
  round : y.round = x.round
  below : ∀ i, names k i < base
  awake : ¬Waiting k A ∧ ¬Waiting k B

/-- The channel of the round is open, and no other of the two. -/
structure OnlyOpen (m : Fin 32) (round : Nat) (k : Kernel) : Prop where
  name : names k m = base + round
  only : ∀ i, base ≤ names k i → i = m
  known : Known A B m k

/-- One of them has, or both, and messages go from `A` to `B`. -/
structure Serving (m : Fin 32) (k : Kernel) (x y : Player) : Prop where
  ping : x.m = none ∧ x.done = 0 ∨ x.m = some (m.val : Int)
  pong : y.m = none ∧ y.done = 0 ∨ y.m = some (m.val : Int)
  round : y.round = x.round
  table : OnlyOpen base A B m x.round k
  flow : Flow len m A B xs x.done y.done k
  sent : x.done ≤ xs.length
  early : y.done < xs.length

structure Returning (m : Fin 32) (k : Kernel) (x y : Player) : Prop where
  ping : x.m = some (m.val : Int)
  pong : y.m = some (m.val : Int)
  round : y.round = x.round
  table : OnlyOpen base A B m x.round k
  flow : Flow len m B A ys (y.done - xs.length) (x.done - xs.length) k
  late : xs.length ≤ x.done ∧ xs.length ≤ y.done
  sent : y.done < xs.length + ys.length

/-- The channel of the next round, which only `B` has opened. -/
structure NextOpen (m n : Fin 32) (k : Kernel) (y : Player) : Prop where
  pong : y.m = some (n.val : Int)
  name : names k n = base + y.round
  other : n ≠ m
  only : ∀ i, base ≤ names k i → i = m ∨ i = n
  empty : (k.mq n).msgQnum = 0
  asked : (k.mq n).msgQrec = 1 → (k.mq n).msgLrpid = B.val
  waits : Waiting k B → (k.mq m).msgQnum ≠ 0 ∨ (k.mq n).msgQrec = 1

/-- `B` has sent its last message and is in the next round; `A` takes what is
left of this one. -/
structure Ahead (m : Fin 32) (k : Kernel) (x y : Player) : Prop where
  ping : x.m = some (m.val : Int)
  pong : y.done = 0
  round : y.round = x.round + 1
  name : names k m = base + x.round
  known : Known A B m k
  last : x.done + (k.mq m).msgQnum = xs.length + ys.length
  one : (k.mq m).msgQnum ≤ 1
  full : (k.mq m).msgQnum ≠ 0 → (k.mq m).msgLspid = B.val ∧
    (List.range len).map (byte (k.mq m).msgQbuf) = ys.getD (x.done - xs.length) []
  awake : ¬Waiting k A
  next : y.m = none ∧ (∀ i, base ≤ names k i → i = m) ∧ (Waiting k B → (k.mq m).msgQnum ≠ 0) ∨
    ∃ n, NextOpen base B m n k y

inductive Stage (k : Kernel) (x y : Player) : Prop where
  | unopened (h : Unopened base A B k x y)
  | serving (m : Fin 32) (h : Serving base len A B xs m k x y)
  | returning (m : Fin 32) (h : Returning base len A B xs ys m k x y)
  | ahead (m : Fin 32) (h : Ahead base len A B xs ys m k x y)

/-- What is received in `round` rounds and by `n` messages of the next. -/
def received (msgs : List (List UInt8)) (round n : Nat) : List (List UInt8) :=
  (List.replicate round msgs).flatten ++ msgs.take n

def PingHeard (x : Player) : Prop := x.got = received ys x.round (x.done - xs.length)

def PongHeard (y : Player) : Prop := y.got = received xs y.round y.done

/-- The calls that a program has got through, of which it makes `per` in a round. -/
def Player.calls (per : Nat) (x : Player) : Nat :=
  x.round * per + match x.m with
    | none => 0
    | some _ => 1 + x.done

/-- A call of `p` leaves others alone, and it gets its program on or blocks it. -/
structure Attempted (p : Fin 8) (per : Nat) (k : Kernel) (x : Player) (r : Bool × Player × Kernel) : Prop where
  keeps : KeepsOthers base A B k r.2.2
  calls : r.2.1.calls per = x.calls per + if r.1 then 1 else 0
  blocked : r.1 = false → Waiting r.2.2 p ∧ ∀ q, Waiting k q → Waiting r.2.2 q

end

section

variable {base : Int} {len : Nat} {A B p : Fin 8} {xs ys msgs : List (List UInt8)} {m : Fin 32} {k k' : Kernel}
  {x y : Player} {per : Nat}

theorem received_succ {n : Nat} (round : Nat) (h : n < msgs.length) :
    received msgs round n ++ [msgs.getD n []] = received msgs round (n + 1) := by
  rw [received, List.append_assoc, take_append_getD msgs [] h, received]

theorem received_round {n : Nat} (round : Nat) (h : msgs.length ≤ n) :
    received msgs round n = received msgs (round + 1) 0 := by
  rw [received, received, List.take_of_length_le h, List.take_zero, List.append_nil, List.replicate_succ',
    List.flatten_append, List.flatten_singleton]

theorem retry_val (op : ChanOp) (k : Kernel) (x : Player) (m : Fin 32) : retry len p op k x m.val =
    if (attempt m len k p op).1 then (true,
      { x with done := x.done + 1, got := x.got ++ (attempt m len k p op).2.1 }, (attempt m len k p op).2.2)
    else (false, x, (attempt m len k p op).2.2) := by
  have hm : channelOf m.val = some m := by
    rw [channelOf, dif_pos (by simp)]
    rfl
  rw [retry, hm]
  dsimp only
  obtain ⟨ok, got, k'⟩ := attempt m len k p op
  cases ok <;> rfl

theorem KeepsOthers.opened (h : KeepsOthers base A B k k') (hm : x.m = none) (hdone : x.done = 0) (i : Int) :
    Attempted base A B p per k x (true, { x with m := some i }, k') where
  keeps := h
  calls := by simp [Player.calls, hm, hdone]
  blocked h := by cases h

theorem KeepsOthers.moved (h : KeepsOthers base A B k k') (hm : x.m = some (m.val : Int)) (got : List (List UInt8)) :
    Attempted base A B p per k x (true, { x with done := x.done + 1, got := got }, k') where
  keeps := h
  calls := by
    simp [Player.calls, hm]
    omega
  blocked h := by cases h

theorem KeepsOthers.ended (h : KeepsOthers base A B k k') (hm : x.m = some (m.val : Int)) (hper : x.done + 2 = per)
    (got : List (List UInt8)) :
    Attempted base A B p per k x (true, { round := x.round + 1, m := none, done := 0, got := got }, k') where
  keeps := h
  calls := by
    simp [Player.calls, hm, Nat.add_mul]
    omega
  blocked h := by cases h

theorem KeepsOthers.failed (h : KeepsOthers base A B k k') (hw : Waiting k' p ∧ ∀ q, Waiting k q → Waiting k' q) :
    Attempted base A B p per k x (false, x, k') where
  keeps := h
  calls := by simp
  blocked _ := hw

theorem OnlyOpen.only_name {round : Nat} (h : OnlyOpen base A B m round k) (i : Fin 32)
    (hi : names k i = base + round) : i = m := h.only i (by omega)

theorem OnlyOpen.enter {round : Nat} (h : OnlyOpen base A B m round k) : OnlyOpen base A B m round (enter k p) :=
  ⟨h.name, h.only, h.known.receiver, h.known.sender⟩

theorem OnlyOpen.keeps {round : Nat} (h : OnlyOpen base A B m round k) (len : Nat) (op : ChanOp) (hs : Seated A B k)
    (hp : p = A ∨ p = B) (hpid : (k.pcb p).pid = p.val) : KeepsOthers base A B k (Core.attempt m len k p op).2.2 :=
  h.known.keeps op hs (.inr (by rw [h.name]; omega)) hp hpid

theorem OnlyOpen.attempt {round : Nat} (h : OnlyOpen base A B m round k) (len : Nat) (op : ChanOp)
    (hp : p = A ∨ p = B) (hpid : (k.pcb p).pid = p.val) :
    OnlyOpen base A B m round (Core.attempt m len k p op).2.2 where
  name := by rw [names_attempt, h.name]
  only := by rw [names_attempt]; exact h.only
  known := h.known.attempt op hp hpid

theorem NewChannel.onlyOpen {round : Nat} (h : NewChannel m (base + round) k k') (hnot : ∀ i, ¬base ≤ names k i) :
    OnlyOpen base A B m round k' where
  name := by rw [h.table, Function.update_self]
  only i hi := by
    by_contra hne
    rw [h.table, Function.update_of_ne hne] at hi
    exact hnot i hi
  known := ⟨fun hrec => absurd hrec h.unasked, fun h0 => absurd h.empty h0⟩

theorem TwoSpare.free (h : TwoSpare base k) (honly : ∀ i, base ≤ names k i → i = m) : ∃ i, names k i = 0 := by
  obtain ⟨i, j, hij, hi, hj⟩ := h
  rcases hi with hi | hi
  · exact ⟨i, hi⟩
  · rcases hj with hj | hj
    · exact ⟨j, hj⟩
    · exact absurd ((honly i hi).trans (honly j hj).symm) hij

end

/-! The calls of `ping`. -/

section

variable {base : Int} {len : Nat} {A B : Fin 8} {xs ys : List (List UInt8)} {m : Fin 32} {k : Kernel} {x y : Player}

structure PingTurn (base : Int) (len : Nat) (A B : Fin 8) (xs ys : List (List UInt8)) (k : Kernel) (x y : Player)
    (r : Bool × Player × Kernel) : Prop where
  stage : Stage base len A B xs ys r.2.2 r.2.1 y
  turn : Attempted base A B A (xs.length + ys.length + 2) k x r
  heard : PingHeard xs ys x → PingHeard xs ys r.2.1

theorem Unopened.ping_opens (h : Unopened base A B k x y) (hs : Seated A B k) (hroom : TwoSpare base k) (hx : xs ≠ []) :
    PingTurn base len A B xs ys k x y (pingCall base len A xs ys k x) := by
  obtain ⟨hm, hdone⟩ := h.ping
  have hnot : ∀ i, ¬base ≤ names k i := fun i => not_le.mpr (h.below i)
  obtain ⟨m, k', hinit, -, hnew, hkeeps⟩ : ∃ (m : Fin 32) (k' : Kernel), _ :=
    @mqinit_new base A B A k (base + x.round) x hs (fun i he => hnot i (by omega))
      (hroom.free (m := 0) fun i hi => absurd hi (hnot i)) (by omega)
  rw [pingCall, hm]
  dsimp only
  rw [hinit]
  refine ⟨.serving m ?_, hkeeps.opened hm hdone _, id⟩
  have hwait : ∀ q, q = A ∨ q = B → ¬Waiting k' q := by
    rintro q (rfl | rfl) hq
    · exact h.awake.1 ((hnew.waiting _).mp hq)
    · exact h.awake.2 ((hnew.waiting _).mp hq)
  refine ⟨.inr rfl, .inl h.pong, h.round, hnew.onlyOpen hnot, ?_, by simp [hdone], ?_⟩
  · rw [h.pong.2]
    dsimp only
    rw [hdone]
    exact .fresh hnew.empty (hwait A (.inl rfl)) fun hB => absurd hB (hwait B (.inr rfl))
  · rw [h.pong.2]
    exact List.length_pos_iff.mpr hx

theorem pingCall_some (k : Kernel) (hm : x.m = some (m.val : Int)) (hdone : x.done < xs.length + ys.length) :
    pingCall base len A xs ys k x = if (attempt m len k A (pingOp xs x.done)).1 then (true,
      { x with
        done := x.done + 1
        got := x.got ++ (attempt m len k A (pingOp xs x.done)).2.1 }, (attempt m len k A (pingOp xs x.done)).2.2)
      else (false, x, (attempt m len k A (pingOp xs x.done)).2.2) := by
  rw [pingCall, hm]
  dsimp only
  rw [if_pos hdone, retry_val, hm]

theorem Serving.ping_opens (h : Serving base len A B xs m k x y) (hs : Seated A B k) (hm : x.m = none) (hdone : x.done = 0) :
    PingTurn base len A B xs ys k x y (pingCall base len A xs ys k x) := by
  rw [pingCall, hm]
  dsimp only
  rw [mqinit_again x h.table.name h.table.only_name]
  exact ⟨.serving m ⟨.inr rfl, h.pong, h.round, h.table.enter, h.flow.enter A, h.sent, h.early⟩,
    (keeps_enter hs).opened hm hdone _, id⟩

theorem Serving.ping_sends (h : Serving base len A B xs m k x y) (hs : Seated A B k) (hm : x.m = some (m.val : Int))
    (hAB : A ≠ B) (hlen : len ≤ 64) (hxs : ∀ x ∈ xs, x.length = len) (hlt : x.done < xs.length) :
    PingTurn base len A B xs ys k x y (pingCall base len A xs ys k x) := by
  have hop : pingOp xs x.done = .send (xs.getD x.done []) := if_pos hlt
  have hkeeps := h.table.keeps len (.send (xs.getD x.done [])) hs (.inl rfl) hs.pidA
  have htable := h.table.attempt len (.send (xs.getD x.done [])) (.inl rfl) hs.pidA
  rw [pingCall_some k hm (by omega), hop]
  rcases h.flow.send hlen hxs hlt hs.pidA hAB with ⟨hok, hgot, hflow⟩ | ⟨hfail, hflow⟩
  · rw [if_pos hok, hgot]
    refine ⟨.serving m ⟨.inr hm, h.pong, h.round, htable, hflow, hlt, h.early⟩, hkeeps.moved hm _, fun hheard => ?_⟩
    rw [PingHeard, List.append_nil]
    dsimp only
    rw [show x.done + 1 - xs.length = x.done - xs.length by omega]
    exact hheard
  · rw [hfail, if_neg Bool.false_ne_true]
    exact ⟨.serving m ⟨.inr hm, h.pong, h.round, htable, hflow, h.sent, h.early⟩,
      hkeeps.failed (attempt_blocks m len _ hs.pidA hfail), id⟩

theorem Serving.ping_waits (h : Serving base len A B xs m k x y) (hs : Seated A B k) (hm : x.m = some (m.val : Int))
    (hAB : A ≠ B) (hys : ys ≠ []) (hall : ¬x.done < xs.length) :
    PingTurn base len A B xs ys k x y (pingCall base len A xs ys k x) := by
  have hop : pingOp xs x.done = .receive := if_neg hall
  have hkeeps := h.table.keeps len .receive hs (.inl rfl) hs.pidA
  have htable := h.table.attempt len .receive (.inl rfl) hs.pidA
  have hsent := h.sent
  have hpos := List.length_pos_iff.mpr hys
  obtain ⟨hfail, hflow⟩ := h.flow.refuse hs.pidA hAB (by have := h.early; omega)
  rw [pingCall_some k hm (by omega), hop, hfail, if_neg Bool.false_ne_true]
  exact ⟨.serving m ⟨.inr hm, h.pong, h.round, htable, hflow, h.sent, h.early⟩,
    hkeeps.failed (attempt_blocks m len _ hs.pidA hfail), id⟩

theorem Returning.ping_receives (h : Returning base len A B xs ys m k x y) (hs : Seated A B k) (hAB : A ≠ B) :
    PingTurn base len A B xs ys k x y (pingCall base len A xs ys k x) := by
  have hop : pingOp xs x.done = .receive := if_neg (by have := h.late; omega)
  have hkeeps := h.table.keeps len .receive hs (.inl rfl) hs.pidA
  have htable := h.table.attempt len .receive (.inl rfl) hs.pidA
  have hnum := h.flow.num
  have hlate := h.late
  have hsent := h.sent
  rw [pingCall_some k h.ping (by omega), hop]
  rcases h.flow.receive hs.pidA hAB.symm with ⟨hok, hgot, htook, hempty, hwB, hwA⟩ | ⟨hfail, hflow⟩
  · rw [if_pos hok, hgot]
    refine ⟨.returning m ⟨h.ping, h.pong, h.round, htable, ?_, ⟨by dsimp only; omega, hlate.2⟩, hsent⟩,
      hkeeps.moved h.ping _, fun hheard => ?_⟩
    · dsimp only
      rw [show y.done - xs.length = x.done + 1 - xs.length by omega]
      exact .emptied hempty hwB hwA
    · rw [PingHeard]
      dsimp only
      rw [hheard, received_succ x.round (by omega), show x.done - xs.length + 1 = x.done + 1 - xs.length by omega]
  · rw [hfail, if_neg Bool.false_ne_true]
    exact ⟨.returning m ⟨h.ping, h.pong, h.round, htable, hflow, hlate, hsent⟩,
      hkeeps.failed (attempt_blocks m len _ hs.pidA hfail), id⟩

theorem Ahead.ping_receives (h : Ahead base len A B xs ys m k x y) (hs : Seated A B k) (hAB : A ≠ B) (hys : ys ≠ [])
    (hdone : x.done < xs.length + ys.length) :
    PingTurn base len A B xs ys k x y (pingCall base len A xs ys k x) := by
  have hlast := h.last
  have hone := h.one
  have hpos := List.length_pos_iff.mpr hys
  have h0 : (k.mq m).msgQnum ≠ 0 := by omega
  have hop : pingOp xs x.done = .receive := if_neg (by omega)
  have hspare : Spare base k m := .inr (by rw [h.name]; omega)
  obtain ⟨hls, hbuf⟩ := h.full h0
  obtain ⟨hok, hgot, hn, hw⟩ := attempt_receive_take len hs.pidA h0
    (by rw [hls]; exact fun he => hAB (Fin.ext (by omega)))
  have hz : ((attempt m len k A .receive).2.2.mq m).msgQnum = 0 := by omega
  rw [pingCall_some k h.ping hdone, hop, if_pos hok, hgot]
  refine ⟨.ahead m ⟨h.ping, h.pong, h.round, ?_, h.known.attempt .receive (.inl rfl) hs.pidA, by dsimp only; omega,
    by dsimp only; omega, fun hn0 => absurd hz hn0, fun hA => h.awake (hw A hA).1, ?_⟩,
    (h.known.keeps .receive hs hspare (.inl rfl) hs.pidA).moved h.ping _, fun hheard => ?_⟩
  · rw [names_attempt]
    exact h.name
  · have hwB : ¬Waiting (attempt m len k A .receive).2.2 B := fun hB => (hw B hB).2 hls
    rw [names_attempt]
    refine h.next.imp (fun hnext => ⟨hnext.1, hnext.2.1, fun hB => absurd hB hwB⟩) (Exists.imp fun n hnext => ?_)
    have hmq : (attempt m len k A .receive).2.2.mq n = k.mq n := mq_attempt_ne hnext.other len k A .receive
    exact ⟨hnext.pong, by rw [names_attempt]; exact hnext.name, hnext.other,
      fun i hi => hnext.only i (by rwa [names_attempt] at hi), by rw [hmq]; exact hnext.empty,
      by rw [hmq]; exact hnext.asked, fun hB => absurd hB hwB⟩
  · rw [PingHeard]
    dsimp only
    rw [hheard, hbuf, received_succ x.round (by omega), show x.done - xs.length + 1 = x.done + 1 - xs.length by omega]

theorem Ahead.ping_unlinks (h : Ahead base len A B xs ys m k x y) (hs : Seated A B k) (hbase : 0 < base) (hxs : xs ≠ [])
    (hdone : ¬x.done < xs.length + ys.length) :
    PingTurn base len A B xs ys k x y (pingCall base len A xs ys k x) := by
  have hlast := h.last
  have hpos := List.length_pos_iff.mpr hxs
  have hspare : Spare base k m := .inr (by rw [h.name]; omega)
  obtain ⟨k', hunlink, htable, hothers, hwaiting, hkeeps⟩ : ∃ k', mqUnlink (enter k A) m.val = (0, k') ∧ _ :=
    mqUnlink_named hs hspare
  have hA : ¬Waiting k' A := fun hA => h.awake ((hwaiting A).mp hA)
  rw [pingCall, h.ping]
  dsimp only
  rw [if_neg hdone, hunlink]
  refine ⟨?_, hkeeps.ended h.ping (by omega) _, fun hheard => ?_⟩
  · rcases h.next with ⟨hm, honly, hwB⟩ | ⟨n, hnext⟩
    · refine .unopened ⟨⟨rfl, rfl⟩, ⟨hm, h.pong⟩, h.round, fun i => ?_, hA,
        fun hB => hwB ((hwaiting B).mp hB) (by omega)⟩
      dsimp only
      rw [htable, Function.update_apply]
      split
      · exact hbase
      · next hi => exact not_le.mp fun hle => hi (honly i hle)
    · have hmq : k'.mq n = k.mq n := hothers n hnext.other
      refine .serving n ⟨.inl ⟨rfl, rfl⟩, .inr hnext.pong, h.round, ⟨?_, fun i hi => ?_, fun hrec => ?_, fun h0 => ?_⟩, ?_,
        Nat.zero_le _, by rw [h.pong]; exact hpos⟩
      · rw [htable, Function.update_of_ne hnext.other, hnext.name, h.round]
      · dsimp only at hi
        rw [htable, Function.update_apply] at hi
        split at hi
        · exact absurd hi (not_le.mpr hbase)
        · next hne => exact (hnext.only i hi).resolve_left hne
      · dsimp only at hrec ⊢
        rw [hmq] at hrec ⊢
        exact .inr (hnext.asked hrec)
      · dsimp only at h0
        rw [hmq] at h0
        exact absurd hnext.empty h0
      · rw [h.pong]
        dsimp only
        refine .fresh (by rw [hmq]; exact hnext.empty) hA fun hB => ?_
        have hrec := (hnext.waits ((hwaiting B).mp hB)).resolve_left (by omega)
        rw [hmq]
        exact ⟨hrec, hnext.asked hrec⟩
  · rw [PingHeard]
    dsimp only
    rw [hheard, received_round x.round (by omega), Nat.zero_sub]

end

/-! The calls of `pong`. -/

section

variable {base : Int} {len : Nat} {A B : Fin 8} {xs ys : List (List UInt8)} {m : Fin 32} {k : Kernel} {x y : Player}

structure PongTurn (base : Int) (len : Nat) (A B : Fin 8) (xs ys : List (List UInt8)) (k : Kernel) (x y : Player)
    (r : Bool × Player × Kernel) : Prop where
  stage : Stage base len A B xs ys r.2.2 x r.2.1
  turn : Attempted base A B B (xs.length + ys.length + 1) k y r
  heard : PongHeard xs y → PongHeard xs r.2.1

theorem pongCall_failed (k : Kernel) (hm : y.m = some (m.val : Int)) (hdone : y.done < xs.length + ys.length)
    (hfail : (attempt m len k B (pongOp xs ys y.done)).1 = false) :
    pongCall base len B xs ys k y = (false, y, (attempt m len k B (pongOp xs ys y.done)).2.2) := by
  rw [pongCall, hm]
  dsimp only
  rw [retry_val, hfail, if_neg Bool.false_ne_true]
  dsimp only
  rw [if_pos hdone]

theorem pongCall_done (k : Kernel) (hm : y.m = some (m.val : Int))
    (hok : (attempt m len k B (pongOp xs ys y.done)).1 = true) :
    pongCall base len B xs ys k y = (true,
      if y.done + 1 < xs.length + ys.length then
        { y with
          done := y.done + 1
          got := y.got ++ (attempt m len k B (pongOp xs ys y.done)).2.1 }
      else
        { round := y.round + 1
          m := none
          done := 0
          got := y.got ++ (attempt m len k B (pongOp xs ys y.done)).2.1 },
      (attempt m len k B (pongOp xs ys y.done)).2.2) := by
  rw [pongCall, hm]
  dsimp only
  rw [retry_val, if_pos hok]
  dsimp only
  split
  · rw [hm]
  · rfl

theorem Unopened.pong_opens (h : Unopened base A B k x y) (hs : Seated A B k) (hroom : TwoSpare base k) (hx : xs ≠ []) :
    PongTurn base len A B xs ys k x y (pongCall base len B xs ys k y) := by
  obtain ⟨hm, hdone⟩ := h.pong
  have hnot : ∀ i, ¬base ≤ names k i := fun i => not_le.mpr (h.below i)
  obtain ⟨m, k', hinit, -, hnew, hkeeps⟩ : ∃ (m : Fin 32) (k' : Kernel), _ :=
    @mqinit_new base A B B k (base + y.round) y hs (fun i he => hnot i (by omega))
      (hroom.free (m := 0) fun i hi => absurd hi (hnot i)) (by omega)
  have hA : ¬Waiting k' A := fun hA => h.awake.1 ((hnew.waiting A).mp hA)
  have hB : ¬Waiting k' B := fun hB => h.awake.2 ((hnew.waiting B).mp hB)
  rw [pongCall, hm]
  dsimp only
  rw [hinit]
  refine ⟨.serving m ⟨.inl h.ping, .inr rfl, h.round, ?_, ?_, ?_, ?_⟩, hkeeps.opened hm hdone _, id⟩
  · rw [← h.round]
    exact hnew.onlyOpen hnot
  · rw [h.ping.2]
    dsimp only
    rw [hdone]
    exact .fresh hnew.empty hA fun hwB => absurd hwB hB
  · rw [h.ping.2]
    exact Nat.zero_le _
  · dsimp only
    rw [hdone]
    exact List.length_pos_iff.mpr hx

theorem Serving.pong_opens (h : Serving base len A B xs m k x y) (hs : Seated A B k) (hm : y.m = none)
    (hdone : y.done = 0) : PongTurn base len A B xs ys k x y (pongCall base len B xs ys k y) := by
  rw [pongCall, hm]
  dsimp only
  rw [h.round, mqinit_again y h.table.name h.table.only_name]
  exact ⟨.serving m ⟨h.ping, .inr rfl, h.round, h.table.enter, h.flow.enter B, h.sent, h.early⟩,
    (keeps_enter hs).opened hm hdone _, id⟩

theorem Serving.pong_receives (h : Serving base len A B xs m k x y) (hs : Seated A B k) (hm : y.m = some (m.val : Int))
    (hAB : A ≠ B) (hys : ys ≠ []) : PongTurn base len A B xs ys k x y (pongCall base len B xs ys k y) := by
  have hearly := h.early
  have hsent := h.sent
  have hpos := List.length_pos_iff.mpr hys
  have hop : pongOp xs ys y.done = .receive := if_pos hearly
  have hkeeps := h.table.keeps len .receive hs (.inr rfl) hs.pidB
  have htable := h.table.attempt len .receive (.inr rfl) hs.pidB
  rcases h.flow.receive hs.pidB hAB with ⟨hok, hgot, htook, hempty, hwA, hwB⟩ | ⟨hfail, hflow⟩
  · rw [pongCall_done k hm (by rw [hop]; exact hok), hop, hgot, if_pos (by omega)]
    refine ⟨?_, hkeeps.moved hm _, fun hheard => ?_⟩
    · by_cases hlast : y.done + 1 < xs.length
      · refine .serving m ⟨h.ping, .inr hm, h.round, htable, ?_, hsent, hlast⟩
        rw [htook]
        exact .emptied hempty hwA hwB
      · -- `ping` has sent its last message and gets the answers
        have hping := h.ping.resolve_left (fun hnone => by omega)
        refine .returning m ⟨hping, hm, h.round, htable, ?_, ⟨by omega, by dsimp only; omega⟩, by dsimp only; omega⟩
        dsimp only
        rw [show y.done + 1 - xs.length = 0 by omega, show x.done - xs.length = 0 by omega]
        exact .emptied hempty hwB hwA
    · rw [PongHeard]
      dsimp only
      rw [hheard, received_succ y.round hearly]
  · rw [pongCall_failed k hm (by omega) (by rw [hop]; exact hfail), hop]
    exact ⟨.serving m ⟨h.ping, .inr hm, h.round, htable, hflow, hsent, hearly⟩,
      hkeeps.failed (attempt_blocks m len _ hs.pidB hfail), id⟩

theorem Returning.pong_sends (h : Returning base len A B xs ys m k x y) (hs : Seated A B k) (hAB : A ≠ B)
    (hlen : len ≤ 64) (hys : ∀ y ∈ ys, y.length = len) :
    PongTurn base len A B xs ys k x y (pongCall base len B xs ys k y) := by
  have hlate := h.late
  have hsent := h.sent
  have hnum := h.flow.num
  have hop : pongOp xs ys y.done = .send (ys.getD (y.done - xs.length) []) := if_neg (by omega)
  have hkeeps := h.table.keeps len (.send (ys.getD (y.done - xs.length) [])) hs (.inr rfl) hs.pidB
  have htable := h.table.attempt len (.send (ys.getD (y.done - xs.length) [])) (.inr rfl) hs.pidB
  rcases h.flow.send hlen hys (by omega) hs.pidB hAB.symm with ⟨hok, hgot, hflow⟩ | ⟨hfail, hflow⟩
  · rw [pongCall_done k h.pong (by rw [hop]; exact hok), hop, hgot, List.append_nil]
    by_cases hlast : y.done + 1 < xs.length + ys.length
    · rw [if_pos hlast]
      refine ⟨.returning m ⟨h.ping, h.pong, h.round, htable, ?_, ⟨hlate.1, by dsimp only; omega⟩, hlast⟩,
        hkeeps.moved h.pong _, fun hheard => ?_⟩
      · dsimp only
        rw [show y.done + 1 - xs.length = y.done - xs.length + 1 by omega]
        exact hflow
      · rw [PongHeard]
        dsimp only
        rw [hheard, received, received, List.take_of_length_le hlate.2, List.take_of_length_le (by omega)]
    · -- the last message is on its way, and `pong` is in the next round
      rw [if_neg hlast]
      have hnum' := hflow.num
      refine ⟨.ahead m ⟨h.ping, rfl, by dsimp only; rw [h.round], htable.name, htable.known, by dsimp only; omega,
        hflow.one, hflow.full, fun hA => ?_, .inl ⟨rfl, htable.only, hflow.waitS⟩⟩, hkeeps.ended h.pong (by omega) _,
        fun hheard => ?_⟩
      · have hzero := (hflow.waitR hA).1
        omega
      · rw [PongHeard]
        dsimp only
        rw [hheard, received_round y.round hlate.2]
  · rw [pongCall_failed k h.pong hsent (by rw [hop]; exact hfail), hop]
    exact ⟨.returning m ⟨h.ping, h.pong, h.round, htable, hflow, hlate, hsent⟩,
      hkeeps.failed (attempt_blocks m len _ hs.pidB hfail), id⟩

theorem Ahead.pong_opens (h : Ahead base len A B xs ys m k x y) (hs : Seated A B k) (hroom : TwoSpare base k)
    (hbase : 0 < base) (hm : y.m = none) (honly : ∀ i, base ≤ names k i → i = m)
    (hwaitB : Waiting k B → (k.mq m).msgQnum ≠ 0) :
    PongTurn base len A B xs ys k x y (pongCall base len B xs ys k y) := by
  have hname := h.name
  have hround := h.round
  obtain ⟨n, k', hinit, hfree, hnew, hkeeps⟩ : ∃ (n : Fin 32) (k' : Kernel), _ :=
    @mqinit_new base A B B k (base + y.round) y hs (fun i he => by
      have hi := honly i (by omega)
      rw [hi] at he
      omega) (hroom.free honly) (by omega)
  have hne : n ≠ m := by
    rintro rfl
    omega
  have hmq : k'.mq m = k.mq m := hnew.others m hne.symm
  rw [pongCall, hm]
  dsimp only
  rw [hinit]
  refine ⟨.ahead m ⟨h.ping, h.pong, hround, ?_, ⟨by rw [hmq]; exact h.known.receiver, by rw [hmq]; exact h.known.sender⟩,
    by rw [hmq]; exact h.last, by rw [hmq]; exact h.one, by rw [hmq]; exact h.full,
    fun hA => h.awake ((hnew.waiting A).mp hA), .inr ⟨n, rfl, ?_, hne, fun i hi => ?_, hnew.empty,
      fun hrec => absurd hrec hnew.unasked, fun hB => .inl ?_⟩⟩, hkeeps.opened hm h.pong _, id⟩
  · rw [hnew.table, Function.update_of_ne hne.symm]
    exact hname
  · rw [hnew.table, Function.update_self]
  · by_cases hin : i = n
    · exact .inr hin
    · dsimp only at hi
      rw [hnew.table, Function.update_of_ne hin] at hi
      exact .inl (honly i hi)
  · rw [hmq]
    exact hwaitB ((hnew.waiting B).mp hB)

theorem Ahead.pong_waits {n : Fin 32} (h : Ahead base len A B xs ys m k x y) (hs : Seated A B k) (hAB : A ≠ B)
    (hxs : xs ≠ []) (hnext : NextOpen base B m n k y) :
    PongTurn base len A B xs ys k x y (pongCall base len B xs ys k y) := by
  have hpos := List.length_pos_iff.mpr hxs
  have hop : pongOp xs ys y.done = .receive := if_pos (by rw [h.pong]; exact hpos)
  have hspare : Spare base k n := .inr (by rw [hnext.name]; omega)
  have hknown : Known A B n k := ⟨fun hrec => .inr (hnext.asked hrec), fun h0 => absurd hnext.empty h0⟩
  obtain ⟨hfail, hmq, hw⟩ := attempt_receive_fail len hs.pidB (.inl hnext.empty)
  have hother : (attempt n len k B .receive).2.2.mq m = k.mq m := mq_attempt_ne hnext.other.symm len k B .receive
  rw [pongCall_failed k hnext.pong (by rw [h.pong]; omega) (by rw [hop]; exact hfail), hop]
  refine ⟨.ahead m ⟨h.ping, h.pong, h.round, by rw [names_attempt]; exact h.name,
    ⟨by rw [hother]; exact h.known.receiver, by rw [hother]; exact h.known.sender⟩, by rw [hother]; exact h.last,
    by rw [hother]; exact h.one, by rw [hother]; exact h.full, fun hA => ?_, .inr ⟨n, hnext.pong, ?_, hnext.other,
      fun i hi => hnext.only i (by rwa [names_attempt] at hi), ?_, fun _ => ?_, fun _ => .inr ?_⟩⟩,
    (hknown.keeps .receive hs hspare (.inr rfl) hs.pidB).failed (attempt_blocks n len _ hs.pidB hfail), id⟩
  · exact h.awake ((hw A hA).resolve_left hAB)
  · rw [names_attempt]
    exact hnext.name
  · rw [hmq]
    exact hnext.empty
  · rw [hmq]
  · rw [hmq]

end

/-! Runs. -/

structure Texts (len : Nat) (xs ys : List (List UInt8)) : Prop where
  short : len ≤ 64
  ping : ∀ x ∈ xs, x.length = len
  pong : ∀ y ∈ ys, y.length = len
  some : xs ≠ [] ∧ ys ≠ []

section

variable {base : Int} {len : Nat} {A B : Fin 8} {xs ys : List (List UInt8)} {k k' : Kernel} {x y : Player} {s : Rally}

theorem Stage.not_both (h : Stage base len A B xs ys k x y) : ¬(Waiting k A ∧ Waiting k B) := by
  rintro ⟨hA, hB⟩
  cases h with
  | unopened h => exact h.awake.1 hA
  | serving m h => exact h.flow.waitS hA (h.flow.waitR hB).1
  | returning m h => exact h.flow.waitS hB (h.flow.waitR hA).1
  | ahead m h => exact h.awake hA

theorem Stage.executing (h : Stage base len A B xs ys k x y) (hs : Seated A B k) :
    (k.pcb A).pst = .executing ∨ (k.pcb B).pst = .executing := by
  rcases hs.liveA with hA | hA
  · exact .inl hA
  · exact .inr (hs.liveB.resolve_right fun hB => h.not_both ⟨hA, hB⟩)

theorem Stage.rounds (h : Stage base len A B xs ys k x y) : y.round = x.round ∨ y.round = x.round + 1 := by
  cases h with
  | unopened h => exact .inl h.round
  | serving m h => exact .inl h.round
  | returning m h => exact .inl h.round
  | ahead m h => exact .inr h.round

theorem Stage.inside (h : Stage base len A B xs ys k x y) {d : Int} (hd : x.m = some d ∨ y.m = some d) :
    ∃ i : Fin 32, d = i.val := by
  have hnone : ∀ {o : Option Int}, o = none → ¬o = some d := fun hn hs => by rw [hn] at hs; cases hs
  have hsome : ∀ {o : Option Int} {i : Fin 32}, o = some (i.val : Int) → o = some d → ∃ i : Fin 32, d = i.val :=
    fun {_ i} hi hs => ⟨i, Option.some.inj (hs.symm.trans hi)⟩
  cases h with
  | unopened h => exact (hd.elim (hnone h.ping.1) (hnone h.pong.1)).elim
  | serving m h =>
    rcases hd with hd | hd
    · exact hsome (h.ping.resolve_left fun hn => hnone hn.1 hd) hd
    · exact hsome (h.pong.resolve_left fun hn => hnone hn.1 hd) hd
  | returning m h => exact hd.elim (hsome h.ping) (hsome h.pong)
  | ahead m h =>
    rcases hd with hd | hd
    · exact hsome h.ping hd
    · rcases h.next with hn | ⟨n, hn⟩
      · exact absurd hd (hnone hn.1)
      · exact hsome hn.pong hd

theorem Known.of_mq {m : Fin 32} (h : Known A B m k) (hm : k'.mq m = k.mq m) : Known A B m k' := by
  constructor <;> simp only [hm]
  · exact h.receiver
  · exact h.sender

theorem Stage.other (h : Stage base len A B xs ys k x y)
    (hmq : ∀ i, base ≤ names k i ∨ base ≤ names k' i → k'.mq i = k.mq i)
    (hA : Waiting k' A ↔ Waiting k A) (hB : Waiting k' B ↔ Waiting k B) : Stage base len A B xs ys k' x y := by
  have hname : ∀ {i}, base ≤ names k i → names k' i = names k i := fun {i} hi => by rw [names, hmq i (.inl hi), names]
  have hback : ∀ {i}, base ≤ names k' i → base ≤ names k i := fun {i} hi => by
    rwa [names, hmq i (.inr hi)] at hi
  have htable : ∀ {m round}, OnlyOpen base A B m round k → OnlyOpen base A B m round k' := fun {m round} ht =>
    have hin : base ≤ names k m := by rw [ht.name]; omega
    ⟨(hname hin).trans ht.name, fun i hi => ht.only i (hback hi), ht.known.of_mq (hmq m (.inl hin))⟩
  cases h with
  | unopened h =>
    refine .unopened ⟨h.ping, h.pong, h.round, fun i => ?_, by rw [hA]; exact h.awake.1, by rw [hB]; exact h.awake.2⟩
    exact not_le.mp fun hi => absurd (hback hi) (not_le.mpr (h.below i))
  | serving m h =>
    have hm := hmq m (.inl (by rw [h.table.name]; omega))
    exact .serving m ⟨h.ping, h.pong, h.round, htable h.table, h.flow.of_same hm hA hB, h.sent, h.early⟩
  | returning m h =>
    have hm := hmq m (.inl (by rw [h.table.name]; omega))
    exact .returning m ⟨h.ping, h.pong, h.round, htable h.table, h.flow.of_same hm hB hA, h.late, h.sent⟩
  | ahead m h =>
    have hin : base ≤ names k m := by rw [h.name]; omega
    have hm := hmq m (.inl hin)
    refine .ahead m ⟨h.ping, h.pong, h.round, (hname hin).trans h.name, h.known.of_mq hm, by rw [hm]; exact h.last,
      by rw [hm]; exact h.one, by rw [hm]; exact h.full, by rw [hA]; exact h.awake, h.next.imp (fun hn => ?_) ?_⟩
    · rw [hm, hB]
      exact ⟨hn.1, fun i hi => hn.2.1 i (hback hi), hn.2.2⟩
    · refine Exists.imp fun n hn => ?_
      have hinn : base ≤ names k n := by rw [hn.name]; omega
      have hmn := hmq n (.inl hinn)
      exact ⟨hn.pong, (hname hinn).trans hn.name, hn.other, fun i hi => hn.only i (hback hi), by rw [hmn]; exact hn.empty,
        by rw [hmn]; exact hn.asked, by rw [hm, hmn, hB]; exact hn.waits⟩

structure Rallying (base : Int) (len : Nat) (A B : Fin 8) (xs ys : List (List UInt8)) (s : Rally) : Prop where
  seated : Seated A B s.k
  roomy : TwoSpare base s.k
  stage : Stage base len A B xs ys s.k s.ping s.pong
  ping : PingHeard xs ys s.ping
  pong : PongHeard xs s.pong

theorem Rallying.pingTurn (h : Rallying base len A B xs ys s) (ht : Texts len xs ys) (hAB : A ≠ B) (hbase : 0 < base) :
    PingTurn base len A B xs ys s.k s.ping s.pong (pingCall base len A xs ys s.k s.ping) := by
  cases h.stage with
  | unopened hu => exact hu.ping_opens h.seated h.roomy ht.some.1
  | serving m hf =>
    rcases hf.ping with ⟨hm, hdone⟩ | hm
    · exact hf.ping_opens h.seated hm hdone
    · by_cases hlt : s.ping.done < xs.length
      · exact hf.ping_sends h.seated hm hAB ht.short ht.ping hlt
      · exact hf.ping_waits h.seated hm hAB ht.some.2 hlt
  | returning m hf => exact hf.ping_receives h.seated hAB
  | ahead m hf =>
    by_cases hdone : s.ping.done < xs.length + ys.length
    · exact hf.ping_receives h.seated hAB ht.some.2 hdone
    · exact hf.ping_unlinks h.seated hbase ht.some.1 hdone

theorem Rallying.pongTurn (h : Rallying base len A B xs ys s) (ht : Texts len xs ys) (hAB : A ≠ B) (hbase : 0 < base) :
    PongTurn base len A B xs ys s.k s.ping s.pong (pongCall base len B xs ys s.k s.pong) := by
  cases h.stage with
  | unopened hu => exact hu.pong_opens h.seated h.roomy ht.some.1
  | serving m hf =>
    rcases hf.pong with ⟨hm, hdone⟩ | hm
    · exact hf.pong_opens h.seated hm hdone
    · exact hf.pong_receives h.seated hm hAB ht.some.2
  | returning m hf => exact hf.pong_sends h.seated hAB ht.short ht.pong
  | ahead m hf =>
    rcases hf.next with ⟨hm, honly, hwaitB⟩ | ⟨n, hnext⟩
    · exact hf.pong_opens h.seated h.roomy hbase hm honly hwaitB
    · exact hf.pong_waits h.seated hAB ht.some.1 hnext

theorem rallying_step (ht : Texts len xs ys) (hAB : A ≠ B) (hbase : 0 < base) (s : Rally) (c : Move)
    (h : Rallying base len A B xs ys s) (hc : rallyFits base A B s c) :
    Rallying base len A B xs ys (rally base len A B xs ys s c) := by
  cases c with
  | ping =>
    have hturn := h.pingTurn ht hAB hbase
    exact ⟨hturn.turn.keeps.seated, hturn.turn.keeps.roomy h.roomy, hturn.stage, hturn.heard h.ping, h.pong⟩
  | pong =>
    have hturn := h.pongTurn ht hAB hbase
    exact ⟨hturn.turn.keeps.seated, hturn.turn.keeps.roomy h.roomy, hturn.stage, h.ping, hturn.heard h.pong⟩
  | preempt => exact ⟨h.seated, h.roomy, h.stage, h.ping, h.pong⟩
  | dispatch p => exact ⟨h.seated, h.roomy, h.stage, h.ping, h.pong⟩
  | other k' =>
    obtain ⟨hmq, hroom, hsame⟩ := hc
    obtain ⟨hA, hpidA⟩ := hsame A (.inl rfl)
    obtain ⟨hB, hpidB⟩ := hsame B (.inr rfl)
    have hwA : Waiting k' A ↔ Waiting s.k A := by rw [Waiting, hA, Waiting]
    have hwB : Waiting k' B ↔ Waiting s.k B := by rw [Waiting, hB, Waiting]
    refine ⟨⟨hpidA.trans h.seated.pidA, hpidB.trans h.seated.pidB, ?_, ?_⟩, hroom, h.stage.other hmq hwA hwB, h.ping, h.pong⟩
    · exact h.seated.liveA.imp hA.trans hwA.mpr
    · exact h.seated.liveB.imp hB.trans hwB.mpr

/-! How many calls fail. -/

def through (xs ys : List (List UInt8)) (s : Rally) : Nat :=
  s.ping.calls (xs.length + ys.length + 2) + s.pong.calls (xs.length + ys.length + 1)

theorem rank_step (ht : Texts len xs ys) (hAB : A ≠ B) (hbase : 0 < base) (s : Rally) (c : Move)
    (h : Rallying base len A B xs ys s) (hc : rallyFits base A B s c) :
    rank A B (through xs ys s) s.k s.cpu + c.made ≤ rank A B (through xs ys (rally base len A B xs ys s c))
      (rally base len A B xs ys s c).k (rally base len A B xs ys s c).cpu := by
  cases c with
  | ping =>
    have hturn := h.pingTurn ht hAB hbase
    refine rank_call (pingCall base len A xs ys s.k s.ping).1 (.inl rfl) (fun _ hr => hr) hc.1 rfl ?_ hturn.turn.blocked hturn.stage.not_both
    simp only [through, rally]
    rw [hturn.turn.calls, Nat.add_right_comm]
  | pong =>
    have hturn := h.pongTurn ht hAB hbase
    refine rank_call (pongCall base len B xs ys s.k s.pong).1 (.inr rfl) (fun _ hr => hr.symm) hc.1 rfl ?_ hturn.turn.blocked
      fun hboth => hturn.stage.not_both hboth.symm
    simp only [through, rally]
    rw [hturn.turn.calls]
    exact (Nat.add_assoc _ _ _).symm
  | preempt => exact rank_of_off Off.preempt
  | dispatch q => exact rank_of_off (Off.dispatch hc.2)
  | other k' => exact rank_of_off (Off.same fun p hp => (hc.2.2 p hp).1)

end

def start (k : Kernel) (cpu : Option (Fin 8)) : Rally := ⟨k, cpu, ⟨0, none, 0, []⟩, ⟨0, none, 0, []⟩⟩

/-- **`ping` and `pong` go on for ever.** In every state reached by any
interleaving, any preemption, and anything the other processes do on channels of
their own: one of the two is executing; of the calls they have made, at most one
more than half have failed; each has received what the other has sent, round
after round and in order; `pong` is at most one round ahead; the descriptors are
in range; and what they do next leaves the other processes and their channels
alone. -/
theorem ping_pong_rounds (k : Kernel) (base : Int) (len : Nat) (A B : Fin 8) (xs ys : List (List UInt8))
    (cpu : Option (Fin 8)) (hAB : A ≠ B) (ht : Texts len xs ys) (hbase : 0 < base) (hnames : ∀ i, names k i < base)
    (hroom : TwoSpare base k) (hA : (k.pcb A).pid = A.val ∧ (k.pcb A).pst = .executing)
    (hB : (k.pcb B).pid = B.val ∧ (k.pcb B).pst = .executing) (moves : List Move)
    (hc : Along (rally base len A B xs ys) (rallyFits base A B) (start k cpu) moves) :
    let s := run (rally base len A B xs ys) (start k cpu) moves
    ((s.k.pcb A).pst = .executing ∨ (s.k.pcb B).pst = .executing) ∧
    (moves.map Move.made).sum ≤ 2 * through xs ys s + 1 ∧
    s.ping.got = received ys s.ping.round (s.ping.done - xs.length) ∧
    s.pong.got = received xs s.pong.round s.pong.done ∧
    (s.pong.round = s.ping.round ∨ s.pong.round = s.ping.round + 1) ∧
    (∀ d, s.ping.m = some d ∨ s.pong.m = some d → ∃ i : Fin 32, d = i.val) ∧
    ∀ c, c = .ping ∨ c = .pong → rallyFits base A B s c →
      (∀ i, ¬Spare base s.k i → (rally base len A B xs ys s c).k.mq i = s.k.mq i) ∧
      ∀ q, q ≠ A → q ≠ B → (rally base len A B xs ys s c).k.pcb q = s.k.pcb q := by
  intro s
  have hwA : ¬Waiting k A := by simp [Waiting, hA.2]
  have hwB : ¬Waiting k B := by simp [Waiting, hB.2]
  have h0 : Rallying base len A B xs ys (start k cpu) :=
    ⟨⟨hA.1, hB.1, .inl hA.2, .inl hB.2⟩, hroom, .unopened ⟨⟨rfl, rfl⟩, ⟨rfl, rfl⟩, rfl, hnames, hwA, hwB⟩,
      by simp [PingHeard, start, received], by simp [PongHeard, start, received]⟩
  have h : Rallying base len A B xs ys s := invariant (rallying_step ht hAB hbase) h0 hc
  have hrank := potential (rallying_step ht hAB hbase) (rank_step ht hAB hbase) h0 hc
  refine ⟨h.stage.executing h.seated, ?_, h.ping, h.pong, h.stage.rounds, fun d => h.stage.inside, fun c hcall _ => ?_⟩
  · exact le_trans (Nat.le_add_left _ _) (hrank.trans (rank_le A B (through xs ys s) s.k s.cpu))
  · rcases hcall with rfl | rfl
    · have hkeeps := (h.pingTurn ht hAB hbase).turn.keeps
      exact ⟨hkeeps.mq, hkeeps.pcb⟩
    · have hkeeps := (h.pongTurn ht hAB hbase).turn.keeps
      exact ⟨hkeeps.mq, hkeeps.pcb⟩

def rallyMoves : List Move :=
  [.dispatch 2, .pong, .pong, .dispatch 1, .ping, .ping, .preempt, .dispatch 2, .pong, .pong, .pong, .pong,
    .dispatch 1, .ping, .ping]

/-- One message each way. `pong` waits for the first, answers it, and opens the
channel of the next round before `ping` has unlinked that of the first. -/
theorem ping_pong_two_rounds : let s := run (rally 100 1 1 2 [[65]] [[66]]) (start fourProcs none) rallyMoves
    s.ping.got = received [[66]] s.ping.round (s.ping.done - 1) ∧ s.ping.round = 1 ∧ s.pong.round = 1 := by
  have hzero : ∀ i, names fourProcs i = 0 := fun i => by rw [names, fourProcs_mq]; rfl
  have h := ping_pong_rounds fourProcs 100 1 1 2 [[65]] [[66]] none (by decide)
    ⟨by decide, by simp, by simp, by simp⟩ (by decide) (fun i => by rw [hzero]; decide)
    ⟨0, 1, by decide, .inl (hzero 0), .inl (hzero 1)⟩ ⟨rfl, rfl⟩ ⟨rfl, rfl⟩ rallyMoves
    ⟨⟨rfl, rfl⟩, ⟨rfl, by decide⟩, ⟨rfl, by decide⟩, ⟨rfl, rfl⟩, ⟨rfl, by decide⟩, ⟨rfl, by decide⟩, trivial,
      ⟨rfl, rfl⟩, ⟨rfl, by decide⟩, ⟨rfl, by decide⟩, ⟨rfl, by decide⟩, ⟨rfl, by decide⟩, ⟨rfl, rfl⟩, ⟨rfl, by decide⟩,
      ⟨rfl, by decide⟩, trivial⟩
  exact ⟨h.2.2.1, rfl, rfl⟩

end ArmKernel.Core
