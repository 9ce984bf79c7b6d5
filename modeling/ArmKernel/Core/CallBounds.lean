import ArmKernel.Core.CheckedCalls

/-! When the calls on processes and channels stay inside `pcb`, `mq` and
`msg_qbuf`, in every state that is reached. -/
namespace ArmKernel.Core.Calls

open Lib Lib.Bytes Lib.Checked Lib.Run Lib.Slots Fs

/-- The arguments name a process, a signal, a channel and a length there is; the
number 9 stands for all processes in `kill( 9, SIGKILL )`. -/
def InRange : Call → Prop
  | .kill pid sig => sig.isSome ∧ IsPid (toInt pid) ∨ toInt pid = 9 ∧ sig = some .sigkill
  | .raise sig => sig.isSome
  | .mqOpen _ => True
  | .mqSend mqd _ len => (0 ≤ toInt mqd ∧ toInt mqd < 32) ∧ len.toNat ≤ 64
  | .mqReceive mqd len => (0 ≤ toInt mqd ∧ toInt mqd < 32) ∧ len.toNat ≤ 64
  | .mqUnlink m => 0 ≤ toInt m ∧ toInt m < 32

/-- What `scheduler` follows and indexes: no entry of the queue is NULL, and the
number of the running process is that of a control block. -/
def SchedulerInside (k : Kernel) : Prop :=
  (∀ fuel, rotateRun fuel k ≠ .nullEntry) ∧ (∀ i : Fin 8, i.val < k.rqSize → k.rq i ≠ none) ∧ IsPid k.self.pid

/-- Every access of a call is inside its table, and arguments out of range
change no process and no channel. -/
def Safe (k : Kernel) (c : Call) : Prop :=
  ∃ b k', body c k = some (b, k') ∧ (b = true → SchedulerInside k') ∧ (¬InRange c → k'.pcb = k.pcb ∧ k'.mq = k.mq)

/-- The condition, on the arguments and the state before the call. The queue must
not be empty when the scheduler is called, and a length beyond the buffer does no
harm only to a caller that waits on the channel already and goes on waiting. -/
def Bounded (k : Kernel) : Call → Prop
  | .kill pid sig => toInt pid ≠ 8 ∨ sig = none
  | .raise sig => ¬(k.rqSize = 0 ∨ sig = some .sigkill ∧ k.rqSize = 1 ∧ k.rq 0 = some k.current)
  | .mqOpen _ => True
  | .mqSend mqd _ len => ∃ m : Fin 32, toInt mqd = m.val ∧ ((k.mq m).msgQnum ≠ 0 → k.rqSize ≠ 0) ∧
      (len.toNat ≤ 64 ∨ (k.mq m).msgQnum ≠ 0 ∧ k.self.pst = .waiting ∧ (k.mq m).msgLspid = k.self.pid)
  | .mqReceive mqd len => ∃ m : Fin 32, toInt mqd = m.val ∧ (¬takes k m → k.rqSize ≠ 0) ∧
      (len.toNat ≤ 64 ∨ ¬takes k m ∧ k.self.pst = .waiting ∧ (k.mq m).msgLrpid = k.self.pid ∧ (k.mq m).msgQrec = 1)
  | .mqUnlink m => toInt m ≠ 32

section

variable {k : Kernel} {l : List (Fin 8)}

/-! The queue the scheduler finds. -/

theorem rotateRun_inside (h : Queue k l) (hne : l ≠ []) (fuel : Nat) : rotateRun fuel k ≠ .nullEntry := by
  induction fuel generalizing k l with
  | zero => simp [rotateRun]
  | succ fuel ih =>
    have hone := h.rotateOnce
    have hne' : l.rotate 1 ≠ [] := fun he => hne (List.rotate_eq_nil_iff.mp he)
    have hhead := hone.holds.cell_lt (i := 0) (List.length_pos_iff.mpr hne')
    unfold rotateRun
    dsimp only
    rw [hhead]
    dsimp only
    split
    · exact ih hone hne'
    · simp

theorem schedulerInside_iff (h : Numbered k l) : SchedulerInside k ↔ k.rqSize ≠ 0 := by
  rw [h.queue.size]
  constructor
  · rintro ⟨hrun, -, -⟩ hnil
    rw [List.length_eq_zero_iff.mp hnil] at h
    have hnone : (rotateOnce k).rq 0 = none := h.queue.rotateOnce.holds.cell_ge (by simp)
    apply hrun 1
    unfold rotateRun
    dsimp only
    rw [hnone]
  · intro hne
    refine ⟨rotateRun_inside h.queue fun hnil => hne (by rw [hnil]; rfl), fun i hi => ?_, h.isPid_self⟩
    rw [h.queue.size] at hi
    simp [h.queue.holds.cell_lt hi]

theorem rqSize_kill {sig : Sig} (pid : Int) (hsig : sig ≠ .sigkill) : (Core.kill k pid sig).rqSize = k.rqSize := by
  have hsignal : ∀ p, (signal k p sig).rqSize = k.rqSize := by
    intro p
    cases sig with
    | sigkill => exact absurd rfl hsig
    | sigwait => rfl
    | sigcont =>
      unfold signal
      dsimp only
      split <;> rfl
    | sigpri0 => rfl
  unfold Core.kill
  split
  · split
    · exact hsignal _
    · rfl
  · split <;> rfl

theorem rqSize_raise (h : Numbered k l) (sig : Option Sig) : (killSig k k.self.pid sig).rqSize = 0 ↔
    k.rqSize = 0 ∨ sig = some .sigkill ∧ k.rqSize = 1 ∧ k.rq 0 = some k.current := by
  by_cases hsig : sig = some .sigkill
  · subst hsig
    have hset : Queue (Core.setPst k k.current .terminated) l := h.queue.congr rfl rfl
    obtain ⟨l', hq, -, hnil⟩ := hset.rm_any k.current.val
    rw [killSig, h.self, kill_val, signal, hq.size, List.length_eq_zero_iff, hnil, h.queue.size, h.queue.holds.cells,
      List.length_eq_zero_iff, List.length_eq_one_iff]
    apply or_congr_right
    constructor
    · rintro ⟨p, rfl, hp⟩
      rw [(pcb_setPst k k.current p _).1, h.entry p List.mem_cons_self] at hp
      have hcur : p = k.current := Fin.ext (Int.ofNat_inj.mp hp)
      exact ⟨rfl, ⟨p, rfl⟩, by rw [hcur]; rfl⟩
    · rintro ⟨-, ⟨p, rfl⟩, hp⟩
      cases hp
      refine ⟨k.current, rfl, ?_⟩
      rw [(pcb_setPst k k.current _ _).1]
      exact h.self
  · have hsize : (killSig k k.self.pid sig).rqSize = k.rqSize := by
      cases sig with
      | none => rfl
      | some sig => exact rqSize_kill _ fun he => hsig (by rw [he])
    rw [hsize]
    simp [hsig]

theorem waits_same_iff (h : Numbered k l) (m : Fin 32) (x : Mqueue) :
    (Core.kill (setMq k m x) k.self.pid .sigwait).pcb = k.pcb ∧
      (Core.kill (setMq k m x) k.self.pid .sigwait).mq = k.mq ↔ k.self.pst = .waiting ∧ x = k.mq m := by
  have hpcb : (Core.kill (setMq k m x) k.self.pid .sigwait).pcb =
      Function.update k.pcb k.current { k.self with pst := .waiting } := by
    rw [h.self, kill_val]
    rfl
  rw [hpcb, kill_mq]
  apply and_congr
  · rw [Function.update_eq_self_iff]
    constructor
    · intro he
      exact (congrArg Pcb.pst he).symm
    · intro hw
      rw [← hw]
      rfl
  · exact Function.update_eq_self_iff

/-! Each call. -/

theorem safe_of_result {c : Call} {b : Bool} {k' : Kernel} (hbody : body c k = some (b, k')) :
    Safe k c ↔ (b = true → SchedulerInside k') ∧ (¬InRange c → k'.pcb = k.pcb ∧ k'.mq = k.mq) := by
  unfold Safe
  rw [hbody]
  simp

theorem not_safe_outside {c : Call} (hbody : body c k = none) : ¬Safe k c := by
  rintro ⟨b, k', he, -⟩
  rw [hbody] at he
  cases he

theorem index_cases {x : Int} : (∃ m : Fin 32, x = m.val) ∨ ¬(0 ≤ x ∧ x.toNat < 32) := by
  by_cases h : 0 ≤ x ∧ x.toNat < 32
  · refine .inl ⟨⟨x.toNat, h.2⟩, ?_⟩
    dsimp only
    omega
  · exact .inr h

theorem kill_safe_iff (h : Numbered k l) (pid : UInt32) (sig : Option Sig) :
    Safe k (.kill pid sig) ↔ Bounded k (.kill pid sig) := by
  by_cases hin : toInt pid ≠ 8 ∨ sig = none
  · have hbody : body (.kill pid sig) k = some (false, killSig k (toInt pid) sig) := by
      rw [body, bind_inside (kill_inside h.queue hin)]
      rfl
    rw [safe_of_result hbody]
    refine iff_of_true ⟨by simp, fun hout => ?_⟩ hin
    have hsame : killSig k (toInt pid) sig = k := by
      cases sig with
      | none => rfl
      | some sig =>
        unfold InRange IsPid at hout
        simp only [Option.isSome_some, true_and, Option.some.injEq, not_or] at hout
        have h8 : toInt pid ≠ 8 := hin.resolve_right (by simp)
        rw [killSig, Core.kill, if_neg (by omega), if_neg hout.2]
    rw [hsame]
    exact ⟨rfl, rfl⟩
  · refine iff_of_false (not_safe_outside ?_) hin
    push Not at hin
    obtain ⟨h8, hsig⟩ := hin
    obtain ⟨sig, rfl⟩ := Option.ne_none_iff_exists'.mp hsig
    have hout : ∀ {α : Type} (f : Fin 8 → Checked Kernel α), (index 8 8 >>= f) k = none :=
      fun f => bind_outside (index_outside (by decide))
    rw [body, h8]
    apply bind_outside
    unfold kill
    rw [if_pos (by decide)]
    cases sig with
    | sigkill => exact bind_outside (hout _)
    | sigwait => exact hout _
    | sigcont => exact hout _
    | sigpri0 => exact hout _

theorem raise_safe_iff (h : Numbered k l) (sig : Option Sig) : Safe k (.raise sig) ↔ Bounded k (.raise sig) := by
  have hbody : body (.raise sig) k = some (true, killSig k k.self.pid sig) := by
    rw [body, bind_inside get_inside, bind_inside (kill_inside h.queue (.inl h.isPid_self.ne_eight))]
    rfl
  obtain ⟨l', h'⟩ := h.killSig k.self.pid sig
  have hsame : ¬InRange (.raise sig) → (killSig k k.self.pid sig).pcb = k.pcb ∧ (killSig k k.self.pid sig).mq = k.mq := by
    intro hout
    cases sig with
    | none => exact ⟨rfl, rfl⟩
    | some sig => exact absurd rfl hout
  rw [safe_of_result hbody, schedulerInside_iff h', Ne, rqSize_raise h, Bounded]
  exact ⟨fun hs => hs.1 rfl, fun hb => ⟨fun _ => hb, hsame⟩⟩

theorem mqOpen_safe (k : Kernel) (name : UInt32) : Safe k (.mqOpen name) := by
  have hbody : body (.mqOpen name) k =
      some (false, setGpr0 (Core.mqOpen k (toInt name)).2 (toReg (Core.mqOpen k (toInt name)).1)) := by
    rw [body, bind_inside (mqOpen_inside k _)]
    rfl
  rw [safe_of_result hbody]
  exact ⟨by simp, fun hout => absurd trivial hout⟩

theorem mqUnlink_safe_iff (k : Kernel) (m : UInt32) : Safe k (.mqUnlink m) ↔ Bounded k (.mqUnlink m) := by
  by_cases hm : toInt m = 32
  · refine iff_of_false (not_safe_outside ?_) (not_not_intro hm)
    rw [body, hm]
    exact bind_outside (mqUnlink_outside k)
  · have hbody : body (.mqUnlink m) k =
        some (false, setGpr0 (Core.mqUnlink k (toInt m)).2 (toReg (Core.mqUnlink k (toInt m)).1)) := by
      rw [body, bind_inside (mqUnlink_inside hm)]
      rfl
    rw [safe_of_result hbody]
    refine iff_of_true ⟨by simp, fun hout => ?_⟩ hm
    unfold InRange at hout
    rw [Core.mqUnlink, if_neg (by omega)]
    exact ⟨rfl, rfl⟩

theorem exists_channel {x : Int} {m : Fin 32} (hm : x = m.val) {P : Fin 32 → Prop} :
    (∃ m' : Fin 32, x = m'.val ∧ P m') ↔ P m := by
  constructor
  · rintro ⟨m', hm', hP⟩
    rw [Fin.ext (Int.ofNat_inj.mp (hm.symm.trans hm'))]
    exact hP
  · intro hP
    exact ⟨m, hm, hP⟩

theorem not_bounded_channel {x : Int} (hout : ¬(0 ≤ x ∧ x.toNat < 32)) {P : Fin 32 → Prop} :
    ¬∃ m : Fin 32, x = m.val ∧ P m := by
  rintro ⟨m, hm, -⟩
  apply hout
  rw [hm]
  omega

theorem toReg_again : decide (toReg (-1) = noAddr) = true := by decide

theorem wait_safe_iff (h : Numbered k l) {c : Call} {m : Fin 32} {x : Mqueue} {r : UInt32} {len : Nat}
    (hbody : body c k = some (true, setGpr0 (Core.kill (setMq k m x) k.self.pid .sigwait) r))
    (hrange : InRange c ↔ len ≤ 64) (hs : IsPid x.msgLspid) (hr : IsPid x.msgLrpid) :
    Safe k c ↔ k.rqSize ≠ 0 ∧ (len ≤ 64 ∨ k.self.pst = .waiting ∧ x = k.mq m) := by
  obtain ⟨l', h'⟩ := (h.setMq m hs hr).kill k.self.pid .sigwait
  have hsize : (Core.kill (setMq k m x) k.self.pid .sigwait).rqSize = k.rqSize := rqSize_kill _ (by decide)
  have hinside : SchedulerInside (setGpr0 (Core.kill (setMq k m x) k.self.pid .sigwait) r) ↔ k.rqSize ≠ 0 := by
    rw [schedulerInside_iff (h'.setGpr0 r), ← hsize]
    rfl
  have hsame : (setGpr0 (Core.kill (setMq k m x) k.self.pid .sigwait) r).pcb = k.pcb ∧
      (setGpr0 (Core.kill (setMq k m x) k.self.pid .sigwait) r).mq = k.mq ↔ k.self.pst = .waiting ∧ x = k.mq m :=
    waits_same_iff h m x
  rw [safe_of_result hbody, hinside, hsame, hrange]
  simp only [forall_const, ← Classical.or_iff_not_imp_left]

theorem body_mqSend {mqd : UInt32} {msg : Nat → UInt8} {len : UInt32} {r : Int} {k' : Kernel}
    (hsend : mqSend (toInt mqd) msg len.toNat k = some (r, k')) :
    body (.mqSend mqd msg len) k = some (decide (toReg r = noAddr), setGpr0 k' (toReg r)) := by
  rw [body, bind_inside hsend]
  rfl

theorem mqSend_safe_iff (h : Numbered k l) (mqd : UInt32) (msg : Nat → UInt8) (len : UInt32) :
    Safe k (.mqSend mqd msg len) ↔ Bounded k (.mqSend mqd msg len) := by
  rw [Bounded]
  rcases index_cases (x := toInt mqd) with ⟨m, hm⟩ | hout
  · have hrange : InRange (.mqSend mqd msg len) ↔ len.toNat ≤ 64 := by
      rw [InRange, hm]
      omega
    rw [exists_channel hm]
    by_cases hnum : (k.mq m).msgQnum = 0
    · have hright : ((k.mq m).msgQnum ≠ 0 → k.rqSize ≠ 0) ∧ (len.toNat ≤ 64 ∨ (k.mq m).msgQnum ≠ 0 ∧
          k.self.pst = .waiting ∧ (k.mq m).msgLspid = k.self.pid) ↔ len.toNat ≤ 64 := by
        simp [hnum]
      rw [hright]
      by_cases hlen : len.toNat ≤ 64
      · have hsend := mqSend_inside h m msg (.inl hlen)
        have hret : (Core.mqSend k m ((List.range len.toNat).map msg)).1 = 0 := by
          rw [mqSend_ret, if_pos hnum]
        rw [← hm] at hsend
        generalize Core.mqSend k m ((List.range len.toNat).map msg) = result at hsend hret
        obtain ⟨r, k'⟩ := result
        change r = 0 at hret
        subst hret
        rw [safe_of_result (body_mqSend hsend)]
        exact iff_of_true ⟨fun hb => absurd hb (by decide), fun hin => absurd (hrange.mpr hlen) hin⟩ hlen
      · have hsend := mqSend_outside h m msg hnum hlen
        rw [← hm] at hsend
        refine iff_of_false (not_safe_outside ?_) hlen
        rw [body]
        exact bind_outside hsend
    · have hsend := mqSend_full h m msg len.toNat hnum
      rw [← hm] at hsend
      have hx : { k.mq m with msgLspid := k.self.pid } = k.mq m ↔ (k.mq m).msgLspid = k.self.pid := by
        constructor
        · intro he
          exact (congrArg Mqueue.msgLspid he).symm
        · intro he
          rw [← he]
      have hbody := body_mqSend hsend
      rw [toReg_again, sendStart] at hbody
      rw [wait_safe_iff h hbody hrange h.isPid_self (h.receiver m), hx]
      simp [hnum]
  · refine iff_of_false (not_safe_outside ?_) (not_bounded_channel hout)
    rw [body]
    exact bind_outside (bind_outside (index_outside hout))

theorem toReg_len (len : UInt32) : toReg (len.toNat : Int) = len := by
  have hlt := len.toNat_lt
  have hmod : ((len.toNat : Int) % 2 ^ 32).toNat = len.toNat := by omega
  rw [toReg, hmod, UInt32.ofNat_toNat]

theorem body_mqReceive {mqd len : UInt32} {r : Int} {x : List UInt8} {k' : Kernel}
    (hrec : mqReceive (toInt mqd) len.toNat k = some ((r, x), k')) :
    body (.mqReceive mqd len) k = some (decide (toReg r = noAddr), setGpr0 k' (toReg r)) := by
  rw [body, bind_inside hrec]
  rfl

theorem mqReceive_safe_iff (h : Numbered k l) (mqd len : UInt32) :
    Safe k (.mqReceive mqd len) ↔ Bounded k (.mqReceive mqd len) := by
  rw [Bounded]
  rcases index_cases (x := toInt mqd) with ⟨m, hm⟩ | hout
  · have hrange : InRange (.mqReceive mqd len) ↔ len.toNat ≤ 64 := by
      rw [InRange, hm]
      omega
    rw [exists_channel hm]
    by_cases ht : takes k m
    · have hright : (¬takes k m → k.rqSize ≠ 0) ∧ (len.toNat ≤ 64 ∨ ¬takes k m ∧ k.self.pst = .waiting ∧
          (k.mq m).msgLrpid = k.self.pid ∧ (k.mq m).msgQrec = 1) ↔ len.toNat ≤ 64 := by
        simp [ht]
      rw [hright]
      by_cases hlen : len.toNat ≤ 64
      · have hrec := mqReceive_inside h m len.toNat (.inl hlen)
        rw [← hm, mqReceive_take _ ht] at hrec
        have hret : decide (toReg (len.toNat : Int) = noAddr) = false := by
          rw [decide_eq_false_iff_not, toReg_len]
          intro he
          rw [he] at hlen
          exact absurd hlen (by decide)
        rw [safe_of_result (body_mqReceive hrec), hret]
        exact iff_of_true ⟨fun hb => absurd hb (by decide), fun hin => absurd (hrange.mpr hlen) hin⟩ hlen
      · have hrec := mqReceive_outside m ht hlen
        rw [← hm] at hrec
        refine iff_of_false (not_safe_outside ?_) hlen
        rw [body]
        exact bind_outside hrec
    · have hrec := mqReceive_inside h m len.toNat (.inr ht)
      rw [← hm, mqReceive_wait _ ht] at hrec
      have hx : { k.mq m with msgLrpid := k.self.pid, msgQrec := 1 } = k.mq m ↔
          (k.mq m).msgLrpid = k.self.pid ∧ (k.mq m).msgQrec = 1 := by
        constructor
        · intro he
          exact ⟨(congrArg Mqueue.msgLrpid he).symm, (congrArg Mqueue.msgQrec he).symm⟩
        · rintro ⟨hlrpid, hqrec⟩
          rw [← hlrpid, ← hqrec]
      have hbody := body_mqReceive hrec
      rw [toReg_again] at hbody
      rw [wait_safe_iff h hbody hrange (h.sender m) h.isPid_self, hx]
      simp [ht]
  · refine iff_of_false (not_safe_outside ?_) (not_bounded_channel hout)
    rw [body]
    exact bind_outside (bind_outside (index_outside hout))

end

/-- In every state reached from reset, by any calls, a call stays inside the
tables and leaves them alone on arguments out of range if and only if it meets
the condition. -/
theorem calls_inside_iff (v : Vol) (link : Link) (calls : List Svc) (k : Kernel)
    (hk : run svcStep (some (boot v link)) calls = some k) (c : Call) : Safe k c ↔ Bounded k c := by
  obtain ⟨l, h⟩ := numbered_reached v link calls hk
  cases c with
  | kill pid sig => exact kill_safe_iff h pid sig
  | raise sig => exact raise_safe_iff h sig
  | mqOpen name => exact iff_of_true (mqOpen_safe k name) trivial
  | mqSend mqd msg len => exact mqSend_safe_iff h mqd msg len
  | mqReceive mqd len => exact mqReceive_safe_iff h mqd len
  | mqUnlink m => exact mqUnlink_safe_iff k m

/-- A message of three bytes after a fork, and signals to processes there are
not. -/
theorem calls_inside_fork : ∃ k, run svcStep (some (boot fullVol noLink)) [.trap .fork] = some k ∧
    Safe k (.mqSend 31 (fun _ => 7) 3) ∧ Safe k (.kill 10 (some .sigkill)) ∧ Safe k (.raise (some .sigkill)) := by
  have h := calls_inside_iff fullVol noLink [.trap .fork] _ rfl
  refine ⟨_, rfl, (h _).mpr ⟨31, rfl, fun hnum => absurd rfl hnum, .inl (by decide)⟩, (h _).mpr (.inl (by decide)),
    (h _).mpr ?_⟩
  rintro (hsize | ⟨-, hsize, -⟩)
  · exact absurd hsize (by decide)
  · exact absurd hsize (by decide)

/-- The first index behind each table, a channel below zero and a length beyond
the buffer, right after reset. -/
theorem calls_leave_tables : ∃ k, run svcStep (some (boot fullVol noLink)) [] = some k ∧
    ¬Safe k (.kill 8 (some .sigkill)) ∧ ¬Safe k (.mqUnlink 32) ∧ ¬Safe k (.mqSend 0xFFFFFFFF (fun _ => 0) 4) ∧
    ¬Safe k (.mqReceive 32 4) ∧ ¬Safe k (.mqSend 0 (fun _ => 0) 65) := by
  have h := numbered_boot fullVol noLink
  refine ⟨_, rfl, ?_, ?_, ?_, ?_, ?_⟩
  · rw [kill_safe_iff h]
    rintro (hpid | hsig)
    · exact hpid (by decide)
    · cases hsig
  · rw [mqUnlink_safe_iff]
    exact not_not_intro (by decide)
  · rw [mqSend_safe_iff h]
    exact not_bounded_channel (by decide)
  · rw [mqReceive_safe_iff h]
    exact not_bounded_channel (by decide)
  · rw [mqSend_safe_iff h]
    rintro ⟨m, -, -, hlen | ⟨hnum, -⟩⟩
    · exact absurd hlen (by decide)
    · exact hnum rfl

end ArmKernel.Core.Calls
