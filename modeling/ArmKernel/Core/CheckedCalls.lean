import ArmKernel.Core.Numbering
import ArmKernel.Lib.Checked

/-! The calls on processes and channels from the registers on, with every access
to `pcb`, `mq` and `msg_qbuf` checked. -/
namespace ArmKernel.Core.Calls

open Lib Lib.Bytes Lib.Checked Lib.Run Lib.Slots Fs

/-- A register read as an `int`. -/
def toInt (x : UInt32) : Int := x.toInt32.toInt

def setPst (pid : Int) (s : Pst) : Checked Kernel Unit := do
  let p ← index 8 pid
  modify fun k => Core.setPst k p s

/-- One round of the scan of `rq_rm`. -/
def rqRmStep (pid : Int) (p : Fin 8) : Checked Kernel Unit := do
  let k ← get
  if p.val < k.rqSize then
    let q ← deref (k.rq p)
    if (k.pcb q).pid = pid then
      modify fun k => { k with rq := rqClose k.rq k.rqSize p.val, rqSize := k.rqSize - 1 }

def rqRm (pid : Int) : Checked Kernel Unit := (List.finRange 8).forM (rqRmStep pid)

def kill (pid : Int) (sig : Option Sig) : Checked Kernel Unit := do
  if 0 ≤ pid ∧ pid ≤ 8 then
    match sig with
    | some .sigkill =>
      setPst pid .terminated
      rqRm pid
    | some .sigwait => setPst pid .waiting
    | some .sigcont =>
      let p ← index 8 pid
      if ((← get).pcb p).pst = .waiting then setPst pid .executing
    | some .sigpri0 =>
      let p ← index 8 pid
      modify fun k => k.setPcb p { k.pcb p with defp := 0, prio := 0 }
    | none => pure ()
  else if pid = 9 ∧ sig = some .sigkill then
    (List.range' 1 7).forM fun p => setPst p .terminated

/-- The first channel from `i` on that passes the test. -/
def findMq (test : Mqueue → Bool) : List Nat → Checked Kernel (Option (Fin 32))
  | [] => pure none
  | i :: rest => do
    let m ← index 32 i
    if test ((← get).mq m) then pure (some m) else findMq test rest

def mqOpen (name : Int) : Checked Kernel Int := do
  match ← findMq (fun x => x.msgQname == name) (List.range 32) with
  | some m => pure m.val
  | none =>
    match ← findMq (fun x => x.msgQname == 0) (List.range 32) with
    | some m =>
      modify fun k => setMq k m { k.mq m with
        msgQname := name
        msgQnum := 0
        msgQrec := 0
        msgLspid := 0
        msgLrpid := 0 }
      pure m.val
    | none => pure (-1)

def mqUnlink (m : Int) : Checked Kernel Int := do
  if 0 ≤ m ∧ m ≤ 32 then
    let i ← index 32 m
    modify fun k => setMq k i { k.mq i with msgQname := 0 }
    pure 0
  else pure (-1)

/-- `mq_send` from the test for space on the channel on; `msg` is the memory at
`msg_ptr`. -/
def mqPut (m : Fin 32) (msg : Nat → UInt8) (len : Nat) : Checked Kernel Int := do
  if ((← get).mq m).msgQnum = 0 then
    span 64 len
    modify fun k => setMq k m { k.mq m with
      msgQnum := (k.mq m).msgQnum + 1
      msgQbuf := putBytes (k.mq m).msgQbuf 0 ((List.range len).map msg) }
    if ((← get).mq m).msgQrec = 1 then
      kill ((← get).mq m).msgLrpid (some .sigcont)
      modify fun k => setMq k m { k.mq m with msgQrec := 0 }
    pure 0
  else pure (-1)

def mqSend (mqd : Int) (msg : Nat → UInt8) (len : Nat) : Checked Kernel Int := do
  let m ← index 32 mqd
  modify fun k => setMq k m { k.mq m with msgLspid := k.self.pid }
  kill (← get).self.pid (some .sigwait)
  mqPut m msg len

/-- `mq_receive` from the test for a message on: result and the bytes copied to
the caller. -/
def mqTake (m : Fin 32) (len : Nat) : Checked Kernel (Int × List UInt8) := do
  let k ← get
  if 0 < (k.mq m).msgQnum ∧ (k.mq m).msgLspid ≠ k.self.pid then
    modify fun k => setMq k m { k.mq m with msgQnum := (k.mq m).msgQnum - 1 }
    span 64 len
    let x := (List.range len).map (byte ((← get).mq m).msgQbuf)
    kill ((← get).mq m).msgLspid (some .sigcont)
    pure (len, x)
  else
    modify fun k => setMq k m { k.mq m with msgQrec := 1 }
    kill (← get).self.pid (some .sigwait)
    pure (-1, [])

def mqReceive (mqd : Int) (len : Nat) : Checked Kernel (Int × List UInt8) := do
  let m ← index 32 mqd
  modify fun k => setMq k m { k.mq m with msgLrpid := k.self.pid }
  mqTake m len

/-! The handler. -/

/-- The calls with their registers. A register that holds no number of a signal
is `none`, and `msg` is the memory at `gpr[ 1 ]`. -/
inductive Call where
  | kill (pid : UInt32) (sig : Option Sig)
  | raise (sig : Option Sig)
  | mqOpen (name : UInt32)
  | mqSend (mqd : UInt32) (msg : Nat → UInt8) (len : UInt32)
  | mqReceive (mqd len : UInt32)
  | mqUnlink (m : UInt32)

/-- A call up to that of `scheduler`; the result is whether that is made. -/
def body : Call → Checked Kernel Bool
  | .kill pid sig => do
    kill (toInt pid) sig
    pure false
  | .raise sig => do
    kill (← get).self.pid sig
    pure true
  | .mqOpen name => do
    let r ← mqOpen (toInt name)
    modify fun k => setGpr0 k (toReg r)
    pure false
  | .mqSend mqd msg len => do
    let r ← mqSend (toInt mqd) msg len.toNat
    modify fun k => setGpr0 k (toReg r)
    pure (toReg r = noAddr)
  | .mqReceive mqd len => do
    let (r, _) ← mqReceive (toInt mqd) len.toNat
    modify fun k => setGpr0 k (toReg r)
    pure (toReg r = noAddr)
  | .mqUnlink m => do
    let r ← mqUnlink (toInt m)
    modify fun k => setGpr0 k (toReg r)
    pure false

/-! Inside, the calls are those of the model. -/

section

variable {k : Kernel} {l : List (Fin 8)}

theorem setPst_inside (p : Fin 8) (s : Pst) : setPst p.val s k = some ((), Core.setPst k p s) := by
  rw [setPst, bind_inside (index_val p)]
  rfl

theorem rqRmStep_inside (h : ∃ l, Queue k l) (pid : Int) (p : Fin 8) :
    rqRmStep pid p k = some ((), Core.rqRmStep pid k p) := by
  obtain ⟨l, h⟩ := h
  rw [rqRmStep, bind_inside get_inside]
  unfold Core.rqRmStep
  by_cases hlt : p.val < k.rqSize
  · have hcell := h.holds.cell_lt (by rw [← h.size]; exact hlt)
    rw [if_pos hlt, if_pos hlt, hcell]
    have hderef : ∀ q, (deref (some q) : Checked Kernel (Fin 8)) k = some (q, k) := fun _ => rfl
    dsimp only
    rw [bind_inside (hderef _)]
    split <;> rfl
  · rw [if_neg hlt, if_neg hlt]
    rfl

theorem rqRm_inside (h : Queue k l) (pid : Int) : rqRm pid k = some ((), Core.rqRm k pid) := by
  apply forM_inside (I := fun k => ∃ l, Queue k l)
  · intro i _ k h
    refine ⟨rqRmStep_inside h pid i, ?_⟩
    obtain ⟨l, h⟩ := h
    rcases h.rmStep_or pid i with ⟨q, -, -, hstep⟩ | ⟨-, hstep⟩
    · exact ⟨_, hstep⟩
    · rw [hstep]
      exact ⟨l, h⟩
  · exact ⟨l, h⟩

theorem signal_inside (h : Queue k l) (p : Fin 8) (sig : Option Sig) :
    kill p.val sig k = some ((), killSig k p.val sig) := by
  have hp : (0 : Int) ≤ p.val ∧ (p.val : Int) ≤ 8 := by omega
  unfold kill
  rw [if_pos hp]
  cases sig with
  | none => rfl
  | some sig =>
    rw [killSig, kill_val]
    cases sig with
    | sigkill =>
      have hset : Queue (Core.setPst k p .terminated) l := h.congr rfl rfl
      dsimp only
      rw [bind_inside (setPst_inside p .terminated)]
      exact rqRm_inside hset p.val
    | sigwait => exact setPst_inside p .waiting
    | sigcont =>
      dsimp only
      rw [bind_inside (index_val p), bind_inside get_inside, signal]
      split
      · exact setPst_inside p .executing
      · rfl
    | sigpri0 =>
      dsimp only
      rw [bind_inside (index_val p)]
      rfl

theorem foldl_setPst (ps : List (Fin 8)) (k : Kernel) (s : Pst) : ps.foldl (fun k p => Core.setPst k p s) k =
    { k with pcb := fun p => if p ∈ ps then { k.pcb p with pst := s } else k.pcb p } := by
  induction ps generalizing k with
  | nil => simp
  | cons q ps ih =>
    rw [List.foldl_cons, ih]
    simp only [Core.setPst, Kernel.setPcb]
    congr 1
    funext p
    by_cases hp : p = q
    · subst hp
      simp
    · simp [hp]

theorem killAll_inside (k : Kernel) : kill 9 (some .sigkill) k = some ((), Core.kill k 9 .sigkill) := by
  have hround : ∀ i ∈ List.range' 1 7, ∀ s : Kernel, True →
      setPst (i : Nat) .terminated s = some ((), Core.setPst s (Fin.ofNat 8 i) .terminated) ∧ True := by
    intro i hi s _
    have hlt : i < 8 := by
      have := List.mem_range'_1.mp hi
      omega
    have hval : ((Fin.ofNat 8 i).val : Int) = i := by
      rw [Fin.val_ofNat, Nat.mod_eq_of_lt hlt]
    rw [← hval]
    exact ⟨setPst_inside _ _, trivial⟩
  unfold kill
  rw [if_neg (by decide), if_pos (by decide)]
  refine (forM_inside (I := fun _ => True) hround trivial).trans ?_
  unfold Core.kill
  rw [if_neg (by decide), if_pos (by decide)]
  have hmem : ∀ p : Fin 8, p ∈ (List.range' 1 7).map (Fin.ofNat 8) ↔ p ≠ 0 := by decide
  have hfold := foldl_setPst ((List.range' 1 7).map (Fin.ofNat 8)) k .terminated
  rw [List.foldl_map] at hfold
  rw [hfold]
  simp only [hmem, ite_not]

theorem kill_inside (h : Queue k l) {pid : Int} {sig : Option Sig} (hpid : pid ≠ 8 ∨ sig = none) :
    kill pid sig k = some ((), killSig k pid sig) := by
  by_cases hin : IsPid pid
  · obtain ⟨h0, h8⟩ := hin
    have hval : pid = ((⟨pid.toNat, by omega⟩ : Fin 8).val : Int) := by
      dsimp only
      omega
    rw [hval]
    exact signal_inside h _ sig
  · unfold IsPid at hin
    cases sig with
    | none =>
      unfold kill
      split
      · rfl
      · rw [if_neg (by simp)]
        rfl
    | some sig =>
      have hout : ¬(0 ≤ pid ∧ pid ≤ 8) := by
        rcases hpid with hpid | hpid
        · omega
        · cases hpid
      by_cases hall : pid = 9 ∧ sig = .sigkill
      · obtain ⟨rfl, rfl⟩ := hall
        exact killAll_inside k
      · unfold kill
        rw [if_neg hout, if_neg (by simpa using hall), killSig]
        unfold Core.kill
        rw [if_neg hout, if_neg hall]
        rfl

theorem findMq_inside (test : Mqueue → Bool) (ms : List (Fin 32)) :
    findMq test (ms.map Fin.val) k = some (ms.find? (fun m => test (k.mq m)), k) := by
  induction ms with
  | nil => rfl
  | cons m ms ih =>
    rw [List.map_cons, findMq, bind_inside (index_val m), bind_inside get_inside, List.find?_cons]
    cases test (k.mq m) with
    | true => rfl
    | false => exact ih

theorem mqOpen_inside (k : Kernel) (name : Int) : mqOpen name k = some (Core.mqOpen k name) := by
  have hrange : List.range 32 = (List.finRange 32).map Fin.val := by decide
  unfold mqOpen Core.mqOpen
  rw [hrange, bind_inside (findMq_inside _ _)]
  cases (List.finRange 32).find? fun i => (k.mq i).msgQname == name with
  | some m => rfl
  | none =>
    dsimp only
    rw [bind_inside (findMq_inside _ _)]
    cases (List.finRange 32).find? fun i => (k.mq i).msgQname == 0 <;> rfl

theorem mqUnlink_inside {m : Int} (h : m ≠ 32) : mqUnlink m k = some (Core.mqUnlink k m) := by
  unfold mqUnlink Core.mqUnlink
  split
  · next hm =>
    have hin : 0 ≤ m ∧ m.toNat < 32 := by omega
    rw [bind_inside (index_inside hin), dif_pos hin.2]
    rfl
  · rfl

theorem mqUnlink_outside (k : Kernel) : mqUnlink 32 k = none := by
  unfold mqUnlink
  rw [if_pos (by decide), bind_outside (index_outside (by decide))]

/-- A sender up to the test for space. -/
def sendStart (k : Kernel) (m : Fin 32) : Kernel :=
  Core.kill (setMq k m { k.mq m with msgLspid := k.self.pid }) k.self.pid .sigwait

theorem sendStart_qnum (k : Kernel) (m : Fin 32) : ((sendStart k m).mq m).msgQnum = (k.mq m).msgQnum := by
  rw [sendStart, kill_mq, setMq_mq]

theorem numbered_sendStart (h : Numbered k l) (m : Fin 32) : ∃ l', Numbered (sendStart k m) l' :=
  (h.setMq m (x := { k.mq m with msgLspid := k.self.pid }) h.isPid_self (h.receiver m)).kill _ _

theorem mqSend_start (h : Numbered k l) (m : Fin 32) (msg : Nat → UInt8) (len : Nat) :
    mqSend m.val msg len k = mqPut m msg len (sendStart k m) := by
  have hset : Queue (setMq k m { k.mq m with msgLspid := k.self.pid }) l := h.queue.congr rfl rfl
  have hkill : kill k.self.pid (some .sigwait) (setMq k m { k.mq m with msgLspid := k.self.pid }) =
      some ((), sendStart k m) := kill_inside hset (.inl h.isPid_self.ne_eight)
  rw [mqSend, bind_inside (index_val m), bind_inside (modify_inside _), bind_inside get_inside, self_setMq,
    bind_inside hkill]

theorem mqSend_full (h : Numbered k l) (m : Fin 32) (msg : Nat → UInt8) (len : Nat) (hnum : (k.mq m).msgQnum ≠ 0) :
    mqSend m.val msg len k = some (-1, sendStart k m) := by
  rw [mqSend_start h, mqPut, bind_inside get_inside, if_neg (by rw [sendStart_qnum]; exact hnum)]
  rfl

theorem mqSend_outside (h : Numbered k l) (m : Fin 32) (msg : Nat → UInt8) {len : Nat} (hnum : (k.mq m).msgQnum = 0)
    (hlen : ¬len ≤ 64) : mqSend m.val msg len k = none := by
  rw [mqSend_start h, mqPut, bind_inside get_inside, if_pos (by rw [sendStart_qnum]; exact hnum),
    bind_outside (span_outside hlen)]

theorem mqPut_inside (h : Numbered k l) (m : Fin 32) (msg : Nat → UInt8) {len : Nat}
    (hlen : len ≤ 64 ∨ (k.mq m).msgQnum ≠ 0) :
    mqPut m msg len k = some (
      if (k.mq m).msgQnum = 0 then
        let k := setMq k m { k.mq m with
          msgQnum := (k.mq m).msgQnum + 1
          msgQbuf := putBytes (k.mq m).msgQbuf 0 ((List.range len).map msg) }
        if (k.mq m).msgQrec = 1 then
          let k := Core.kill k (k.mq m).msgLrpid .sigcont
          (0, setMq k m { k.mq m with msgQrec := 0 })
        else (0, k)
      else (-1, k)) := by
  rw [mqPut, bind_inside get_inside]
  by_cases hnum : (k.mq m).msgQnum = 0
  · rw [if_pos hnum, if_pos hnum, bind_inside (span_inside (hlen.resolve_right (not_not_intro hnum))),
      bind_inside (modify_inside _), bind_inside get_inside]
    have hset := h.setMq m (x := { k.mq m with
      msgQnum := (k.mq m).msgQnum + 1, msgQbuf := putBytes (k.mq m).msgQbuf 0 ((List.range len).map msg) })
      (h.sender m) (h.receiver m)
    dsimp only
    generalize setMq k m { k.mq m with
      msgQnum := (k.mq m).msgQnum + 1
      msgQbuf := putBytes (k.mq m).msgQbuf 0 ((List.range len).map msg) } = k₁ at hset ⊢
    by_cases hwait : (k₁.mq m).msgQrec = 1
    · have hkill : kill (k₁.mq m).msgLrpid (some .sigcont) k₁ =
          some ((), Core.kill k₁ (k₁.mq m).msgLrpid .sigcont) :=
        kill_inside hset.queue (.inl (hset.receiver m).ne_eight)
      rw [if_pos hwait, if_pos hwait, bind_inside get_inside, bind_inside hkill]
      rfl
    · rw [if_neg hwait, if_neg hwait]
      rfl
  · rw [if_neg hnum, if_neg hnum]
    rfl

theorem mqSend_inside (h : Numbered k l) (m : Fin 32) (msg : Nat → UInt8) {len : Nat}
    (hlen : len ≤ 64 ∨ (k.mq m).msgQnum ≠ 0) :
    mqSend m.val msg len k = some (Core.mqSend k m ((List.range len).map msg)) := by
  obtain ⟨l₁, h₁⟩ := numbered_sendStart h m
  rw [mqSend_start h, mqPut_inside h₁ m msg (by rw [sendStart_qnum]; exact hlen)]
  rfl

theorem mqTake_take (h : Numbered k l) (m : Fin 32) {len : Nat} (ht : takes k m) (hlen : len ≤ 64) :
    mqTake m len k = some (((len : Int), (List.range len).map (byte (k.mq m).msgQbuf)),
      Core.kill (setMq k m { k.mq m with msgQnum := (k.mq m).msgQnum - 1 }) (k.mq m).msgLspid .sigcont) := by
  have hset : Queue (setMq k m { k.mq m with msgQnum := (k.mq m).msgQnum - 1 }) l := h.queue.congr rfl rfl
  have hkill : kill (k.mq m).msgLspid (some .sigcont) (setMq k m { k.mq m with msgQnum := (k.mq m).msgQnum - 1 }) =
      some ((), _) := kill_inside hset (.inl (h.sender m).ne_eight)
  unfold takes at ht
  rw [mqTake, bind_inside get_inside, if_pos ht, bind_inside (modify_inside _), bind_inside (span_inside hlen),
    bind_inside get_inside, bind_inside get_inside, setMq_mq]
  dsimp only at hkill ⊢
  rw [bind_inside hkill]
  rfl

theorem mqTake_wait (h : Numbered k l) (m : Fin 32) (len : Nat) (ht : ¬takes k m) :
    mqTake m len k = some ((-1, []),
      Core.kill (setMq k m { k.mq m with msgQrec := 1 }) k.self.pid .sigwait) := by
  have hset : Queue (setMq k m { k.mq m with msgQrec := 1 }) l := h.queue.congr rfl rfl
  have hkill : kill k.self.pid (some .sigwait) (setMq k m { k.mq m with msgQrec := 1 }) = some ((), _) :=
    kill_inside hset (.inl h.isPid_self.ne_eight)
  unfold takes at ht
  rw [mqTake, bind_inside get_inside, if_neg ht, bind_inside (modify_inside _), bind_inside get_inside, self_setMq,
    bind_inside hkill]
  rfl

theorem mqReceive_start (m : Fin 32) (len : Nat) :
    mqReceive m.val len k = mqTake m len (setMq k m { k.mq m with msgLrpid := k.self.pid }) := by
  rw [mqReceive, bind_inside (index_val m), bind_inside (modify_inside _)]

theorem takes_start (k : Kernel) (m : Fin 32) :
    takes (setMq k m { k.mq m with msgLrpid := k.self.pid }) m ↔ takes k m := by
  unfold takes
  rw [setMq_mq, self_setMq]

theorem numbered_receiveStart (h : Numbered k l) (m : Fin 32) :
    Numbered (setMq k m { k.mq m with msgLrpid := k.self.pid }) l := h.setMq m (h.sender m) h.isPid_self

theorem mqReceive_outside (m : Fin 32) {len : Nat} (ht : takes k m) (hlen : ¬len ≤ 64) : mqReceive m.val len k = none := by
  have hstart := (takes_start k m).mpr ht
  unfold takes at hstart
  rw [mqReceive_start, mqTake, bind_inside get_inside, if_pos hstart, bind_inside (modify_inside _),
    bind_outside (span_outside hlen)]

theorem mqReceive_inside (h : Numbered k l) (m : Fin 32) (len : Nat) (hlen : len ≤ 64 ∨ ¬takes k m) :
    mqReceive m.val len k =
      some (((Core.mqReceive k m len).1, (Core.mqReceive k m len).2.1), (Core.mqReceive k m len).2.2) := by
  have h₁ := numbered_receiveStart h m
  rw [mqReceive_start]
  by_cases ht : takes k m
  · rw [mqTake_take h₁ m ((takes_start k m).mpr ht) (hlen.resolve_right (not_not_intro ht)), mqReceive_take len ht,
      setMq_mq, setMq_setMq]
  · rw [mqTake_wait h₁ m len (mt (takes_start k m).mp ht), mqReceive_wait len ht, setMq_mq, setMq_setMq, self_setMq]

end

end ArmKernel.Core.Calls
