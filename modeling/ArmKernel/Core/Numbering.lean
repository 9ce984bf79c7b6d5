import ArmKernel.Core.Turns

/-! Process numbers over whole runs. Whatever calls are made, the entries of the
ready queue and the running process carry their own indices, and the numbers a
channel stores for its last sender and receiver are indices of processes. -/
namespace ArmKernel.Core

open Lib Lib.Bytes Lib.Run Lib.Slots Fs

/-! The channels are left alone by the calls on files. -/

section

variable (k : Kernel)

theorem mq_openFile (path : CStr) (oflag : OFlag) : (openFile k path oflag).2.mq = k.mq := by
  have hait : ∀ (k : Kernel) (ino : UInt32), (getAIT k ino).2.mq = k.mq := by
    intro k ino
    rcases getAIT_cases k ino with ⟨he, -⟩ | ⟨s, he, -⟩ | ⟨s, he, -⟩ <;> rw [he]
  rcases hv : resolve k.vol path oflag with ⟨ino, v⟩
  rcases openFile_cases k path oflag hv rfl with ⟨-, he⟩ | ⟨i, -, -, he⟩ | ⟨i, -, -, he⟩ |
    ⟨i, s, o, -, -, -, -, he⟩
  · rw [he]
  · rw [he]
  · rw [he]
    exact hait _ ino
  · rw [he]
    exact hait _ ino

theorem mq_close (fd : Int) : (close k fd).2.mq = k.mq := by
  unfold close
  split
  · rfl
  · dsimp only [Kernel.setPcb]
    split
    · unfold unlinkAit
      dsimp only
      split <;> rfl
    · rfl

theorem mq_fread (fd : Int) (n : UInt32) : (fread k fd n).2.2.mq = k.mq := by
  obtain ⟨of', he⟩ := fread_kernel k fd n
  rw [he]

theorem mq_fwrite (fd : Int) (data : Nat → UInt8) (n : UInt32) : (fwrite k fd data n).2.mq = k.mq := by
  unfold fwrite
  split
  · rfl
  · split <;> rfl

theorem mq_wipe : (wipe k).mq = k.mq := by
  have hcreate : ∀ (k : Kernel) (name : CStr) (entry : UInt32), (createObjFile k name entry).mq = k.mq := by
    intro k name entry
    unfold createObjFile
    dsimp only
    rw [mq_close, mq_fwrite, mq_fwrite, mq_openFile]
  have hrun : ∀ (is : List (Fin 8)) (k : Kernel),
      (is.foldl (fun k i => createObjFile k (objFiles.getD i.val []) (k.link.entry i)) k).mq = k.mq := by
    intro is
    induction is with
    | nil => exact fun _ => rfl
    | cons i rest ih =>
      intro k
      rw [List.foldl_cons, ih, hcreate]
  exact hrun _ _

theorem mq_exec (path : CStr) : (exec k path).2.mq = k.mq := by
  have hread : ∀ entry priority, (getProgramEntry k path entry priority).2.2.2.mq = k.mq := by
    intro entry priority
    unfold getProgramEntry
    split
    · dsimp only
      split
      · rw [mq_close, mq_fread, mq_fread, mq_openFile]
      · exact mq_openFile k _ _
    · rfl
  unfold exec
  dsimp only
  split
  · exact hread _ _
  · exact hread _ _

end

/-- The last sender and the last receiver of every channel stay. -/
def SameSenders (k k' : Kernel) : Prop :=
  ∀ m, (k'.mq m).msgLspid = (k.mq m).msgLspid ∧ (k'.mq m).msgLrpid = (k.mq m).msgLrpid

theorem sameSenders_of_mq {k k' : Kernel} (h : k'.mq = k.mq) : SameSenders k k' := by
  intro m
  rw [h]
  exact ⟨rfl, rfl⟩

theorem sameSenders_setMq {k : Kernel} {m : Fin 32} {x : Mqueue} (hs : x.msgLspid = (k.mq m).msgLspid)
    (hr : x.msgLrpid = (k.mq m).msgLrpid) : SameSenders k (setMq k m x) := by
  intro j
  by_cases hj : j = m
  · subst hj
    rw [setMq_mq]
    exact ⟨hs, hr⟩
  · simp [setMq, hj]

theorem sameSenders_fsCall (k : Kernel) (c : FsCall) : SameSenders k (fsCall k c).2.2 := by
  cases c with
  | console n => exact sameSenders_of_mq rfl
  | write fd data n => exact sameSenders_of_mq (mq_fwrite k fd data n)
  | read fd n => exact sameSenders_of_mq (mq_fread k fd n)
  | lseek fd offset whence =>
    obtain ⟨of', he⟩ := lseek_kernel k fd offset whence
    apply sameSenders_of_mq
    unfold fsCall
    dsimp only
    rw [he]
  | wipe => exact sameSenders_of_mq (mq_wipe k)
  | «open» path oflag => exact sameSenders_of_mq (mq_openFile k path oflag)
  | close fd => exact sameSenders_of_mq (mq_close k fd)
  | mkdir name =>
    change SameSenders k (mkdir k name).2
    unfold mkdir
    split <;> exact sameSenders_of_mq rfl
  | cd path =>
    change SameSenders k (cd k path).2
    unfold cd
    dsimp only
    split <;> exact sameSenders_of_mq rfl
  | unlink name =>
    change SameSenders k (unlink k name).2
    unfold unlink
    dsimp only
    split
    · exact sameSenders_of_mq rfl
    · split <;> exact sameSenders_of_mq rfl
  | mv name path =>
    change SameSenders k (mv k name path).2
    unfold mv
    dsimp only
    split
    · exact sameSenders_of_mq rfl
    · split
      · exact sameSenders_of_mq rfl
      · split <;> exact sameSenders_of_mq rfl
  | cp src dest =>
    change SameSenders k (cp k src dest).2
    unfold cp
    dsimp only
    split
    · exact sameSenders_of_mq rfl
    · split
      · exact sameSenders_of_mq rfl
      · split <;> exact sameSenders_of_mq rfl
  | tell fd => exact sameSenders_of_mq rfl
  | mqUnlink m =>
    change SameSenders k (mqUnlink k m).2
    unfold mqUnlink
    split
    · split
      · exact sameSenders_setMq rfl rfl
      · exact sameSenders_of_mq rfl
    · exact sameSenders_of_mq rfl
  | other => exact sameSenders_of_mq rfl

/-! `rq_rm` on a queue in which a process may stand twice. -/

section

variable {k k' : Kernel} {l : List (Fin 8)}

theorem Queue.rm_rest (h : Queue k l) (pid : Int) (is : List (Fin 8)) (his : ∀ i ∈ is, 0 < i.val) :
    ∃ l', Queue (is.foldl (rqRmStep pid) k) l' ∧ l' ⊆ l ∧ (l' = [] ↔ l = []) := by
  induction is generalizing k l with
  | nil => exact ⟨l, h, List.Subset.refl l, Iff.rfl⟩
  | cons i rest ih =>
    have hrest : ∀ j ∈ rest, 0 < j.val := fun j hj => his j (List.mem_cons_of_mem i hj)
    rw [List.foldl_cons]
    rcases h.rmStep_or pid i with ⟨q, hq, -, hstep⟩ | ⟨-, hstep⟩
    · obtain ⟨l', hq', hsub, hnil⟩ := ih hstep hrest
      refine ⟨l', hq', List.Subset.trans hsub List.eraseIdx_subset, hnil.trans ?_⟩
      have hlen := List.length_eraseIdx_of_lt (List.getElem?_eq_some_iff.mp hq).1
      have hlt := (List.getElem?_eq_some_iff.mp hq).1
      have hpos := his i List.mem_cons_self
      rw [← List.length_eq_zero_iff, ← List.length_eq_zero_iff, hlen]
      omega
    · rw [hstep]
      exact ih h hrest

theorem Queue.rm_any (h : Queue k l) (pid : Int) : ∃ l', Queue (rqRm k pid) l' ∧ l' ⊆ l ∧
    (l' = [] ↔ l = [] ∨ ∃ p, l = [p] ∧ (k.pcb p).pid = pid) := by
  have hpos : ∀ i ∈ (List.finRange 7).map Fin.succ, 0 < i.val := by
    intro i hi
    obtain ⟨j, -, rfl⟩ := List.mem_map.mp hi
    exact Nat.succ_pos _
  unfold rqRm
  rw [List.finRange_succ, List.foldl_cons]
  rcases h.rmStep_or pid 0 with ⟨q, hq, hpid, hstep⟩ | ⟨hno, hstep⟩
  · obtain ⟨l', hq', hsub, hnil⟩ := hstep.rm_rest pid _ hpos
    refine ⟨l', hq', List.Subset.trans hsub List.eraseIdx_subset, hnil.trans ?_⟩
    cases l with
    | nil => cases hq
    | cons x rest =>
      cases hq
      simp only [Fin.val_zero, List.eraseIdx_cons_zero, List.cons_ne_nil, false_or, List.cons.injEq]
      constructor
      · rintro rfl
        exact ⟨q, ⟨rfl, rfl⟩, hpid⟩
      · rintro ⟨p, ⟨-, hrest⟩, -⟩
        exact hrest
  · obtain ⟨l', hq', hsub, hnil⟩ := h.rm_rest pid _ hpos
    rw [hstep]
    refine ⟨l', hq', hsub, hnil.trans ?_⟩
    constructor
    · exact .inl
    · rintro (hl | ⟨p, rfl, hp⟩)
      · exact hl
      · exact absurd hp (hno p rfl)

/-! The invariant. -/

def IsPid (x : Int) : Prop := 0 ≤ x ∧ x < 8

theorem IsPid.ne_eight {x : Int} (h : IsPid x) : x ≠ 8 := by
  have := h.2
  omega

theorem isPid_val (p : Fin 8) : IsPid p.val := ⟨by omega, by omega⟩

structure Numbered (k : Kernel) (l : List (Fin 8)) : Prop where
  queue : Queue k l
  entry : ∀ p ∈ l, (k.pcb p).pid = p.val
  self : k.self.pid = k.current.val
  sender : ∀ m, IsPid (k.mq m).msgLspid
  receiver : ∀ m, IsPid (k.mq m).msgLrpid

theorem Numbered.of_same (h : Numbered k l) (hrq : k'.rq = k.rq) (hsize : k'.rqSize = k.rqSize)
    (hcur : k'.current = k.current) (hpid : ∀ p, (k'.pcb p).pid = (k.pcb p).pid) (hmq : SameSenders k k') :
    Numbered k' l := by
  refine ⟨h.queue.congr hrq hsize, fun p hp => ?_, ?_, fun m => ?_, fun m => ?_⟩
  · rw [hpid, h.entry p hp]
  · rw [Kernel.self, hcur, hpid]
    exact h.self
  · rw [(hmq m).1]
    exact h.sender m
  · rw [(hmq m).2]
    exact h.receiver m

theorem Numbered.sameProcs (h : Numbered k l) (hs : SameProcs k k') (hmq : SameSenders k k') : Numbered k' l :=
  h.of_same hs.rq hs.size hs.current (fun p => (hs.pcb p).1) hmq

theorem Numbered.setGpr0 (h : Numbered k l) (x : UInt32) : Numbered (setGpr0 k x) l :=
  h.of_same rfl rfl rfl (fun _ => rfl) (sameSenders_of_mq rfl)

theorem Numbered.setPcb (h : Numbered k l) (p : Fin 8) {x : Pcb} (hx : x.pid = (k.pcb p).pid) :
    Numbered (k.setPcb p x) l := by
  refine h.of_same rfl rfl rfl (fun q => ?_) (sameSenders_of_mq rfl)
  by_cases hq : q = p
  · subst hq
    simpa [Kernel.setPcb] using hx
  · simp [Kernel.setPcb, hq]

theorem Numbered.setPst (h : Numbered k l) (p : Fin 8) (s : Pst) : Numbered (setPst k p s) l := h.setPcb p rfl

theorem Numbered.rqRm (h : Numbered k l) (pid : Int) : ∃ l', Numbered (rqRm k pid) l' := by
  obtain ⟨l', hq, hsub, -⟩ := h.queue.rm_any pid
  obtain ⟨rq, n, he⟩ := rqRm_eq k pid
  refine ⟨l', hq, fun p hp => ?_, ?_, fun m => ?_, fun m => ?_⟩
  · rw [he]
    exact h.entry p (hsub hp)
  · rw [he]
    exact h.self
  · rw [he]
    exact h.sender m
  · rw [he]
    exact h.receiver m

theorem Numbered.signal (h : Numbered k l) (p : Fin 8) (sig : Sig) : ∃ l', Numbered (signal k p sig) l' := by
  cases sig with
  | sigkill => exact (h.setPst p .terminated).rqRm p.val
  | sigwait => exact ⟨l, h.setPst p .waiting⟩
  | sigcont =>
    rw [Core.signal]
    split
    · exact ⟨l, h.setPst p .executing⟩
    · exact ⟨l, h⟩
  | sigpri0 => exact ⟨l, h.setPcb p rfl⟩

theorem Numbered.kill (h : Numbered k l) (pid : Int) (sig : Sig) : ∃ l', Numbered (kill k pid sig) l' := by
  unfold Core.kill
  split
  · split
    · exact h.signal _ sig
    · exact ⟨l, h⟩
  · split
    · refine ⟨l, h.of_same rfl rfl rfl (fun q => ?_) (sameSenders_of_mq rfl)⟩
      dsimp only
      split <;> rfl
    · exact ⟨l, h⟩

theorem Numbered.killSig (h : Numbered k l) (pid : Int) (sig : Option Sig) : ∃ l', Numbered (killSig k pid sig) l' := by
  cases sig with
  | none => exact ⟨l, h⟩
  | some sig => exact h.kill pid sig

theorem Numbered.setMq (h : Numbered k l) (m : Fin 32) {x : Mqueue} (hs : IsPid x.msgLspid) (hr : IsPid x.msgLrpid) :
    Numbered (setMq k m x) l := by
  refine ⟨h.queue.congr rfl rfl, h.entry, h.self, fun j => ?_, fun j => ?_⟩
  · by_cases hj : j = m
    · subst hj
      rwa [setMq_mq]
    · simpa [Core.setMq, hj] using h.sender j
  · by_cases hj : j = m
    · subst hj
      rwa [setMq_mq]
    · simpa [Core.setMq, hj] using h.receiver j

theorem Numbered.isPid_self (h : Numbered k l) : IsPid k.self.pid := by
  rw [h.self]
  exact isPid_val k.current

theorem Numbered.fork (h : Numbered k l) : ∃ l', Numbered (fork k).2 l' := by
  rcases pcb_fork k with ⟨-, he⟩ | ⟨p, x, -, hpid, -, -, he, -⟩
  · rw [he]
    exact ⟨l, h⟩
  · rw [he]
    have hentry : ∀ q, (k.pcb q).pid = q.val → ((k.setPcb p x).pcb q).pid = q.val := by
      intro q hq
      by_cases hqp : q = p
      · subst hqp
        simpa [Kernel.setPcb] using hpid
      · simpa [Kernel.setPcb, hqp] using hq
    have hset : Numbered (k.setPcb p x) l :=
      ⟨h.queue.congr rfl rfl, fun q hq => hentry q (h.entry q hq), hentry _ h.self, h.sender, h.receiver⟩
    by_cases hlt : l.length < 8
    · refine ⟨l ++ [p], hset.queue.add hlt p, fun q hq => ?_, ?_, fun m => ?_, fun m => ?_⟩
      all_goals
        unfold rqAdd
        rw [dif_pos (by rw [hset.queue.size]; exact hlt)]
      · rcases List.mem_append.mp hq with hq | hq
        · exact hset.entry q hq
        · rw [List.mem_singleton.mp hq]
          simpa [Kernel.setPcb] using hpid
      · exact hset.self
      · exact hset.sender m
      · exact hset.receiver m
    · unfold rqAdd
      rw [dif_neg (by rw [hset.queue.size]; exact hlt)]
      exact ⟨l, hset⟩

theorem Numbered.exec (h : Numbered k l) (path : CStr) : Numbered (exec k path).2 l := by
  obtain ⟨hrq, hsize, hcur, hpid, -⟩ := pcb_exec k path h.self
  exact h.of_same hrq hsize hcur hpid (sameSenders_of_mq (mq_exec k path))

theorem Numbered.mqSend (h : Numbered k l) (m : Fin 32) (msg : List UInt8) : ∃ l', Numbered (mqSend k m msg).2 l' := by
  obtain ⟨l₁, h₁⟩ := (h.setMq m (x := { k.mq m with msgLspid := k.self.pid }) h.isPid_self (h.receiver m)).kill
    k.self.pid .sigwait
  unfold Core.mqSend
  dsimp only
  rw [self_setMq]
  generalize Core.kill (Core.setMq k m { k.mq m with msgLspid := k.self.pid }) k.self.pid .sigwait = k₁ at h₁ ⊢
  split
  · have h₂ := h₁.setMq m (x := { k₁.mq m with
      msgQnum := (k₁.mq m).msgQnum + 1, msgQbuf := putBytes (k₁.mq m).msgQbuf 0 msg }) (h₁.sender m) (h₁.receiver m)
    split
    · obtain ⟨l₃, h₃⟩ := h₂.kill _ .sigcont
      exact ⟨l₃, h₃.setMq m (h₃.sender m) (h₃.receiver m)⟩
    · exact ⟨l₁, h₂⟩
  · exact ⟨l₁, h₁⟩

theorem Numbered.mqReceive (h : Numbered k l) (m : Fin 32) (len : Nat) : ∃ l', Numbered (mqReceive k m len).2.2 l' := by
  by_cases ht : takes k m
  · have h₁ := h.setMq m (x := { k.mq m with msgLrpid := k.self.pid, msgQnum := (k.mq m).msgQnum - 1 }) (h.sender m)
      h.isPid_self
    rw [mqReceive_take len ht]
    exact h₁.kill _ .sigcont
  · have h₁ := h.setMq m (x := { k.mq m with msgLrpid := k.self.pid, msgQrec := 1 }) (h.sender m) h.isPid_self
    rw [mqReceive_wait len ht]
    exact h₁.kill _ .sigwait

theorem Numbered.mqOpen (h : Numbered k l) (name : Int) : Numbered (mqOpen k name).2 l := by
  unfold Core.mqOpen
  split
  · exact h
  · split
    · exact h.setMq _ (isPid_val 0) (isPid_val 0)
    · exact h

theorem Numbered.trapBody (h : Numbered k l) (c : Trap) : ∃ l', Numbered (trapBody k c).1 l' := by
  cases c with
  | yield => exact ⟨l, h⟩
  | fork =>
    obtain ⟨l', h'⟩ := h.fork
    exact ⟨l', h'.setGpr0 _⟩
  | exec path => exact ⟨l, (h.exec path).setGpr0 _⟩
  | kill pid sig => exact h.killSig pid sig
  | raise sig => exact h.killSig _ sig
  | mqOpen name => exact ⟨l, (h.mqOpen name).setGpr0 _⟩
  | send m msg =>
    obtain ⟨l', h'⟩ := h.mqSend m msg
    exact ⟨l', h'.setGpr0 _⟩
  | receive m len =>
    obtain ⟨l', h'⟩ := h.mqReceive m len
    exact ⟨l', h'.setGpr0 _⟩
  | timer => exact ⟨l, h⟩
  | uart =>
    refine ⟨l, h.sameProcs (sameProcs_uart k) (sameSenders_of_mq ?_)⟩
    unfold Core.trapBody
    dsimp only
    split <;> rfl

theorem Numbered.svcBody (h : Numbered k l) (c : Svc) : ∃ l', Numbered (svcBody k c).1 l' := by
  cases c with
  | trap c => exact h.trapBody c
  | fs c =>
    have hs := h.sameProcs (sameProcs_fsCall k c) (sameSenders_fsCall k c)
    refine ⟨l, ?_⟩
    change Numbered (fsBody k c) l
    unfold fsBody
    split
    · next he =>
      rw [he] at hs
      exact hs.setGpr0 _
    · next he =>
      rw [he] at hs
      exact hs

theorem Numbered.scheduler (h : Numbered k l) (hk : Core.scheduler k = some k') : ∃ l', Numbered k' l' := by
  rcases h.queue.scheduler_cases hk with ⟨rfl, rfl⟩ | ⟨x, rest, pre, y, post, rfl, hl, -, hq, hs⟩
  · exact ⟨_, h.queue.rotateOnce, by simp, h.self, h.sender, h.receiver⟩
  · have hmem := mem_turned hl
    refine ⟨_, hq, fun q hq => ?_, ?_, fun m => ?_, fun m => ?_⟩
    · rw [hs.pid, h.entry q ((hmem q).mp hq)]
    · rw [Kernel.self, hs.current, hs.pid, h.entry y ((hmem y).mp List.mem_cons_self)]
    · rw [hs.mq]
      exact h.sender m
    · rw [hs.mq]
      exact h.receiver m

theorem Numbered.svc (h : Numbered k l) {c : Svc} (hk : svc k c = some k') : ∃ l', Numbered k' l' := by
  obtain ⟨l₁, h₁⟩ := h.svcBody c
  unfold Core.svc at hk
  generalize Core.svcBody k c = r at h₁ hk
  obtain ⟨k₁, b⟩ := r
  cases b with
  | true => exact h₁.scheduler hk
  | false =>
    cases hk
    exact ⟨l₁, h₁⟩

end

theorem numbered_boot (v : Vol) (link : Link) : Numbered (boot v link) [0] := by
  have h := rqInv_boot v link
  exact ⟨h.queue, h.pid, h.self, fun _ => isPid_val 0, fun _ => isPid_val 0⟩

theorem numbered_reached (v : Vol) (link : Link) (calls : List Svc) {k : Kernel}
    (hk : run svcStep (some (boot v link)) calls = some k) : ∃ l, Numbered k l := by
  have hstep : ∀ (s : Option Kernel) (c : Svc), (∀ k, s = some k → ∃ l, Numbered k l) →
      ∀ k, svcStep s c = some k → ∃ l, Numbered k l := by
    intro s c h k' hk'
    obtain ⟨k, hs, hc⟩ := svcStep_eq_some hk'
    obtain ⟨l, hl⟩ := h k hs
    exact hl.svc hc
  refine invariant_all hstep ?_ k hk
  rintro k ⟨⟩
  exact ⟨[0], numbered_boot v link⟩

end ArmKernel.Core
