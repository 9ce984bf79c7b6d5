import ArmKernel.Core.Turns

/-! A process control block that `fork` takes over keeps the `fd` table of the
process that held it before; only `exec` clears it. Apart from the calls that
read the caller's own table, the kernel does not look at these tables. -/
namespace ArmKernel.Core

open Lib Lib.Bytes Lib.Run Fs

abbrev FdTable := Fin 16 → Option (Fin 128)

/-- The kernel with other tables in the slots where `g` has one. -/
def Kernel.graft (g : Fin 8 → Option FdTable) (k : Kernel) : Kernel :=
  { k with pcb := fun p => { k.pcb p with fd := (g p).getD (k.pcb p).fd } }

section

variable {g : Fin 8 → Option FdTable} {k : Kernel}

theorem setPcb_graft (k : Kernel) (p : Fin 8) (x : Pcb) :
    (k.graft g).setPcb p { x with fd := (g p).getD x.fd } = (k.setPcb p x).graft g := by
  unfold Kernel.setPcb Kernel.graft
  congr 1
  funext q
  by_cases hq : q = p
  · subst hq
    simp
  · simp [hq]

theorem self_graft (hc : g k.current = none) : (k.graft g).self = k.self := by
  change { k.self with fd := (g k.current).getD k.self.fd } = k.self
  rw [hc]
  rfl

/-! Signals, queues and channels. -/

theorem setPst_graft (k : Kernel) (p : Fin 8) (s : Pst) :
    setPst (k.graft g) p s = (setPst k p s).graft g :=
  setPcb_graft k p { k.pcb p with pst := s }

theorem rqRmStep_graft (pid : Int) (k : Kernel) (p : Fin 8) :
    rqRmStep pid (k.graft g) p = (rqRmStep pid k p).graft g := by
  have hq : (k.graft g).rq p = k.rq p := rfl
  have hsize : (k.graft g).rqSize = k.rqSize := rfl
  unfold rqRmStep
  rw [hq, hsize]
  split
  · split
    · next q _ =>
      have hpid : ((k.graft g).pcb q).pid = (k.pcb q).pid := rfl
      rw [hpid]
      split <;> rfl
    · rfl
  · rfl

theorem rqRm_graft (k : Kernel) (pid : Int) : rqRm (k.graft g) pid = (rqRm k pid).graft g := by
  unfold rqRm
  generalize List.finRange 8 = is
  induction is generalizing k with
  | nil => rfl
  | cons i rest ih => rw [List.foldl_cons, rqRmStep_graft, ih, List.foldl_cons]

theorem rqAdd_graft (k : Kernel) (p : Fin 8) : rqAdd (k.graft g) p = (rqAdd k p).graft g := by
  unfold rqAdd
  change (if h : k.rqSize < 8 then _ else _) = _
  split <;> rfl

theorem signal_graft (k : Kernel) (p : Fin 8) (sig : Sig) :
    signal (k.graft g) p sig = (signal k p sig).graft g := by
  cases sig with
  | sigkill =>
    unfold signal
    dsimp only
    rw [setPst_graft, rqRm_graft]
  | sigwait => exact setPst_graft k p .waiting
  | sigcont =>
    unfold signal
    change (if (k.pcb p).pst = .waiting then _ else _) = _
    split
    · exact setPst_graft k p .executing
    · rfl
  | sigpri0 => exact setPcb_graft k p { k.pcb p with defp := 0, prio := 0 }

theorem kill_graft (k : Kernel) (pid : Int) (sig : Sig) : kill (k.graft g) pid sig = (kill k pid sig).graft g := by
  unfold kill
  split
  · split
    · exact signal_graft k _ sig
    · rfl
  · split
    · unfold Kernel.graft
      congr 1
      funext p
      dsimp only
      split <;> rfl
    · rfl

theorem killSig_graft (k : Kernel) (pid : Int) (sig : Option Sig) :
    killSig (k.graft g) pid sig = (killSig k pid sig).graft g := by
  cases sig with
  | none => rfl
  | some sig => exact kill_graft k pid sig

theorem setMq_graft (k : Kernel) (m : Fin 32) (x : Mqueue) :
    setMq (k.graft g) m x = (setMq k m x).graft g := rfl

theorem fork_graft (k : Kernel) : fork (k.graft g) = ((fork k).1, (fork k).2.graft g) := by
  have hfind : ((List.finRange 8).find? fun p => ((k.graft g).pcb p).pst == .terminated) =
      (List.finRange 8).find? fun p => (k.pcb p).pst == .terminated := rfl
  unfold fork
  rw [hfind]
  split
  · next p _ =>
    apply Prod.ext
    · rfl
    · change rqAdd ((k.graft g).setPcb p { { k.pcb p with
          pid := (p.val : Int)
          prt := k.self.pid
          ctx := { k.ctx with gpr := Function.update k.ctx.gpr 0 0 }
          pst := .executing
          defp := 0x7FFFFFFF
          prio := 0x7FFFFFFF } with fd := (g p).getD (k.pcb p).fd }) p = _
      rw [setPcb_graft k p { k.pcb p with
          pid := (p.val : Int)
          prt := k.self.pid
          ctx := { k.ctx with gpr := Function.update k.ctx.gpr 0 0 }
          pst := .executing
          defp := 0x7FFFFFFF
          prio := 0x7FFFFFFF }, rqAdd_graft]
  · rfl

theorem mqOpen_graft (k : Kernel) (name : Int) :
    mqOpen (k.graft g) name = ((mqOpen k name).1, (mqOpen k name).2.graft g) := by
  have hmq : (k.graft g).mq = k.mq := rfl
  unfold mqOpen
  rw [hmq]
  split
  · rfl
  · split <;> rfl

theorem mqSend_graft (k : Kernel) (m : Fin 32) (msg : List UInt8) :
    mqSend (k.graft g) m msg = ((mqSend k m msg).1, (mqSend k m msg).2.graft g) := by
  have hmq : ∀ k : Kernel, (k.graft g).mq = k.mq := fun _ => rfl
  have hpid : ∀ k : Kernel, (k.graft g).self.pid = k.self.pid := fun _ => rfl
  unfold mqSend
  simp only [setMq_graft, kill_graft, hmq, hpid]
  split
  · split <;> rfl
  · rfl

theorem mqReceive_graft (k : Kernel) (m : Fin 32) (len : Nat) : mqReceive (k.graft g) m len =
    ((mqReceive k m len).1, (mqReceive k m len).2.1, (mqReceive k m len).2.2.graft g) := by
  have hmq : ∀ k : Kernel, (k.graft g).mq = k.mq := fun _ => rfl
  have hpid : ∀ k : Kernel, (k.graft g).self.pid = k.self.pid := fun _ => rfl
  unfold mqReceive
  simp only [setMq_graft, kill_graft, hmq, hpid]
  split <;> rfl

/-! The scheduler. -/

theorem rotateLoop_graft (fuel : Nat) (k : Kernel) :
    rotateLoop fuel (k.graft g) = (rotateLoop fuel k).map (Kernel.graft g) := by
  induction fuel generalizing k with
  | zero => rfl
  | succ fuel ih =>
    have hq : (rotateOnce (k.graft g)).rq 0 = (rotateOnce k).rq 0 := rfl
    unfold rotateLoop
    dsimp only
    rw [hq]
    cases (rotateOnce k).rq 0 with
    | none => rfl
    | some p =>
      change (if (k.pcb p).pst ≠ .executing then _ else _) =
        Option.map _ (if (k.pcb p).pst ≠ .executing then _ else _)
      split
      · exact ih (rotateOnce k)
      · rfl

theorem resetPriorities_graft (k : Kernel) :
    resetPriorities (k.graft g) = (resetPriorities k).graft g := by
  unfold resetPriorities Kernel.graft
  congr 1
  funext p
  dsimp only
  split <;> rfl

theorem dispatch_graft (k : Kernel) (p : Fin 8) : dispatch (k.graft g) p = (dispatch k p).graft g := by
  have hreset : (if ((k.graft g).pcb p).prio = 0 then resetPriorities (k.graft g) else k.graft g) =
      (if (k.pcb p).prio = 0 then resetPriorities k else k).graft g := by
    change (if (k.pcb p).prio = 0 then _ else _) = _
    split
    · exact resetPriorities_graft k
    · rfl
  unfold dispatch
  dsimp only
  rw [hreset]
  generalize (if (k.pcb p).prio = 0 then resetPriorities k else k) = k₁
  change (if k₁.current = p then _ else _) = _
  split
  · exact setPcb_graft k₁ p { k₁.pcb p with prio := (k₁.pcb p).prio - 1 }
  · have hsave : (if h : (k₁.graft g).self.pid.toNat < 8 then
          (k₁.graft g).setPcb ⟨(k₁.graft g).self.pid.toNat, h⟩
            { (k₁.graft g).pcb ⟨(k₁.graft g).self.pid.toNat, h⟩ with ctx := (k₁.graft g).ctx }
        else k₁.graft g) =
        (if h : k₁.self.pid.toNat < 8 then
          k₁.setPcb ⟨k₁.self.pid.toNat, h⟩ { k₁.pcb ⟨k₁.self.pid.toNat, h⟩ with ctx := k₁.ctx }
        else k₁).graft g := by
      change (if h : k₁.self.pid.toNat < 8 then _ else _) = _
      split
      · exact setPcb_graft k₁ _ { k₁.pcb _ with ctx := k₁.ctx }
      · rfl
    rw [hsave]
    rfl

theorem scheduler_graft (k : Kernel) : scheduler (k.graft g) = (scheduler k).map (Kernel.graft g) := by
  unfold scheduler rqRotate
  rw [rotateLoop_graft]
  cases rotateLoop 8 k with
  | none => rfl
  | some k₁ =>
    have hq : (k₁.graft g).rq 0 = k₁.rq 0 := rfl
    simp only [Option.map_some, hq]
    cases k₁.rq 0 with
    | none => rfl
    | some p =>
      dsimp only
      rw [dispatch_graft]

/-! The calls that read the caller's table. -/

theorem getFD_graft (hc : g k.current = none) : getFD (k.graft g) = getFD k := by
  unfold getFD
  rw [self_graft hc]

theorem setFd_graft (hc : g k.current = none) (i : Fin 16) (x : Option (Fin 128)) :
    (k.graft g).setPcb (k.graft g).current
        { (k.graft g).self with fd := Function.update (k.graft g).self.fd i x } =
      (k.setPcb k.current { k.self with fd := Function.update k.self.fd i x }).graft g := by
  have h := setPcb_graft (g := g) k k.current { k.self with fd := Function.update k.self.fd i x }
  rw [hc] at h
  rw [self_graft hc]
  exact h

theorem getAIT_graft (k : Kernel) (ino : UInt32) :
    getAIT (k.graft g) ino = ((getAIT k ino).1, (getAIT k ino).2.graft g) := by
  have hai : (k.graft g).ai = k.ai := rfl
  unfold getAIT
  rw [hai]
  split
  · rfl
  · split <;> rfl

theorem linkFile_graft (hc : g k.current = none) (i : Fin 16) (o s : Fin 128) :
    linkFile (k.graft g) i o s = (linkFile k i o s).graft g :=
  setFd_graft (k := { k with
    ai := Function.update k.ai s { k.ai s with iLinks := (k.ai s).iLinks + 1 }
    of := Function.update k.of o { k.of o with oInptr := some s } }) hc i (some o)

theorem openFile_graft (hc : g k.current = none) (path : CStr) (oflag : OFlag) :
    openFile (k.graft g) path oflag = ((openFile k path oflag).1, (openFile k path oflag).2.graft g) := by
  have hvol : ∀ v, { k.graft g with vol := v } = Kernel.graft g { k with vol := v } := fun _ => rfl
  have hres : resolve (k.graft g).vol path oflag = resolve k.vol path oflag := rfl
  unfold openFile
  rw [getFD_graft hc, hres]
  cases getFD k with
  | none => rfl
  | some i =>
    obtain ⟨ino, v⟩ := resolve k.vol path oflag
    have hcur := (sameProcs_getAIT { k with vol := v } ino).current
    dsimp only
    rw [hvol, getAIT_graft]
    split
    · rfl
    · generalize getAIT { k with vol := v } ino = r at hcur
      obtain ⟨_ | s, k₁⟩ := r
      · rfl
      · have ho : getOFT (k₁.graft g) = getOFT k₁ := rfl
        dsimp only at hcur ⊢
        rw [ho]
        cases getOFT k₁ with
        | none => rfl
        | some o =>
          dsimp only
          rw [linkFile_graft (by rw [hcur]; exact hc)]

theorem fdEntry_graft (hc : g k.current = none) (fd : Int) : fdEntry (k.graft g) fd = fdEntry k fd := by
  unfold fdEntry
  rw [self_graft hc]

theorem unlinkAit_graft (k : Kernel) (s : Fin 128) :
    unlinkAit (k.graft g) s = (unlinkAit k s).graft g := by
  unfold unlinkAit
  dsimp only
  change (if (k.ai s).iLinks - 1 = 0 then _ else _) = _
  split <;> rfl

theorem close_graft (hc : g k.current = none) (fd : Int) :
    close (k.graft g) fd = ((close k fd).1, (close k fd).2.graft g) := by
  unfold close
  rw [fdEntry_graft hc]
  cases fdEntry k fd with
  | none => rfl
  | some e =>
    obtain ⟨i, o⟩ := e
    have hof : ((k.graft g).of o).oInptr = (k.of o).oInptr := rfl
    apply Prod.ext
    · rfl
    · dsimp only
      rw [hof]
      cases (k.of o).oInptr with
      | none => exact setFd_graft (k := { k with of := Function.update k.of o ⟨none, 0⟩ }) hc i none
      | some s =>
        have hcur : (unlinkAit k s).current = k.current := by
          obtain ⟨v, he⟩ := unlinkAit_eq k s
          rw [he]
        dsimp only
        rw [unlinkAit_graft]
        refine setFd_graft
          (k := { unlinkAit k s with of := Function.update (unlinkAit k s).of o ⟨none, 0⟩ }) ?_ i none
        rw [show _ = k.current from hcur]
        exact hc

theorem fwrite_graft (hc : g k.current = none) (fd : Int) (data : Nat → UInt8) (n : UInt32) :
    fwrite (k.graft g) fd data n = ((fwrite k fd data n).1, (fwrite k fd data n).2.graft g) := by
  unfold fwrite
  rw [fdEntry_graft hc]
  cases fdEntry k fd with
  | none => rfl
  | some e =>
    have hof : ((k.graft g).of e.2).oInptr = (k.of e.2).oInptr := rfl
    dsimp only
    rw [hof]
    cases (k.of e.2).oInptr with
    | none => rfl
    | some s => rfl

theorem fread_graft (hc : g k.current = none) (fd : Int) (n : UInt32) : fread (k.graft g) fd n =
    ((fread k fd n).1, (fread k fd n).2.1, (fread k fd n).2.2.graft g) := by
  unfold fread
  rw [fdEntry_graft hc]
  cases fdEntry k fd with
  | none => rfl
  | some e =>
    have hof : ((k.graft g).of e.2).oInptr = (k.of e.2).oInptr := rfl
    dsimp only
    rw [hof]
    cases (k.of e.2).oInptr with
    | none => rfl
    | some s =>
      change (if (k.ai s).iIc.icSize < (k.of e.2).oHead + n then _ else _) = _
      dsimp only
      split <;> rfl

theorem lseek_graft (hc : g k.current = none) (fd : Int) (offset : UInt32) (whence : Option Whence) :
    lseek (k.graft g) fd offset whence =
      ((lseek k fd offset whence).1, (lseek k fd offset whence).2.graft g) := by
  unfold lseek
  rw [fdEntry_graft hc]
  cases fdEntry k fd with
  | none => rfl
  | some e =>
    cases whence with
    | none => rfl
    | some w => rfl

theorem tell_graft (hc : g k.current = none) (fd : Int) : tell (k.graft g) fd = tell k fd := by
  unfold tell
  rw [fdEntry_graft hc]
  rfl

theorem createObjFile_graft (hc : g k.current = none) (name : CStr) (entry : UInt32) :
    createObjFile (k.graft g) name entry = (createObjFile k name entry).graft g := by
  have h₁ := sameProcs_openFile k name .ocreat
  unfold createObjFile
  rw [openFile_graft hc]
  generalize openFile k name .ocreat = r at h₁
  obtain ⟨file, k₁⟩ := r
  have hc₁ : g k₁.current = none := by rw [h₁.current]; exact hc
  have h₂ := sameProcs_fwrite k₁ file (wordBytes entry) 4
  dsimp only
  rw [fwrite_graft hc₁]
  generalize (fwrite k₁ file (wordBytes entry) 4).2 = k₂ at h₂
  have hc₂ : g k₂.current = none := by rw [h₂.current]; exact hc₁
  have h₃ := sameProcs_fwrite k₂ file (wordBytes 1) 4
  rw [fwrite_graft hc₂]
  generalize (fwrite k₂ file (wordBytes 1) 4).2 = k₃ at h₃
  have hc₃ : g k₃.current = none := by rw [h₃.current]; exact hc₂
  rw [close_graft hc₃]

theorem createObjFiles_graft (hc : g k.current = none) :
    createObjFiles (k.graft g) = (createObjFiles k).graft g := by
  unfold createObjFiles
  generalize List.finRange 8 = is
  induction is generalizing k with
  | nil => rfl
  | cons i rest ih =>
    have hcur := (sameProcs_createObjFile k (objFiles.getD i.val []) (k.link.entry i)).current
    have hlink : (k.graft g).link = k.link := rfl
    rw [List.foldl_cons, List.foldl_cons, createObjFile_graft hc, hlink]
    apply ih
    rw [hcur]
    exact hc

theorem wipe_graft (hc : g k.current = none) : wipe (k.graft g) = (wipe k).graft g := by
  have hvol : (k.graft g).vol = k.vol := rfl
  unfold wipe
  rw [hvol]
  generalize format k.vol = v
  exact createObjFiles_graft (k := { k with vol := v }) hc

theorem getProgramEntry_graft (hc : g k.current = none) (path : CStr) (entry priority : UInt32) :
    getProgramEntry (k.graft g) path entry priority =
      ((getProgramEntry k path entry priority).1, (getProgramEntry k path entry priority).2.1,
        (getProgramEntry k path entry priority).2.2.1,
        (getProgramEntry k path entry priority).2.2.2.graft g) := by
  have hvol : (k.graft g).vol = k.vol := rfl
  unfold getProgramEntry
  rw [hvol]
  split
  · have h₁ := sameProcs_openFile k (strtokCut path) .oexist
    rw [openFile_graft hc]
    generalize openFile k (strtokCut path) .oexist = r at h₁
    obtain ⟨file, k₁⟩ := r
    have hc₁ : g k₁.current = none := by rw [h₁.current]; exact hc
    dsimp only
    split
    · have h₂ := sameProcs_fread k₁ file 4
      rw [fread_graft hc₁]
      generalize fread k₁ file 4 = r at h₂
      obtain ⟨_, x, k₂⟩ := r
      have hc₂ : g k₂.current = none := by rw [h₂.current]; exact hc₁
      have h₃ := sameProcs_fread k₂ file 4
      dsimp only
      rw [fread_graft hc₂]
      generalize fread k₂ file 4 = r at h₃
      obtain ⟨_, y, k₃⟩ := r
      have hc₃ : g k₃.current = none := by rw [h₃.current]; exact hc₂
      dsimp only
      rw [close_graft hc₃]
    · rfl
  · rfl

theorem exec_graft (hc : g k.current = none) (path : CStr) :
    exec (k.graft g) path = ((exec k path).1, (exec k path).2.graft g) := by
  have hvol : (k.graft g).vol = k.vol := rfl
  have h₁ := sameProcs_getProgramEntry k path (word k.vol.stkBlk 0) (word k.vol.stkBlk 1)
  unfold exec
  rw [hvol, getProgramEntry_graft hc]
  generalize getProgramEntry k path (word k.vol.stkBlk 0) (word k.vol.stkBlk 1) = r at h₁
  obtain ⟨r, entry, priority, k₁⟩ := r
  have hc₁ : g k₁.current = none := by rw [h₁.current]; exact hc
  dsimp only
  split
  · rfl
  · apply Prod.ext
    · rfl
    · let ctx : Ctx := { Ctx.zero with
        cpsr := 0x50
        pc := entry
        sp := k₁.link.tosInit - UInt32.ofNat k₁.self.pid.toNat * 0x00010000 }
      have h := setPcb_graft (g := g) { k₁ with ctx := ctx } k₁.current { Pcb.zero with
        pid := k₁.self.pid
        pst := .executing
        ctx := ctx
        defp := priority
        prio := priority }
      rw [hc₁] at h
      exact h

/-! Every call. -/

def usesFd : Svc → Prop
  | .trap (.exec _) => True
  | .fs (.write ..) => True
  | .fs (.read ..) => True
  | .fs (.lseek ..) => True
  | .fs .wipe => True
  | .fs (.open ..) => True
  | .fs (.close _) => True
  | .fs (.tell _) => True
  | _ => False

theorem fsCall_graft {c : FsCall} (hc : usesFd (.fs c) → g k.current = none) : fsCall (k.graft g) c =
    ((fsCall k c).1, (fsCall k c).2.1, (fsCall k c).2.2.graft g) := by
  have hvol : (k.graft g).vol = k.vol := rfl
  have hcwd : (k.graft g).cwd = k.cwd := rfl
  have hai : (k.graft g).ai = k.ai := rfl
  unfold fsCall
  cases c with
  | console n => rfl
  | write fd data n =>
    dsimp only
    rw [fwrite_graft (hc trivial)]
  | read fd n =>
    dsimp only
    rw [fread_graft (hc trivial)]
  | lseek fd offset whence =>
    dsimp only
    rw [lseek_graft (hc trivial)]
  | wipe =>
    dsimp only
    rw [wipe_graft (hc trivial)]
  | «open» path oflag =>
    dsimp only
    rw [openFile_graft (hc trivial)]
  | close fd =>
    dsimp only
    rw [close_graft (hc trivial)]
  | mkdir name =>
    have h : mkdir (k.graft g) name = ((mkdir k name).1, (mkdir k name).2.graft g) := by
      unfold mkdir
      rw [hvol]
      split <;> rfl
    dsimp only
    rw [h]
  | cd path =>
    have h : cd (k.graft g) path = ((cd k path).1, (cd k path).2.graft g) := by
      unfold cd
      dsimp only
      rw [hvol, hcwd]
      split <;> rfl
    dsimp only
    rw [h]
  | unlink name =>
    have h : unlink (k.graft g) name = ((unlink k name).1, (unlink k name).2.graft g) := by
      have hr : removeFromCwd (k.graft g) name = removeFromCwd k name := rfl
      unfold unlink
      dsimp only
      rw [hr]
      split
      · rfl
      · split <;> rfl
    dsimp only
    rw [h]
  | mv name path =>
    have h : mv (k.graft g) name path = ((mv k name path).1, (mv k name path).2.graft g) := by
      have hr : removeFromCwd (k.graft g) name = removeFromCwd k name := rfl
      unfold mv
      dsimp only
      rw [hr, hvol]
      split
      · rfl
      · split
        · rfl
        · split <;> rfl
    dsimp only
    rw [h]
  | cp src dest =>
    have h : cp (k.graft g) src dest = ((cp k src dest).1, (cp k src dest).2.graft g) := by
      unfold cp
      dsimp only
      rw [hvol, hcwd]
      split
      · rfl
      · split
        · rfl
        · split <;> rfl
    dsimp only
    rw [h]
  | tell fd =>
    dsimp only
    rw [tell_graft (hc trivial)]
  | mqUnlink m =>
    have h : mqUnlink (k.graft g) m = ((mqUnlink k m).1, (mqUnlink k m).2.graft g) := by
      unfold mqUnlink
      split
      · split <;> rfl
      · rfl
    dsimp only
    rw [h]
  | other => rfl

theorem trapBody_graft {c : Trap} (hc : usesFd (.trap c) → g k.current = none) :
    trapBody (k.graft g) c = ((trapBody k c).1.graft g, (trapBody k c).2) := by
  unfold trapBody
  cases c with
  | yield => rfl
  | fork =>
    dsimp only
    rw [fork_graft]
    rfl
  | exec path =>
    dsimp only
    rw [exec_graft (hc trivial)]
    rfl
  | kill pid sig =>
    dsimp only
    rw [killSig_graft]
  | raise sig =>
    have hpid : (k.graft g).self.pid = k.self.pid := rfl
    dsimp only
    rw [killSig_graft, hpid]
  | mqOpen name =>
    dsimp only
    rw [mqOpen_graft]
    rfl
  | send m msg =>
    dsimp only
    rw [mqSend_graft]
    rfl
  | receive m len =>
    dsimp only
    rw [mqReceive_graft]
    rfl
  | timer => rfl
  | uart =>
    dsimp only
    change (if k.self.pid ≠ 0 then _ else _) = _
    split
    · apply Prod.ext
      · exact setPcb_graft k 0 { k.pcb 0 with defp := 0x7FFFFFFF, prio := 0x7FFFFFFF }
      · rfl
    · rfl

theorem svc_graft {c : Svc} (hc : usesFd c → g k.current = none) :
    svc (k.graft g) c = (svc k c).map (Kernel.graft g) := by
  have hbody : svcBody (k.graft g) c = ((svcBody k c).1.graft g, (svcBody k c).2) := by
    cases c with
    | trap c => exact trapBody_graft hc
    | fs c =>
      change (fsBody (k.graft g) c, false) = ((fsBody k c).graft g, false)
      unfold fsBody
      rw [fsCall_graft hc]
      obtain ⟨r, x, k₁⟩ := fsCall k c
      cases r <;> rfl
  unfold svc
  rw [hbody]
  obtain ⟨k₁, b⟩ := svcBody k c
  cases b with
  | true => exact scheduler_graft k₁
  | false => rfl

end

/-! Two runs. -/

/-- The states differ only in the `fd` tables left in terminated slots. -/
structure DifferInDead (k k' : Kernel) : Prop where
  rest : k' = { k with pcb := k'.pcb }
  pcb : ∀ p, k'.pcb p = { k.pcb p with fd := (k'.pcb p).fd }
  live : ∀ p, (k.pcb p).pst ≠ .terminated → (k'.pcb p).fd = (k.pcb p).fd

/-- The tables of the second state where they are not those of the first. -/
def otherTables (k k' : Kernel) (p : Fin 8) : Option FdTable :=
  if (k'.pcb p).fd = (k.pcb p).fd then none else some (k'.pcb p).fd

theorem DifferInDead.graft {k k' : Kernel} (h : DifferInDead k k') : k' = k.graft (otherTables k k') := by
  have htable : ∀ p, (otherTables k k' p).getD (k.pcb p).fd = (k'.pcb p).fd := by
    intro p
    unfold otherTables
    split
    · next he => exact he.symm
    · rfl
  refine h.rest.trans ?_
  unfold Kernel.graft
  congr 1
  funext p
  rw [htable]
  exact h.pcb p

/-- Who made a call beside those of `Trap`, its result and the bytes it handed
out, for the calls of a run in order. -/
def answers : Option Kernel → List Svc → List (Fin 8 × Option UInt32 × List UInt8)
  | _, [] => []
  | none, _ :: _ => []
  | some k, .trap c :: rest => answers (svcStep (some k) (.trap c)) rest
  | some k, .fs c :: rest =>
    (k.current, (fsCall k c).1, (fsCall k c).2.1) :: answers (svcStep (some k) (.fs c)) rest

/-- Whoever uses its `fd` table runs in a slot whose table was the same in both
states. -/
def slotOk (k k' : Kernel) (s : Option Kernel) (c : Svc) : Prop :=
  ∀ k₁, s = some k₁ → usesFd c → (k'.pcb k₁.current).fd = (k.pcb k₁.current).fd

/-- **A reused slot.** From two states that differ only in the tables left in
terminated slots, the same calls are answered alike, those of the child that
`fork` puts into such a slot among them, as long as the tables of the slots
that make use of them agreed. -/
theorem reused_slot_alike (k k' : Kernel) (h : DifferInDead k k') (calls : List Svc)
    (hc : Along svcStep (slotOk k k') (some k) (.trap .fork :: calls)) :
    answers (some k') (.trap .fork :: calls) = answers (some k) (.trap .fork :: calls) := by
  have hrun : ∀ (calls : List Svc) (s : Option Kernel), Along svcStep (slotOk k k') s calls →
      answers (s.map (Kernel.graft (otherTables k k'))) calls = answers s calls := by
    intro calls
    induction calls with
    | nil =>
      intro s _
      cases s <;> rfl
    | cons c rest ih =>
      intro s hs
      cases s with
      | none => rfl
      | some k₁ =>
        have hg : usesFd c → otherTables k k' k₁.current = none := fun hu =>
          if_pos (hs.1 k₁ rfl hu)
        have hstep : svcStep (some (k₁.graft (otherTables k k'))) c =
            (svcStep (some k₁) c).map (Kernel.graft (otherTables k k')) := by
          unfold svcStep
          split
          · exact svc_graft hg
          · rfl
        have hrest := ih _ hs.2
        cases c with
        | trap c =>
          change answers (svcStep (some (k₁.graft _)) _) rest = answers (svcStep (some k₁) _) rest
          rw [hstep]
          exact hrest
        | fs c =>
          change (_, (fsCall (k₁.graft _) c).1, (fsCall (k₁.graft _) c).2.1) :: answers (svcStep (some (k₁.graft _)) _) rest =
            (k₁.current, (fsCall k₁ c).1, (fsCall k₁ c).2.1) :: answers (svcStep (some k₁) _) rest
          rw [hstep, fsCall_graft hg]
          exact congrArg (List.cons _) hrest
  have hall := hrun _ _ hc
  rw [Option.map_some, ← h.graft] at hall
  exact hall

def withFd (k : Kernel) (p : Fin 8) (fd : FdTable) : Kernel := k.setPcb p { k.pcb p with fd := fd }

theorem differInDead_withFd {k : Kernel} {p : Fin 8} (hp : (k.pcb p).pst = .terminated) (fd : FdTable) :
    DifferInDead k (withFd k p fd) := by
  refine ⟨rfl, fun q => ?_, fun q hq => ?_⟩
  · by_cases hqp : q = p
    · subst hqp
      simp [withFd, Kernel.setPcb]
    · simp [withFd, Kernel.setPcb, hqp]
  · have hqp : q ≠ p := by
      rintro rfl
      exact hq hp
    simp [withFd, Kernel.setPcb, hqp]

/-- Something is left in slot 2, and the child goes to slot 1. -/
theorem reused_slot_alike_elsewhere :
    let k' := withFd (boot rootVol noLink) 2 fun _ => some 5
    let calls := [.trap .fork, .trap .timer, .fs (.open [] .oexist), .fs (.close 0)]
    (k'.pcb 2).fd 0 = some 5 ∧ answers (some k') calls = [(1, some 0, []), (1, some 0, [])] := by
  refine ⟨rfl, ?_⟩
  have h := reused_slot_alike (boot rootVol noLink) (withFd (boot rootVol noLink) 2 fun _ => some 5)
    (differInDead_withFd rfl _) [.trap .timer, .fs (.open [] .oexist), .fs (.close 0)] ?_
  · exact h
  · refine ⟨?_, ?_, ?_, ?_, trivial⟩
    · rintro k₁ ⟨⟩ hu
      exact hu.elim
    · rintro k₁ ⟨⟩ hu
      exact hu.elim
    · rintro k₁ ⟨⟩ -
      rfl
    · rintro k₁ ⟨⟩ -
      rfl

def openThenExit : List Svc :=
  [.trap .fork, .trap .timer, .fs (.open [] .oexist), .trap (.raise (some .sigkill))]

/-- The next process in the slot closes the file of the one before. -/
theorem dead_descriptor_inherited : ∃ k k', run svcStep (some (boot rootVol noLink)) openThenExit = some k ∧
    DifferInDead k k' ∧
    answers (some k) [.trap .fork, .trap .timer, .fs (.close 0)] = [(1, some 0, [])] ∧
    answers (some k') [.trap .fork, .trap .timer, .fs (.close 0)] = [(1, some noAddr, [])] :=
  ⟨_, _, rfl, differInDead_withFd (p := 1) rfl fun _ => none, rfl, rfl⟩

end ArmKernel.Core
