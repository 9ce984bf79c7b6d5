import ArmKernel.Core.Format
import ArmKernel.Core.ReadyQueue

/-! Every supervisor call and interrupt. The calls of `Trap` deal with
processes; the others leave the processes alone, which is what this module
shows. -/
namespace ArmKernel.Core

open Lib Lib.Bytes Fs

/-! The calls that no other module needs. -/

/-- The block loop of `copyInode` from block `i` on. -/
def copyLoop (copy inode : INode) : Nat → Nat → Vol → Block → Vol
  | 0, _, v, _ => v
  | m+1, i, v, block =>
    let block := (getDataBlock v block inode (UInt32.ofNat (512*i))).2
    let n := min 512 (inode.iIc.icSize.toNat - 512*i)
    copyLoop copy inode m (i+1) (diskWr v (getDataBlockAddr v copy (UInt32.ofNat (512*i))) block n) block

/-- Space is asked for as many bytes as the source has blocks, and the inode of
the copy is not written. -/
def copyInode (v : Vol) (copy inode : INode) : INode × Vol :=
  match getFreeInode v copy with
  | (none, v) => (copy, v)
  | (some copy, v) =>
    match allocateDataBlocks v copy (inode.iIc.icSize / 512 + 1) with
    | (_, copy, v) => (copy, copyLoop copy inode ((inode.iIc.icSize.toNat + 511) / 512) 0 v v.stkBlk)

/-- A result of `none` leaves the register as it was; `dest` of the source is
an uninitialised local when there is no free inode. -/
def cp (k : Kernel) (src dest : CStr) : Option Int × Kernel :=
  if src.head? = some dot then (some (-1), k)
  else
    let ino := pathToIno k.vol src k.cwd
    if ino = noAddr then (none, k)
    else
      let inode := readInode k.vol ⟨0, 0, k.vol.stkIc⟩ ino
      if inode.iIc.icMode = Mode.ifzero.code then (none, k)
      else
        match copyInode k.vol ⟨word k.vol.stkBlk 0, 0, k.vol.stkIc⟩ inode with
        | (copy, v) =>
          let parent := readInode v inode k.cwd
          (none, { k with vol := updateSb (addInodeToDirectory v parent copy.iNumber dest).2 })

/-- The range test lets `m = MSGCHAN_LIMIT` through, which names no channel. -/
def mqUnlink (k : Kernel) (m : Int) : Int × Kernel :=
  if 0 ≤ m ∧ m ≤ 32 then
    if h : m.toNat < 32 then (0, setMq k ⟨m.toNat, h⟩ { k.mq ⟨m.toNat, h⟩ with msgQname := 0 }) else (0, k)
  else (-1, k)

/-! The handler. -/

/-- The calls beside those of `Trap`; `console` is a `read` or a `write` on the
terminal, and `other` is `pwd`, `ls` or a number that has no case. -/
inductive FsCall where
  | console (n : UInt32)
  | write (fd : Int) (data : Nat → UInt8) (n : UInt32)
  | read (fd : Int) (n : UInt32)
  | lseek (fd : Int) (offset : UInt32) (whence : Option Whence)
  | wipe
  | open (path : CStr) (oflag : OFlag)
  | close (fd : Int)
  | mkdir (name : CStr)
  | cd (path : CStr)
  | unlink (name : CStr)
  | mv (name path : CStr)
  | cp (src dest : CStr)
  | tell (fd : Int)
  | mqUnlink (m : Int)
  | other

/-- The result, the bytes handed to the caller, and the kernel; without a
result the register stays as it was. -/
def fsCall (k : Kernel) : FsCall → Option UInt32 × List UInt8 × Kernel
  | .console n => (some n, [], k)
  | .write fd data n =>
    match fwrite k fd data n with
    | (r, k) => (some (toReg r), [], k)
  | .read fd n =>
    match fread k fd n with
    | (r, x, k) => (some (toReg r), x, k)
  | .lseek fd offset whence =>
    match lseek k fd offset whence with
    | (r, k) => (some r, [], k)
  | .wipe => (none, [], wipe k)
  | .open path oflag =>
    match openFile k path oflag with
    | (r, k) => (some (toReg r), [], k)
  | .close fd =>
    match close k fd with
    | (r, k) => (some (toReg r), [], k)
  | .mkdir name =>
    match mkdir k name with
    | (r, k) => (some (toReg r), [], k)
  | .cd path =>
    match cd k path with
    | (r, k) => (some (toReg r), [], k)
  | .unlink name =>
    match unlink k name with
    | (r, k) => (some (toReg r), [], k)
  | .mv name path =>
    match mv k name path with
    | (r, k) => (r.map toReg, [], k)
  | .cp src dest =>
    match cp k src dest with
    | (r, k) => (r.map toReg, [], k)
  | .tell fd => (some (tell k fd), [], k)
  | .mqUnlink m =>
    match mqUnlink k m with
    | (r, k) => (some (toReg r), [], k)
  | .other => (none, [], k)

def fsBody (k : Kernel) (c : FsCall) : Kernel :=
  match fsCall k c with
  | (some r, _, k) => setGpr0 k r
  | (none, _, k) => k

inductive Svc where
  | trap (c : Trap)
  | fs (c : FsCall)

/-- The call does not name the entry behind a table, pid 8 or channel 32. The
range tests let them through; the code writes past the table then, where nothing
happens here. -/
def inTables : Svc → Bool
  | .trap (.kill pid _) => pid != 8
  | .fs (.mqUnlink m) => m != 32
  | _ => true

/-- A call up to that of `scheduler`, and whether that is made. -/
def svcBody (k : Kernel) : Svc → Kernel × Bool
  | .trap c => trapBody k c
  | .fs c => (fsBody k c, false)

/-- `kernel_handler_svc` and `kernel_handler_irq`. -/
def svc (k : Kernel) (c : Svc) : Option Kernel :=
  match svcBody k c with
  | (k, true) => scheduler k
  | (k, false) => some k

/-- A run ends with a call that writes past a table. -/
def svcStep (s : Option Kernel) (c : Svc) : Option Kernel := if inTables c then s.bind (svc · c) else none

theorem svcStep_some (k : Kernel) {c : Svc} (h : inTables c = true) : svcStep (some k) c = svc k c := if_pos h

@[simp] theorem svcStep_none (c : Svc) : svcStep none c = none := by
  unfold svcStep
  split <;> rfl

theorem svcStep_eq_some {s : Option Kernel} {c : Svc} {k' : Kernel} (h : svcStep s c = some k') :
    ∃ k, s = some k ∧ svc k c = some k' := by
  unfold svcStep at h
  split at h
  · exact Option.bind_eq_some_iff.mp h
  · cases h

/-! The processes are left alone. -/

section

variable {k k' : Kernel}

theorem sameProcs_vol (k : Kernel) (v : Vol) (ino : UInt32) : SameProcs k { k with vol := v, cwd := ino } :=
  ⟨rfl, rfl, rfl, rfl, fun _ => ⟨rfl, rfl, rfl⟩⟩

theorem sameProcs_fwrite (k : Kernel) (fd : Int) (data : Nat → UInt8) (n : UInt32) :
    SameProcs k (fwrite k fd data n).2 := by
  unfold fwrite
  split
  · exact .refl k
  · split
    · exact .refl k
    · exact ⟨rfl, rfl, rfl, rfl, fun _ => ⟨rfl, rfl, rfl⟩⟩

theorem sameProcs_createObjFile (k : Kernel) (name : CStr) (entry : UInt32) :
    SameProcs k (createObjFile k name entry) := by
  unfold createObjFile
  dsimp only
  apply SameProcs.trans (sameProcs_openFile k name .ocreat)
  apply SameProcs.trans (sameProcs_fwrite _ _ _ _)
  apply SameProcs.trans (sameProcs_fwrite _ _ _ _)
  apply sameProcs_close

theorem sameProcs_wipe (k : Kernel) : SameProcs k (wipe k) := by
  have hrun : ∀ (is : List (Fin 8)) (k : Kernel), SameProcs k
      (is.foldl (fun k i => createObjFile k (objFiles.getD i.val []) (k.link.entry i)) k) := by
    intro is
    induction is with
    | nil => exact fun k => .refl k
    | cons i rest ih => exact fun k => (sameProcs_createObjFile k _ _).trans (ih _)
  exact (sameProcs_vol k (format k.vol) k.cwd).trans (hrun _ _)

theorem sameProcs_fsCall (k : Kernel) (c : FsCall) : SameProcs k (fsCall k c).2.2 := by
  cases c with
  | console n => exact .refl k
  | write fd data n => exact sameProcs_fwrite k fd data n
  | read fd n => exact sameProcs_fread k fd n
  | lseek fd offset whence =>
    obtain ⟨of', he⟩ := lseek_kernel k fd offset whence
    unfold fsCall
    dsimp only
    rw [he]
    exact ⟨rfl, rfl, rfl, rfl, fun _ => ⟨rfl, rfl, rfl⟩⟩
  | wipe => exact sameProcs_wipe k
  | «open» path oflag => exact sameProcs_openFile k path oflag
  | close fd => exact sameProcs_close k fd
  | mkdir name =>
    change SameProcs k (mkdir k name).2
    unfold mkdir
    split <;> exact sameProcs_vol k _ k.cwd
  | cd path =>
    change SameProcs k (cd k path).2
    unfold cd
    dsimp only
    split
    · exact .refl k
    · exact sameProcs_vol k k.vol _
  | unlink name =>
    change SameProcs k (unlink k name).2
    unfold unlink
    dsimp only
    split
    · exact .refl k
    · split
      · exact sameProcs_vol k _ k.cwd
      · exact .refl k
  | mv name path =>
    change SameProcs k (mv k name path).2
    unfold mv
    dsimp only
    split
    · exact .refl k
    · split
      · exact .refl k
      · split
        · exact .refl k
        · exact sameProcs_vol k _ k.cwd
  | cp src dest =>
    change SameProcs k (cp k src dest).2
    unfold cp
    dsimp only
    split
    · exact .refl k
    · split
      · exact .refl k
      · split
        · exact .refl k
        · exact sameProcs_vol k _ k.cwd
  | tell fd => exact .refl k
  | mqUnlink m =>
    change SameProcs k (mqUnlink k m).2
    unfold mqUnlink
    split
    · split
      · exact ⟨rfl, rfl, rfl, rfl, fun _ => ⟨rfl, rfl, rfl⟩⟩
      · exact .refl k
    · exact .refl k
  | other => exact .refl k

end

end ArmKernel.Core
