import ArmKernel.Core.State

/-! Tables and POSIX functions: descriptors, open files and active inodes, and
`open`, `close`, `fwrite`, `fread`, `lseek`, `tell`, `unlink`, with the
directory calls `mkdir` and `cd` of the supervisor-call handler. -/
namespace ArmKernel.Core

open Lib Lib.Bytes Fs

def getFD (k : Kernel) : Option (Fin 16) :=
  (List.finRange 16).find? fun fd => (k.self.fd fd).isNone

def getOFT (k : Kernel) : Option (Fin 128) :=
  (List.finRange 128).find? fun i => (k.of i).oInptr.isNone

def getAIT (k : Kernel) (ino : UInt32) : Option (Fin 128) × Kernel :=
  match (List.finRange 128).find? fun i =>
      (k.ai i).iNumber == ino && (k.ai i).iIc.icMode != Mode.ifzero.code with
  | some i => (some i, k)
  | none =>
    match (List.finRange 128).find? fun i => (k.ai i).iIc.icMode == Mode.ifzero.code with
    | some i => (some i, { k with ai := Function.update k.ai i (readInode k.vol (k.ai i) ino) })
    | none => (none, k)

/-- The inode number `open` works with, `path_to_ino2` or `path_to_ino`. -/
def resolve (v : Vol) (path : CStr) : OFlag → UInt32 × Vol
  | .ocreat => pathToIno2 v path rootDir
  | .oexist => (pathToIno v path rootDir, v)

/-- The test `ino < 0` on the signed result. -/
def isNeg (x : UInt32) : Bool := 0x80000000 ≤ x

/-- The last step of `open`: one more link to the inode, and the descriptor and
the open file that lead to it. -/
def linkFile (k : Kernel) (fd : Fin 16) (o s : Fin 128) : Kernel :=
  let k := { k with
    ai := Function.update k.ai s { k.ai s with iLinks := (k.ai s).iLinks + 1 }
    of := Function.update k.of o { k.of o with oInptr := some s } }
  k.setPcb k.current { k.self with fd := Function.update k.self.fd fd (some o) }

def openFile (k : Kernel) (path : CStr) (oflag : OFlag) : Int × Kernel :=
  match getFD k with
  | none => (-1, k)
  | some fd =>
    match resolve k.vol path oflag with
    | (ino, v) =>
      let k := { k with vol := v }
      if isNeg ino then (-1, k)
      else
        match getAIT k ino with
        | (none, k) => (-1, k)
        | (some s, k) =>
          match getOFT k with
          | none => (-1, k)
          | some o => (fd.val, linkFile k fd o s)

/-- The validation each descriptor call starts with. -/
def fdEntry (k : Kernel) (fd : Int) : Option (Fin 16 × Fin 128) :=
  if h : 0 ≤ fd ∧ fd < 16 then
    let i : Fin 16 := ⟨fd.toNat, by omega⟩
    (k.self.fd i).map fun o => (i, o)
  else none

/-- Drop one link to an active inode; the last one writes it back. -/
def unlinkAit (k : Kernel) (s : Fin 128) : Kernel :=
  let inode := { k.ai s with iLinks := (k.ai s).iLinks - 1 }
  if inode.iLinks = 0 then
    { k with
      vol := writeInode k.vol inode
      ai := Function.update k.ai s
        { inode with iIc := { inode.iIc with icMode := Mode.ifzero.code } } }
  else { k with ai := Function.update k.ai s inode }

def close (k : Kernel) (fd : Int) : Int × Kernel :=
  match fdEntry k fd with
  | none => (-1, k)
  | some (i, o) =>
    let k := match (k.of o).oInptr with
      | some s => unlinkAit k s
      | none => k
    let k := { k with of := Function.update k.of o ⟨none, 0⟩ }
    (0, k.setPcb k.current { k.self with fd := Function.update k.self.fd i none })

/-- How often a loop `for (int i = 0; i < n; i++)` runs. -/
def intCount (n : UInt32) : Nat := if n.toNat < 2^31 then n.toNat else 0

/-- The byte loop of `fwrite` from byte `i` on, with the block buffer and its
address. -/
def fwriteLoop (inode : INode) (head : UInt32) (data : Nat → UInt8) (n : Nat) :
    Nat → Nat → Vol → UInt32 → Block → Vol × UInt32 × Block
  | 0, _, v, addr, buf => (v, addr, buf)
  | m+1, i, v, addr, buf =>
    let buf := setByte buf ((head + UInt32.ofNat i).toNat % 512) (data i)
    -- not the last byte and the next one is over the block boundary
    if i ≠ n - 1 ∧ (head + UInt32.ofNat i + 1).toNat % 512 = 0 then
      let v := diskWr v addr buf 512
      match getDataBlock v buf inode (head + UInt32.ofNat i + 1) with
      | (addr, buf) => fwriteLoop inode head data n m (i+1) v addr buf
    else fwriteLoop inode head data n m (i+1) v addr buf

/-- The writes of `fwrite` once the file is large enough. -/
def fwriteBytes (v : Vol) (inode : INode) (head : UInt32) (data : Nat → UInt8) (n : UInt32) : Vol :=
  match getDataBlock v v.stkBlk inode head with
  | (addr, buf) =>
    match fwriteLoop inode head data (intCount n) (intCount n) 0 v addr buf with
    | (v, addr, buf) => diskWr v addr buf 512

def fwrite (k : Kernel) (fd : Int) (data : Nat → UInt8) (n : UInt32) : Int × Kernel :=
  match fdEntry k fd with
  | none => (-1, k)
  | some (_, o) =>
    match (k.of o).oInptr with
    | none => (-1, k)
    | some s =>
      let head := (k.of o).oHead
      -- if necessary, allocate new blocks to file; the result is not looked at
      match (if (k.ai s).iIc.icSize < head + n then
          allocateDataBlocks k.vol (k.ai s) (head + n - (k.ai s).iIc.icSize)
        else (0, k.ai s, k.vol)) with
      | (_, inode, v) =>
        (0, { k with
          vol := fwriteBytes v inode head data n
          ai := Function.update k.ai s inode
          of := Function.update k.of o { k.of o with oHead := head + n } })

def freadLoop (v : Vol) (inode : INode) (head : UInt32) (n : Nat) : Nat → Nat → Block → List UInt8
  | 0, _, _ => []
  | m+1, i, buf =>
    byte buf ((head + UInt32.ofNat i).toNat % 512) ::
      (if i ≠ n - 1 ∧ (head + UInt32.ofNat i + 1).toNat % 512 = 0 then
        freadLoop v inode head n m (i+1) (getDataBlock v buf inode (head + UInt32.ofNat i + 1)).2
      else freadLoop v inode head n m (i+1) buf)

/-- Result, bytes stored at `data`, and kernel. -/
def fread (k : Kernel) (fd : Int) (n : UInt32) : Int × List UInt8 × Kernel :=
  match fdEntry k fd with
  | none => (-1, [], k)
  | some (_, o) =>
    match (k.of o).oInptr with
    | none => (-1, [], k)
    | some s =>
      let head := (k.of o).oHead
      if (k.ai s).iIc.icSize < head + n then (-1, [], k)
      else
        let buf := (getDataBlock k.vol k.vol.stkBlk (k.ai s) head).2
        (0, freadLoop k.vol (k.ai s) head (intCount n) (intCount n) 0 buf,
          { k with of := Function.update k.of o { k.of o with oHead := head + n } })

/-- `none` is a `whence` outside the enumeration. -/
def lseek (k : Kernel) (fd : Int) (offset : UInt32) (whence : Option Whence) :
    UInt32 × Kernel :=
  match fdEntry k fd, whence with
  | none, _ => (noAddr, k)
  | _, none => (noAddr, k)
  | some (_, o), some w =>
    let size := match (k.of o).oInptr with
      | some s => (k.ai s).iIc.icSize
      | none => 0
    let head := match w with
      | .seekSet => offset
      | .seekCur => (k.of o).oHead + offset
      | .seekEnd => size + offset
    (head, { k with of := Function.update k.of o { k.of o with oHead := head } })

def tell (k : Kernel) (fd : Int) : UInt32 :=
  match fdEntry k fd with
  | none => noAddr
  | some (_, o) => (k.of o).oHead

/-- The call of `remove` that `unlink` and `mv` make on the working directory. -/
def removeFromCwd (k : Kernel) (name : CStr) : Removed :=
  remove k.vol k.cwd k.ai (getDir k.vol.stkBlk 0) (readInode k.vol ⟨0, 0, k.vol.stkIc⟩ k.cwd) name

def unlink (k : Kernel) (name : CStr) : Int × Kernel :=
  if name.head? = some dot then (-1, k)
  else
    let r := removeFromCwd k name
    if r.ino ≠ noAddr then
      let inode := readInode r.vol r.parent r.child.dIno
      let v := freeDataBlocks r.vol inode
      let inode := { inode with iIc := { inode.iIc with icMode := Mode.ifzero.code, icSize := 0 } }
      (0, { k with vol := writeInode v inode })
    else (-1, k)

/-! The `mkdir`, `cd` and `mv` cases of `kernel_handler_svc`. -/

/-- The first block of a new directory: two entries over whatever the local
array held. -/
def newDirBlock (junk : Block) (self parent : UInt32) : Block :=
  let dir := setDir junk 0 { getDir junk 0 with dIno := self, dNamlen := 1 }
  let dir := putBytes dir 6 [dot]
  let dir := setDir dir 1 { getDir dir 1 with dIno := parent, dNamlen := 2 }
  putBytes dir 38 [dot, dot]

def mkdir (k : Kernel) (name : CStr) : Int × Kernel :=
  match getFreeInode k.vol ⟨0, 0, k.vol.stkIc⟩ with
  | (none, v) => (-1, { k with vol := v })
  | (some child, v) =>
    let parent := readInode v ⟨0, 0, v.stkIc⟩ k.cwd
    match balloc v with
    | (a, v) =>
      let child := { child with iIc :=
        { child.iIc with icMode := Mode.ifdir.code, icSize := 64 }.setDb 0 a }
      let v := diskWr v a (newDirBlock v.stkBlk child.iNumber parent.iNumber) 512
      let v := writeInode v child
      (0, { k with vol := (addInodeToDirectory v parent child.iNumber name).2 })

def cd (k : Kernel) (path : CStr) : Int × Kernel :=
  let ino := pathToIno k.vol path k.cwd
  if ino = noAddr then (-1, k) else (0, { k with cwd := ino })

/-- The string that starts at `d_name` of a local `dir_t`; without a terminator
in the array it goes on in whatever lies behind. -/
def dNameString (v : Vol) (dir : DirEnt) : CStr :=
  (dir.dName.toList ++ v.stkBlk.toList).takeWhile (· != 0)

/-- A result of `none` leaves the register as it was. -/
def mv (k : Kernel) (name path : CStr) : Option Int × Kernel :=
  if name.head? = some dot then (some (-1), k)
  else
    let ino := pathToIno k.vol path rootDir
    if ino = noAddr then (none, k)
    else
      let dest := readInode k.vol ⟨0, 0, k.vol.stkIc⟩ ino
      if dest.iIc.icMode ≠ Mode.ifdir.code then (none, k)
      else
        let r := removeFromCwd k name
        let v :=
          if r.ino ≠ noAddr then
            (addInodeToDirectory r.vol dest r.child.dIno (dNameString k.vol r.child)).2
          else r.vol
        (none, { k with vol := updateSb v })

end ArmKernel.Core
