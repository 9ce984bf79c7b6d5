import ArmKernel.Lib.Bytes

/-! The on-disk structures of `fs.h`. The in-memory superblock is kept as the
512 bytes it is copied to and from; its fields are word offsets. Inodes and
directory entries are records with their places inside a block. -/
namespace ArmKernel.Fs

open Lib Lib.Bytes

def rootDir : UInt32 := 0

/-- `BLOCK_SIZE` bytes. -/
abbrev Block := Bytes 512

/-- A C string: the characters before the terminator. -/
abbrev CStr := List UInt8

/-- `-1` as the `daddr32_t` it is returned as. -/
def noAddr : UInt32 := 0xFFFFFFFF

/-! `fs_t`. -/

abbrev SuperBlock := Block

namespace SuperBlock

def fsSblkno (fs : SuperBlock) : UInt32 := word fs 0
def fsSize (fs : SuperBlock) : UInt32 := word fs 1
def fsIblkno (fs : SuperBlock) : UInt32 := word fs 2
def fsIsize (fs : SuperBlock) : UInt32 := word fs 3
def fsDblkno (fs : SuperBlock) : UInt32 := word fs 4
def fsFdbhead (fs : SuperBlock) : UInt32 := word fs 6
def fsFdb (fs : SuperBlock) (i : Nat) : UInt32 := word fs (7 + i)

def setFdbhead (fs : SuperBlock) (h : UInt32) : SuperBlock := setWord fs 6 h
def setFdb (fs : SuperBlock) (i : Nat) (a : UInt32) : SuperBlock := setWord fs (7 + i) a

/-- `memcpy( fs.fs_fdb, block, 64 * sizeof( daddr32_t ) )`. -/
def loadFdb (fs : SuperBlock) (block : Block) : SuperBlock :=
  ofWords 512 fun i => if 7 ≤ i ∧ i < 71 then word block (i - 7) else word fs i

/-- The bytes a write from `fs.fs_fdb` starts with. -/
def fdbBytes (fs : SuperBlock) : Block := ofWords 512 fun i => word fs (7 + i)

end SuperBlock

/-! `icommon_t` and `inode_t`. -/

inductive Mode where
  | ifzero | iflnk | ifdir | ifreg
deriving DecidableEq

def Mode.code : Mode → UInt32
  | .ifzero => 0
  | .iflnk => 1
  | .ifdir => 2
  | .ifreg => 3

/-- `NDADDR` and `NIADDR` addresses. -/
structure ICommon where
  icMode : UInt32
  icSize : UInt32
  icDb : Vector UInt32 11
  icIb : Vector UInt32 3
deriving DecidableEq

namespace ICommon

def db (ic : ICommon) (i : Nat) : UInt32 := ic.icDb[i]?.getD 0
def ib (ic : ICommon) (i : Nat) : UInt32 := ic.icIb[i]?.getD 0

def setDb (ic : ICommon) (i : Nat) (a : UInt32) : ICommon :=
  { ic with icDb := ic.icDb.setIfInBounds i a }

def setIb (ic : ICommon) (i : Nat) (a : UInt32) : ICommon :=
  { ic with icIb := ic.icIb.setIfInBounds i a }

/-- Word `i` of the sixteen an `icommon_t` occupies. -/
def toWord (ic : ICommon) (i : Nat) : UInt32 :=
  if i = 0 then ic.icMode else if i = 1 then ic.icSize
  else if i < 13 then ic.db (i - 2) else ic.ib (i - 13)

end ICommon

/-- `ic[ r ]` of a block read as `icommon_t ic[ 8 ]`. -/
def getIc (b : Block) (r : Nat) : ICommon where
  icMode := word b (16*r)
  icSize := word b (16*r+1)
  icDb := Vector.ofFn fun i => word b (16*r+2+i.val)
  icIb := Vector.ofFn fun i => word b (16*r+13+i.val)

def setIc (b : Block) (r : Nat) (ic : ICommon) : Block :=
  ofWords 512 fun i => if i / 16 = r then ic.toWord (i % 16) else word b i

structure INode where
  iNumber : UInt32
  iLinks : UInt32
  iIc : ICommon
deriving DecidableEq

/-! `dir_t`. -/

/-- `MAXNAMLEN + 1` characters. -/
structure DirEnt where
  dIno : UInt32
  dNamlen : UInt16
  dName : Vector UInt8 26
deriving DecidableEq

/-- The thirty-two bytes of a directory entry. -/
def DirEnt.toByte (e : DirEnt) (k : Nat) : UInt8 :=
  if k < 4 then leByte e.dIno k
  else if k = 4 then UInt8.ofNat e.dNamlen.toNat
  else if k = 5 then UInt8.ofNat (e.dNamlen.toNat / 256)
  else e.dName[k - 6]?.getD 0

/-- `dir[ j ]` of a block read as `dir_t dir[ 16 ]`. -/
def getDir (b : Block) (j : Nat) : DirEnt where
  dIno := word b (8*j)
  dNamlen := UInt16.ofNat ((byte b (32*j+4)).toNat + 256 * (byte b (32*j+5)).toNat)
  dName := Vector.ofFn fun k => byte b (32*j+6+k.val)

def setDir (b : Block) (j : Nat) (e : DirEnt) : Block :=
  tabulate 512 fun k => if k / 32 = j then e.toByte (k % 32) else byte b k

end ArmKernel.Fs
