import ArmKernel.Fs.Layout
import Mathlib.Logic.Function.Basic

/-! The disk as the kernel sees it through `disk_rd` and `disk_wr`, and the
block allocator. `trace` is a history variable: it records, newest first,
every block written (with the image the write leaves behind), every outcome of
an allocation, and a write that ends the disk server; no function reads it. -/
namespace ArmKernel.Fs

open Lib Lib.Bytes SuperBlock

abbrev Image := UInt32 → Block

inductive Event where
  | wr (a : UInt32) (image : Image)
  | alloc (a : UInt32)
  | full
  | free (a : UInt32)
  | noInode
  | ended

/-- The in-memory superblock and the attached disk of `num` blocks. `stkBlk`
and `stkIc` are the bytes that uninitialised locals happen to hold. -/
structure Vol where
  fs : SuperBlock
  num : Nat
  disk : Image
  trace : List Event
  stkBlk : Block
  stkIc : ICommon

def Vol.log (v : Vol) (e : Event) : Vol := { v with trace := e :: v.trace }

/-- The server takes an address as a signed word. It refuses one past the end,
but a negative one passes its test, and it ends in `fd.seek`: the request is not
answered, and the call does not return. -/
def answered (a : UInt32) : Bool := a.toNat < 2^31

/-- A refused request leaves the buffer. There is no buffer after one that is not
`answered`, and statements about calls that may make one say so. -/
def diskRd (v : Vol) (a : UInt32) (x : Block) : Block :=
  if a.toNat < v.num then v.disk a else x

/-- Nothing is written. The code does not get past `ended`. -/
def Vol.refuse (v : Vol) (a : UInt32) : Vol :=
  { v with trace := if answered a then v.trace else .ended :: v.trace }

def diskWr (v : Vol) (a : UInt32) (x : Block) (n : Nat) : Vol :=
  if a.toNat < v.num then
    let disk := Function.update v.disk a (overlay (v.disk a) x n)
    { v with disk := disk, trace := .wr a disk :: v.trace }
  else v.refuse a

/-- A write has ended the server, and the call that made it has not returned. -/
def Ended (v : Vol) : Prop := .ended ∈ v.trace

/-- The superblock read of `kernel_handler_rst`. -/
def mount (v : Vol) : Vol := { v with fs := diskRd v 1 v.fs }

/-! Block allocation. -/

def updateSb (v : Vol) : Vol := diskWr v (fsSblkno v.fs) v.fs 512

def balloc (v : Vol) : UInt32 × Vol :=
  if 0 < fsFdbhead v.fs then
    let v := updateSb { v with fs := setFdbhead v.fs (fsFdbhead v.fs - 1) }
    let a := fsFdb v.fs ((fsFdbhead v.fs).toNat + 1)
    (a, v.log (.alloc a))
  -- block address 1 is the superblock: no space remaining
  else if fsFdb v.fs (fsFdbhead v.fs).toNat ≠ 1 then
    let addr := fsFdb v.fs (fsFdbhead v.fs).toNat
    let block := diskRd v addr v.stkBlk
    let v := updateSb { v with fs := setFdbhead (loadFdb v.fs block) 63 }
    (addr, v.log (.alloc addr))
  else (noAddr, v.log .full)

def bfree (v : Vol) (a : UInt32) : Nat × Vol :=
  let v := v.log (.free a)
  if fsFdbhead v.fs < 63 then
    let head := fsFdbhead v.fs + 1
    (0, updateSb { v with fs := setFdb (setFdbhead v.fs head) head.toNat a })
  else
    let v := diskWr v a (fdbBytes v.fs) (64*4)
    (1, updateSb { v with fs := setFdbhead (setFdb v.fs 0 a) 0 })

end ArmKernel.Fs
