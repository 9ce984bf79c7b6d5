import ArmKernel.Fs.Volume

/-! Inode table and block maps: `readInode`, `writeInode`, `getFreeInode`, the
reader and the writer of the direct and indirect ranges, growth and release.
Throughout, 512 is `BLOCK_SIZE`, 11 is `NDADDR` and 128 is `ls`, the number of
addresses in an index block. -/
namespace ArmKernel.Fs

open Lib Lib.Bytes SuperBlock

def readInode (v : Vol) (inode : INode) (ino : UInt32) : INode :=
  let ic := diskRd v (fsIblkno v.fs + UInt32.ofNat (ino.toNat / 8)) v.stkBlk
  { inode with iNumber := ino, iIc := getIc ic (ino.toNat % 8) }

def writeInode (v : Vol) (inode : INode) : Vol :=
  let a := fsIblkno v.fs + UInt32.ofNat (inode.iNumber.toNat / 8)
  let ic := diskRd v a v.stkBlk
  diskWr v a (setIc ic (inode.iNumber.toNat % 8) inode.iIc) 512

/-- The scan of `getFreeInode`: the first unused number in the listed blocks. -/
def findFree (v : Vol) : List Nat → Block → Option Nat
  | [], _ => none
  | i :: rest, ic =>
    let ic := diskRd v (fsIblkno v.fs + UInt32.ofNat i) ic
    match (List.range 8).find? fun j => (getIc ic j).icMode == Mode.ifzero.code with
    | some j => some (8*i + j)
    | none => findFree v rest ic

def getFreeInode (v : Vol) (inode : INode) : Option INode × Vol :=
  match findFree v (List.range ((fsIsize v.fs).toNat / 8)) v.stkBlk with
  | some n => (some { inode with
      iNumber := UInt32.ofNat n
      iIc := { inode.iIc with icMode := Mode.ifreg.code, icSize := 0 } }, v)
  | none => (none, v.log .noInode)

/-! Block maps. -/

/-- Index `blk` of the single indirect range. -/
def singleAddr (v : Vol) (inode : INode) (blk : Nat) : UInt32 :=
  word (diskRd v (inode.iIc.ib 0) v.stkBlk) blk

def doubleAddr (v : Vol) (inode : INode) (blk : Nat) : UInt32 :=
  let block := diskRd v (inode.iIc.ib 1) v.stkBlk
  let block := diskRd v (word block (blk / 128)) block
  word block (blk % 128)

def tripleAddr (v : Vol) (inode : INode) (blk : Nat) : UInt32 :=
  let block := diskRd v (inode.iIc.ib 2) v.stkBlk
  let block := diskRd v (word block (blk / (128*128))) block
  let block := diskRd v (word block (blk % (128*128) / 128)) block
  word block (blk % 128)

def getDataBlockAddr (v : Vol) (inode : INode) (byte : UInt32) : UInt32 :=
  let blk := byte.toNat / 512
  if blk < 11 then inode.iIc.db blk
  else if blk < 128 + 11 then singleAddr v inode (blk - 11)
  else if blk < 128*128 + 128 + 11 then doubleAddr v inode (blk - (128 + 11))
  else if blk < 128*128*128 + 128*128 + 128 + 11 then
    tripleAddr v inode (blk - (128*128 + 128 + 11))
  else noAddr

def getDataBlock (v : Vol) (block : Block) (inode : INode) (byte : UInt32) : UInt32 × Block :=
  let addr := getDataBlockAddr v inode byte
  (addr, diskRd v addr block)

/-- The root of an indirect range: a fresh block when its first index is
allocated, otherwise what the inode holds. -/
def rootAddr (v : Vol) (inode : INode) (range : Nat) (fresh : Bool) : UInt32 × INode × Vol :=
  if fresh then
    match balloc v with
    | (taddr, v) =>
      if taddr = noAddr then (noAddr, inode, v)
      else
        let inode := { inode with iIc := inode.iIc.setIb range taddr }
        (taddr, inode, writeInode v inode)
  else (inode.iIc.ib range, inode, v)

/-- A node below the root. The pointer is stored in the buffer, and the buffer
is written to the child's own address. -/
def childAddr (v : Vol) (block : Block) (slot : Nat) (fresh : Bool) : UInt32 × Block × Vol :=
  if fresh then
    match balloc v with
    | (taddr, v) =>
      if taddr = noAddr then (noAddr, block, v)
      else
        let block := setWord block slot taddr
        (taddr, block, diskWr v taddr block 512)
  else (word block slot, block, v)

/-- Store `addr` in a leaf index block. -/
def putAddr (v : Vol) (taddr : UInt32) (block : Block) (slot : Nat) (addr : UInt32) : Vol :=
  diskWr v taddr (setWord (diskRd v taddr block) slot addr) 512

/-- Enter `addr` as index `blk` of the single indirect range. -/
def storeSingle (v : Vol) (inode : INode) (blk : Nat) (addr : UInt32) : UInt32 × INode × Vol :=
  match rootAddr v inode 0 (blk = 0) with
  | (taddr, inode, v) =>
    if blk = 0 ∧ taddr = noAddr then (noAddr, inode, v)
    else (addr, inode, putAddr v taddr v.stkBlk blk addr)

def storeDouble (v : Vol) (inode : INode) (blk : Nat) (addr : UInt32) : UInt32 × INode × Vol :=
  match rootAddr v inode 1 (blk = 0) with
  | (taddr, inode, v) =>
    if blk = 0 ∧ taddr = noAddr then (noAddr, inode, v)
    else
      match childAddr v (diskRd v taddr v.stkBlk) (blk / 128) (blk % 128 = 0) with
      | (taddr, block, v) =>
        if blk % 128 = 0 ∧ taddr = noAddr then (noAddr, inode, v)
        else (addr, inode, putAddr v taddr block (blk % 128) addr)

def storeTriple (v : Vol) (inode : INode) (blk : Nat) (addr : UInt32) : UInt32 × INode × Vol :=
  match rootAddr v inode 2 (blk = 0) with
  | (taddr, inode, v) =>
    if blk = 0 ∧ taddr = noAddr then (noAddr, inode, v)
    else
      match childAddr v (diskRd v taddr v.stkBlk) (blk / (128*128)) (blk % (128*128) = 0) with
      | (taddr, block, v) =>
        if blk % (128*128) = 0 ∧ taddr = noAddr then (noAddr, inode, v)
        else
          let blk := blk % (128*128)
          match childAddr v (diskRd v taddr block) (blk / 128) (blk % 128 = 0) with
          | (taddr, block, v) =>
            if blk % 128 = 0 ∧ taddr = noAddr then (noAddr, inode, v)
            else (addr, inode, putAddr v taddr block (blk % 128) addr)

def allocateDataBlockAddr (v : Vol) (inode : INode) (byte : UInt32) : UInt32 × INode × Vol :=
  let blk := byte.toNat / 512
  match balloc v with
  | (addr, v) =>
    if addr = noAddr then (noAddr, inode, v)
    else if blk < 11 then
      let inode := { inode with iIc := inode.iIc.setDb blk addr }
      (addr, inode, writeInode v inode)
    else if blk < 128 + 11 then storeSingle v inode (blk - 11) addr
    else if blk < 128*128 + 128 + 11 then storeDouble v inode (blk - (128 + 11)) addr
    else if blk < 128*128*128 + 128*128 + 128 + 11 then
      storeTriple v inode (blk - (128*128 + 128 + 11)) addr
    else (addr, inode, v)

/-- The loop of `allocateDataBlocks`: `count` blocks from index `i` on, until
one fails. -/
def allocateLoop : Nat → Nat → Vol → INode → Bool × INode × Vol
  | 0, _, v, inode => (true, inode, v)
  | count+1, i, v, inode =>
    match allocateDataBlockAddr v inode (UInt32.ofNat (i * 512)) with
    | (addr, inode, v) =>
      if addr = noAddr then (false, inode, v) else allocateLoop count (i+1) v inode

def allocateDataBlocks (v : Vol) (inode : INode) (bytes : UInt32) : UInt32 × INode × Vol :=
  let b := inode.iIc.icSize.toNat / 512
  let n := (inode.iIc.icSize + bytes).toNat / 512
  match allocateLoop (n - b) (b + 1) v inode with
  | (false, inode, v) => (noAddr, inode, v)
  | (true, inode, v) =>
    let size := inode.iIc.icSize + bytes
    (size, { inode with iIc := { inode.iIc with icSize := size } }, v)

/-- The index blocks whose first block was block `blk` of the double indirect
range. -/
def freeDouble (v : Vol) (inode : INode) (blk : Nat) : Vol :=
  let block := diskRd v (inode.iIc.ib 1) v.stkBlk
  let v := if blk % 128 = 0 then (bfree v (word block (blk / 128))).2 else v
  if blk = 0 then (bfree v (inode.iIc.ib 1)).2 else v

def freeTriple (v : Vol) (inode : INode) (blk : Nat) : Vol :=
  let block := diskRd v (inode.iIc.ib 2) v.stkBlk
  let block := diskRd v (word block (blk / (128*128))) block
  let v := if blk % (128*128) % 128 = 0 then (bfree v (word block (blk % (128*128) / 128))).2 else v
  let block := diskRd v (inode.iIc.ib 2) block
  let v := if blk % (128*128) = 0 then (bfree v (word block (blk / (128*128)))).2 else v
  if blk = 0 then (bfree v (inode.iIc.ib 2)).2 else v

/-- One round of the loop of `freeDataBlocks`: the data block, then the index
blocks whose first block this was. -/
def freeDataBlock (v : Vol) (inode : INode) (blk : Nat) : Vol :=
  let v := (bfree v (getDataBlockAddr v inode (UInt32.ofNat (blk * 512)))).2
  if blk < 11 then v
  else if blk < 128 + 11 then
    if blk - 11 = 0 then (bfree v (inode.iIc.ib 0)).2 else v
  else if blk < 128*128 + 128 + 11 then freeDouble v inode (blk - (128 + 11))
  else if blk < 128*128*128 + 128*128 + 128 + 11 then
    freeTriple v inode (blk - (128*128 + 128 + 11))
  else v

def freeLoop : Nat → Nat → Vol → INode → Vol
  | 0, _, v, _ => v
  | count+1, blk, v, inode => freeLoop count (blk+1) (freeDataBlock v inode blk) inode

def freeDataBlocks (v : Vol) (inode : INode) : Vol :=
  freeLoop ((inode.iIc.icSize.toNat + 511) / 512) 0 v inode

end ArmKernel.Fs
