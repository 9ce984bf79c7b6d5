import ArmKernel.Core.File

/-! `wipe` and `createObjFiles`. -/
namespace ArmKernel.Core

open Lib Lib.Bytes Fs SuperBlock

def cstr (s : String) : CStr := s.toList.map fun c => UInt8.ofNat c.toNat

/-- The files `createObjFiles` makes, in order. -/
def objFiles : List CStr :=
  [cstr "P0", cstr "P1", cstr "P2", cstr "het", cstr "ping", cstr "pong", cstr "blanks", cstr "hashs"]

/-- The bytes of a 32-bit variable. -/
def wordBytes (w : UInt32) : Nat → UInt8 := fun i => leByte w i

def createObjFile (k : Kernel) (name : CStr) (entry : UInt32) : Kernel :=
  match openFile k name .ocreat with
  | (file, k) =>
    let k := (fwrite k file (wordBytes entry) 4).2
    let k := (fwrite k file (wordBytes 1) 4).2
    (close k file).2

def createObjFiles (k : Kernel) : Kernel :=
  (List.finRange 8).foldl (fun k i => createObjFile k (objFiles.getD i.val []) (k.link.entry i)) k

/-- The superblock fields `wipe` sets; the head is `( fs_dsize % 64 ) - 1`. -/
def wipeHeader (fs : SuperBlock) : SuperBlock :=
  ofWords 512 fun i =>
    if i = 0 then 1 else if i = 1 then 2048 else if i = 2 then 2 else if i = 3 then 64*8
    else if i = 4 then 66 else if i = 5 then 1982 else if i = 6 then 1982 % 64 - 1
    else word fs i

/-- Block `i` of the thirty that chain the free list together. -/
def wipeChain (i : Nat) : Block :=
  ofWords 512 fun w =>
    if w = 0 then if i = 29 then 1 else UInt32.ofNat (i + 1 + 66)
    else UInt32.ofNat (63*i + (w - 1) + (66 + 30))

def wipeFdb (fs : SuperBlock) : SuperBlock :=
  ofWords 512 fun i =>
    if i = 7 then 66 else if 7 < i ∧ i < 7 + 62 then UInt32.ofNat (i - 7 + 1986) else word fs i

/-- Free list and superblock. -/
def wipeFree (v : Vol) : Vol :=
  let v := { v with fs := wipeHeader v.fs }
  let v := (List.range 30).foldl
    (fun v i => diskWr v (UInt32.ofNat (i + 66)) (wipeChain i) (64*4)) v
  updateSb { v with fs := wipeFdb v.fs }

/-- The first block of the root directory: one entry over the local array. -/
def rootBlock (junk : Block) : Block :=
  putBytes (setDir junk 0 { getDir junk 0 with dIno := rootDir, dNamlen := 1 }) 6 [dot]

/-- Clear slot `j` of inode block `i`; the root directory gets its block. -/
def wipeSlot (i : Nat) (s : Vol × Block) (j : Nat) : Vol × Block :=
  match s with
  | (v, ic) =>
    if i = 0 ∧ j = 0 then
      match balloc v with
      | (a, v) =>
        (diskWr v a (rootBlock v.stkBlk) 512, setIc ic j
          ({ getIc ic j with icMode := Mode.ifdir.code, icSize := 32 }.setDb 0 a))
    else (v, setIc ic j { getIc ic j with icMode := Mode.ifzero.code, icSize := 0 })

def wipeInodeBlock (v : Vol) (i : Nat) : Vol :=
  let a := UInt32.ofNat i + fsIblkno v.fs
  match (List.range 8).foldl (wipeSlot i) (v, diskRd v a v.stkBlk) with
  | (v, ic) => diskWr v a ic 512

def format (v : Vol) : Vol := (List.range 64).foldl wipeInodeBlock (wipeFree v)

def wipe (k : Kernel) : Kernel := createObjFiles { k with vol := format k.vol }

end ArmKernel.Core
