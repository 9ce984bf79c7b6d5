import ArmKernel.Fs.Allocator
import ArmKernel.Fs.Inode

/-! Block maps and their owners. An inode's first `n` blocks are reached
through its direct addresses and one index block; the ghost map `own` gives
each of them to one inode in one role, so that maps are injective and disjoint
by construction. -/
namespace ArmKernel.Fs

open Lib Lib.Bytes SuperBlock

/-! Whole-block writes. -/

def Vol.put (v : Vol) (a : UInt32) (x : Block) : Vol := { v with
  disk := Function.update v.disk a x
  trace := .wr a (Function.update v.disk a x) :: v.trace }

theorem put_disk_ne (v : Vol) {a b : UInt32} (x : Block) (h : b ≠ a) :
    (v.put a x).disk b = v.disk b := Function.update_of_ne h _ _

@[simp] theorem put_disk_self (v : Vol) (a : UInt32) (x : Block) : (v.put a x).disk a = x :=
  Function.update_self _ _ _

theorem diskWr_put (v : Vol) {a : UInt32} (x : Block) (h : a.toNat < v.num) :
    diskWr v a x 512 = v.put a x := diskWr_block v x h

/-! Inodes on disk. -/

def inodeBlock (ino : UInt32) : UInt32 := 2 + UInt32.ofNat (ino.toNat / 8)

def inodeAt (d : Image) (ino : UInt32) : ICommon := getIc (d (inodeBlock ino)) (ino.toNat % 8)

theorem inodeBlock_toNat {ino : UInt32} (h : ino.toNat < 512) :
    (inodeBlock ino).toNat = 2 + ino.toNat / 8 := by
  unfold inodeBlock
  rw [UInt32.toNat_add, UInt32.toNat_ofNat']
  simp
  omega

theorem inodeBlock_lt {ino : UInt32} (h : ino.toNat < 512) : (inodeBlock ino).toNat < 66 := by
  rw [inodeBlock_toNat h]
  omega

theorem inodeBlock_ne_one {ino : UInt32} (h : ino.toNat < 512) : inodeBlock ino ≠ 1 := by
  intro he
  have := congrArg UInt32.toNat he
  rw [inodeBlock_toNat h] at this
  simp at this
  omega

theorem DataBlock.ne_inodeBlock {a ino : UInt32} (ha : DataBlock a) (h : ino.toNat < 512) :
    a ≠ inodeBlock ino := by
  rintro rfl
  have h66 : 66 ≤ (inodeBlock ino).toNat := ha.1
  have := inodeBlock_lt h
  omega

theorem inodeBlock_lt_num {v : Vol} {ino : UInt32} (hf : Formatted v) (h : ino.toNat < 512) :
    (inodeBlock ino).toNat < v.num := by
  have := inodeBlock_lt h
  rw [hf.num]
  omega

theorem readInode_eq {v : Vol} {ino : UInt32} (hf : Formatted v) (h : ino.toNat < 512)
    (inode : INode) :
    readInode v inode ino = { inode with iNumber := ino, iIc := inodeAt v.disk ino } := by
  unfold readInode
  rw [hf.iblkno]
  change { inode with iNumber := ino, iIc := getIc (diskRd v (inodeBlock ino) v.stkBlk) _ } = _
  rw [diskRd_lt _ _ (inodeBlock_lt_num hf h)]
  rfl

theorem writeInode_eq {v : Vol} {inode : INode} (hf : Formatted v)
    (h : inode.iNumber.toNat < 512) :
    writeInode v inode = v.put (inodeBlock inode.iNumber)
      (setIc (v.disk (inodeBlock inode.iNumber)) (inode.iNumber.toNat % 8) inode.iIc) := by
  have hlt := inodeBlock_lt_num hf h
  unfold writeInode
  dsimp only
  rw [hf.iblkno]
  change diskWr v (inodeBlock inode.iNumber)
    (setIc (diskRd v (inodeBlock inode.iNumber) v.stkBlk) _ _) 512 = _
  rw [diskRd_lt _ _ hlt, diskWr_put _ _ hlt]

theorem inodeAt_put_ne {v : Vol} {a ino : UInt32} (x : Block) (h : a ≠ inodeBlock ino) :
    inodeAt (v.put a x).disk ino = inodeAt v.disk ino := by
  unfold inodeAt
  rw [put_disk_ne v x h.symm]

theorem inodeAt_writeInode_self {v : Vol} {inode : INode} (hf : Formatted v)
    (h : inode.iNumber.toNat < 512) : inodeAt (writeInode v inode).disk inode.iNumber = inode.iIc := by
  unfold inodeAt
  rw [writeInode_eq hf h, put_disk_self, getIc_setIc_self _ _ (by omega)]

theorem inodeAt_writeInode_ne {v : Vol} {inode : INode} {j : UInt32} (hf : Formatted v)
    (h : inode.iNumber.toNat < 512) (hj : j.toNat < 512) (hne : j ≠ inode.iNumber) :
    inodeAt (writeInode v inode).disk j = inodeAt v.disk j := by
  rw [writeInode_eq hf h]
  by_cases hb : inodeBlock inode.iNumber = inodeBlock j
  · have hq := congrArg UInt32.toNat hb
    rw [inodeBlock_toNat h, inodeBlock_toNat hj] at hq
    have hnat : j.toNat ≠ inode.iNumber.toNat := fun he => hne (UInt32.toNat_inj.mp he)
    unfold inodeAt
    rw [← hb, put_disk_self, getIc_setIc_ne _ _ (by omega) (by omega)]
  · exact inodeAt_put_ne _ hb

theorem writeInode_unchanged {v : Vol} {inode : INode} (hf : Formatted v) (h : inode.iNumber.toNat < 512)
    (hic : inode.iIc = inodeAt v.disk inode.iNumber) :
    writeInode v inode = { v with trace := .wr (inodeBlock inode.iNumber) v.disk :: v.trace } := by
  have hdisk : Function.update v.disk (inodeBlock inode.iNumber)
      (setIc (v.disk (inodeBlock inode.iNumber)) (inode.iNumber.toNat % 8) inode.iIc) = v.disk := by
    rw [hic, inodeAt, setIc_getIc]
    exact Function.update_eq_self _ _
  rw [writeInode_eq hf h, Vol.put, hdisk]

@[simp] theorem writeInode_fs (v : Vol) (inode : INode) : (writeInode v inode).fs = v.fs := by
  simp [writeInode]

@[simp] theorem writeInode_num (v : Vol) (inode : INode) : (writeInode v inode).num = v.num := by
  simp [writeInode]

@[simp] theorem writeInode_stkBlk (v : Vol) (inode : INode) :
    (writeInode v inode).stkBlk = v.stkBlk := by
  simp [writeInode]

@[simp] theorem writeInode_stkIc (v : Vol) (inode : INode) :
    (writeInode v inode).stkIc = v.stkIc := by
  simp [writeInode]

theorem writeInode_disk_ne {v : Vol} {inode : INode} {x : UInt32} (hf : Formatted v)
    (h : inode.iNumber.toNat < 512) (hx : x ≠ inodeBlock inode.iNumber) :
    (writeInode v inode).disk x = v.disk x := by
  rw [writeInode_eq hf h, put_disk_ne _ _ hx]

/-! Maps. -/

inductive Role where
  | data (i : Nat) | index
deriving DecidableEq

abbrev Owners := UInt32 → Option (UInt32 × Role)

/-- Block `i` of a file, below the double indirect range. -/
def mapAddr (d : Image) (ic : ICommon) (i : Nat) : UInt32 :=
  if i < 11 then ic.db i else word (d (ic.ib 0)) (i - 11)

structure Maps (own : Owners) (d : Image) (ino : UInt32) (ic : ICommon) (n : Nat) : Prop where
  small : n ≤ 139
  data : ∀ i < n, own (mapAddr d ic i) = some (ino, .data i)
  index : 11 < n → own (ic.ib 0) = some (ino, .index)

theorem Maps.nil (own : Owners) (d : Image) (ino : UInt32) (ic : ICommon) : Maps own d ino ic 0 :=
  ⟨by omega, fun _ h => absurd h (by omega), fun h => absurd h (by omega)⟩

theorem Maps.le {own : Owners} {d : Image} {ino : UInt32} {ic : ICommon} {m n : Nat}
    (h : Maps own d ino ic n) (hm : m ≤ n) : Maps own d ino ic m :=
  ⟨hm.trans h.small, fun i hi => h.data i (by omega), fun hi => h.index (by omega)⟩

theorem Maps.resize {own : Owners} {d : Image} {ino : UInt32} {ic : ICommon} {n : Nat}
    (h : Maps own d ino ic n) (mode size : UInt32) :
    Maps own d ino { ic with icMode := mode, icSize := size } n :=
  ⟨h.small, h.data, h.index⟩

theorem Maps.frame {own own' : Owners} {d d' : Image} {ino : UInt32} {ic : ICommon} {n : Nat}
    (h : Maps own d ino ic n) (hext : ∀ a o, own a = some o → own' a = some o)
    (hd : 11 < n → d' (ic.ib 0) = d (ic.ib 0)) : Maps own' d' ino ic n := by
  refine ⟨h.small, fun i hi => ?_, fun hi => hext _ _ (h.index hi)⟩
  have := hext _ _ (h.data i hi)
  unfold mapAddr at this ⊢
  split
  · next hlt => rwa [if_pos hlt] at this
  · next hlt =>
    rw [if_neg hlt] at this
    rwa [hd (by omega)]

theorem getDataBlockAddr_eq {v : Vol} {inode : INode} {byte : UInt32} (hf : Formatted v)
    (hi : byte.toNat / 512 < 139) (hx : 11 ≤ byte.toNat / 512 → DataBlock (inode.iIc.ib 0)) :
    getDataBlockAddr v inode byte = mapAddr v.disk inode.iIc (byte.toNat / 512) := by
  unfold getDataBlockAddr mapAddr
  dsimp only
  split
  · rfl
  · next h11 =>
    rw [singleAddr, diskRd_lt _ _ ((hx (by omega)).lt_num hf)]

structure Accounted (own : Owners) (v : Vol) (l : List UInt32) : Prop where
  formatted : Formatted v
  free : FreeList v.disk v.fs l
  owned : ∀ a o, own a = some o → DataBlock a ∧ a ∉ l

theorem Maps.addr_dataBlock {own : Owners} {v : Vol} {l : List UInt32} {ino : UInt32}
    {ic : ICommon} {n i : Nat} (ha : Accounted own v l) (h : Maps own v.disk ino ic n) (hi : i < n) :
    DataBlock (mapAddr v.disk ic i) := (ha.owned _ _ (h.data i hi)).1

theorem Maps.reads {own : Owners} {v : Vol} {l : List UInt32} {inode : INode} {ino : UInt32}
    {n : Nat} {byte : UInt32} (ha : Accounted own v l) (h : Maps own v.disk ino inode.iIc n)
    (hi : byte.toNat / 512 < n) :
    getDataBlockAddr v inode byte = mapAddr v.disk inode.iIc (byte.toNat / 512) := by
  have hs := h.small
  exact getDataBlockAddr_eq ha.formatted (by omega) fun h11 => (ha.owned _ _ (h.index (by omega))).1

end ArmKernel.Fs
