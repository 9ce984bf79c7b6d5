import ArmKernel.Fs.Growth
import ArmKernel.Fs.Directory

/-! The history only grows, so an allocation that failed inside a call is still
on record when the call returns. -/
namespace ArmKernel.Fs

open Lib Lib.Bytes SuperBlock

def Later (v v' : Vol) : Prop := v.trace <:+ v'.trace

theorem Later.refl (v : Vol) : Later v v := List.suffix_refl _

theorem Later.trans {u v w : Vol} (h : Later u v) (h' : Later v w) : Later u w :=
  List.IsSuffix.trans h h'

theorem Failed.later {v v' : Vol} (h : Failed v) (hl : Later v v') : Failed v' := by
  obtain ⟨e, he, hf⟩ := h
  exact ⟨e, hl.subset he, hf⟩

theorem Ended.later {v v' : Vol} (h : Ended v) (hl : Later v v') : Ended v' := hl.subset h

theorem ended_diskWr {v : Vol} {a : UInt32} (ha : answered a = true) (x : Block) (n : Nat) :
    Ended (diskWr v a x n) ↔ Ended v := by
  unfold diskWr
  split
  · simp [Ended]
  · rw [Vol.refuse_answered _ ha]

theorem ended_writeInode {v : Vol} {inode : INode} (hi : fsIblkno v.fs = 2) (h : inode.iNumber.toNat < 512) :
    Ended (writeInode v inode) ↔ Ended v := by
  have hans : answered (inodeBlock inode.iNumber) = true := by
    unfold answered
    rw [inodeBlock_toNat h]
    exact decide_eq_true (by omega)
  unfold writeInode
  dsimp only
  rw [hi]
  exact ended_diskWr hans _ _

def Event.isWr : Event → Bool
  | .wr _ _ => true
  | _ => false

def written (v : Vol) : List Event := v.trace.filter Event.isWr

theorem Later.written {v v' : Vol} (h : Later v v') : written v <:+ written v' := h.filter _

theorem later_log (v : Vol) (e : Event) : Later v (v.log e) := List.suffix_cons _ _

theorem later_diskWr (v : Vol) (a : UInt32) (x : Block) (n : Nat) : Later v (diskWr v a x n) := by
  unfold diskWr Later
  split
  · exact List.suffix_cons _ _
  · unfold Vol.refuse
    dsimp only
    split
    · exact List.suffix_refl _
    · exact List.suffix_cons _ _

theorem later_updateSb (v : Vol) (fs : SuperBlock) : Later v (updateSb { v with fs := fs }) :=
  later_diskWr { v with fs := fs } _ _ _

theorem later_writeInode (v : Vol) (inode : INode) : Later v (writeInode v inode) :=
  later_diskWr ..

theorem later_balloc (v : Vol) : Later v (balloc v).2 := by
  unfold balloc
  split
  · exact (later_updateSb v _).trans (later_log _ _)
  · split
    · exact (later_updateSb v _).trans (later_log _ _)
    · exact later_log _ _

theorem later_putAddr (v : Vol) (t : UInt32) (block : Block) (slot : Nat) (a : UInt32) :
    Later v (putAddr v t block slot a) := later_diskWr ..

theorem later_rootAddr (v : Vol) (inode : INode) (range : Nat) (fresh : Bool) :
    Later v (rootAddr v inode range fresh).2.2 := by
  unfold rootAddr
  split
  · dsimp only
    split
    · exact later_balloc v
    · exact (later_balloc v).trans (later_writeInode ..)
  · exact .refl v

theorem later_childAddr (v : Vol) (block : Block) (slot : Nat) (fresh : Bool) :
    Later v (childAddr v block slot fresh).2.2 := by
  unfold childAddr
  split
  · dsimp only
    split
    · exact later_balloc v
    · exact (later_balloc v).trans (later_diskWr ..)
  · exact .refl v

theorem later_storeSingle (v : Vol) (inode : INode) (blk : Nat) (addr : UInt32) :
    Later v (storeSingle v inode blk addr).2.2 := by
  have hr := later_rootAddr v inode 0 (blk = 0)
  unfold storeSingle
  dsimp only
  split
  · exact hr
  · exact hr.trans (later_putAddr ..)

theorem later_storeDouble (v : Vol) (inode : INode) (blk : Nat) (addr : UInt32) :
    Later v (storeDouble v inode blk addr).2.2 := by
  have hr := later_rootAddr v inode 1 (blk = 0)
  unfold storeDouble
  dsimp only
  split
  · exact hr
  · split
    · exact hr.trans (later_childAddr ..)
    · exact (hr.trans (later_childAddr ..)).trans (later_putAddr ..)

theorem later_storeTriple (v : Vol) (inode : INode) (blk : Nat) (addr : UInt32) :
    Later v (storeTriple v inode blk addr).2.2 := by
  have hr := later_rootAddr v inode 2 (blk = 0)
  unfold storeTriple
  dsimp only
  split
  · exact hr
  · split
    · exact hr.trans (later_childAddr ..)
    · split
      · exact (hr.trans (later_childAddr ..)).trans (later_childAddr ..)
      · exact ((hr.trans (later_childAddr ..)).trans (later_childAddr ..)).trans (later_putAddr ..)

theorem later_allocateDataBlockAddr (v : Vol) (inode : INode) (byte : UInt32) :
    Later v (allocateDataBlockAddr v inode byte).2.2 := by
  have hb := later_balloc v
  unfold allocateDataBlockAddr
  dsimp only
  split
  · exact hb
  · split
    · exact hb.trans (later_writeInode ..)
    · split
      · exact hb.trans (later_storeSingle ..)
      · split
        · exact hb.trans (later_storeDouble ..)
        · split
          · exact hb.trans (later_storeTriple ..)
          · exact hb

theorem later_addInodeToDirectory (v : Vol) (par : INode) (ino : UInt32) (name : CStr) :
    Later v (addInodeToDirectory v par ino name).2 := by
  unfold addInodeToDirectory
  dsimp only
  split
  · exact ((later_allocateDataBlockAddr v par par.iIc.icSize).trans (later_diskWr ..)).trans
      (later_writeInode ..)
  · exact (later_diskWr ..).trans (later_writeInode ..)

/-! Calls that do not fail. -/

theorem not_failed_of_trace {v : Vol} (htrace : v.trace = []) : ¬Failed v := by
  rintro ⟨e, he, -⟩
  rw [htrace] at he
  cases he

theorem not_failed_diskWr {v : Vol} (hf : ¬Failed v) (a : UInt32) (x : Block) (n : Nat) :
    ¬Failed (diskWr v a x n) := by
  rintro ⟨e, he, hfail⟩
  unfold diskWr at he
  split at he
  · obtain rfl | he := List.mem_cons.mp he
    · cases hfail
    · exact hf ⟨e, he, hfail⟩
  · unfold Vol.refuse at he
    dsimp only at he
    split at he
    · exact hf ⟨e, he, hfail⟩
    · obtain rfl | he := List.mem_cons.mp he
      · cases hfail
      · exact hf ⟨e, he, hfail⟩

theorem not_failed_afterAlloc {v : Vol} (hf : ¬Failed v) (fs : SuperBlock) (a : UInt32) :
    ¬Failed (afterAlloc v fs a) := by
  rintro ⟨e, he, hfail⟩
  obtain rfl | he := List.mem_cons.mp he
  · cases hfail
  · obtain rfl | he := List.mem_cons.mp he
    · cases hfail
    · exact hf ⟨e, he, hfail⟩

theorem not_failed_add {v : Vol} {par : INode} (hr : par.iIc.icSize.toNat / 32 % 16 ≠ 0) (ino : UInt32)
    (name : CStr) (hf : ¬Failed v) : ¬Failed (addInodeToDirectory v par ino name).2 := by
  unfold addInodeToDirectory
  dsimp only
  rw [if_neg fun h => hr h.1]
  exact not_failed_diskWr (not_failed_diskWr hf _ _ _) _ _ _

theorem not_failed_remove {v : Vol} (cwd : UInt32) (ai : ActiveInodes) (child : DirEnt) (parent : INode) (name : CStr)
    (hf : ¬Failed v) : ¬Failed (remove v cwd ai child parent name).vol := by
  unfold remove
  dsimp only
  split
  · exact not_failed_diskWr (not_failed_diskWr hf _ _ _) _ _ _
  · exact hf

end ArmKernel.Fs
