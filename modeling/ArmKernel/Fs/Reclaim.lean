import ArmKernel.Fs.Contents
import ArmKernel.Fs.Lookup

/-! Creating and deleting one file: which blocks it took from the free list
and which of them deletion puts back. -/
namespace ArmKernel.Fs

open Lib Lib.Bytes Lib.Run SuperBlock

/-! What deletion puts back. -/

def Vol.bare (v : Vol) : Vol := { v with trace := [] }

section

variable {v w : Vol}

theorem diskWr_bare (h : v.bare = w.bare) (a : UInt32) (x : Block) (n : Nat) :
    (diskWr v a x n).bare = (diskWr w a x n).bare := by
  cases v
  cases w
  simp only [Vol.bare, Vol.mk.injEq] at h
  obtain ⟨rfl, rfl, rfl, -, rfl, rfl⟩ := h
  unfold diskWr
  dsimp only
  split <;> rfl

theorem bfree_bare (h : v.bare = w.bare) (a : UInt32) : (bfree v a).2.bare = (bfree w a).2.bare := by
  cases v
  cases w
  simp only [Vol.bare, Vol.mk.injEq] at h
  obtain ⟨rfl, rfl, rfl, -, rfl, rfl⟩ := h
  unfold bfree Vol.log updateSb
  dsimp only
  split
  · dsimp only
    apply diskWr_bare
    rfl
  · dsimp only
    unfold diskWr Vol.refuse
    dsimp only
    split <;> dsimp only <;> split <;> rfl

theorem getDataBlockAddr_bare (h : v.bare = w.bare) (inode : INode) (b : UInt32) :
    getDataBlockAddr v inode b = getDataBlockAddr w inode b := by
  cases v
  cases w
  simp only [Vol.bare, Vol.mk.injEq] at h
  obtain ⟨rfl, rfl, rfl, -, rfl, rfl⟩ := h
  rfl

theorem freeLoop_bare (h : v.bare = w.bare) (inode : INode) {count blk : Nat} (hb : blk + count ≤ 139) :
    (freeLoop count blk v inode).bare = (freeLoop count blk w inode).bare := by
  induction count generalizing blk v w with
  | zero => exact h
  | succ count ih =>
    refine ih ?_ (by omega)
    have hfree := bfree_bare h (getDataBlockAddr v inode (UInt32.ofNat (blk * 512)))
    unfold freeDataBlock
    dsimp only
    rw [← getDataBlockAddr_bare h]
    have hrange : blk < 128 + 11 := by omega
    by_cases h11 : blk < 11
    · rw [if_pos h11, if_pos h11]
      exact hfree
    · rw [if_neg h11, if_neg h11, if_pos hrange, if_pos hrange]
      by_cases hfirst : blk - 11 = 0
      · rw [if_pos hfirst, if_pos hfirst]
        exact bfree_bare hfree _
      · rw [if_neg hfirst, if_neg hfirst]
        exact hfree

end

theorem freeDataBlocks_list {own : Owners} {v : Vol} {l : List UInt32} {c : UInt32} {inode : INode} {n : Nat}
    (ha : Accounted own v l) (hm : Maps own v.disk c inode.iIc n)
    (hn : (inode.iIc.icSize.toNat + 511) / 512 ≤ n)
    (hok : ¬ReadsOverwritten (fsFdbhead v.fs).toNat ((inode.iIc.icSize.toNat + 511) / 512)) :
    Formatted (freeDataBlocks v inode) ∧ FreeList (freeDataBlocks v inode).disk (freeDataBlocks v inode).fs
      ((releasedBefore ((inode.iIc.icSize.toNat + 511) / 512)).map (placeAddr v.disk inode.iIc) ++ l) := by
  have hf : Formatted v.bare := ha.formatted.of_header rfl fun _ _ => rfl
  have hsmall := hm.small
  have hr := released_rounds (v := v.bare) (show WellMapped v.disk inode.iIc n l from hm.wellMapped ha) hf ha.free rfl hn hok
  have hbare := freeLoop_bare (v := v.bare) (w := v) rfl inode
    (show 0 + (inode.iIc.icSize.toNat + 511) / 512 ≤ 139 by omega)
  unfold freeDataBlocks
  generalize freeLoop _ 0 v.bare inode = u at hr hbare
  generalize freeLoop _ 0 v inode = w at hbare ⊢
  cases u
  cases w
  simp only [Vol.bare, Vol.mk.injEq] at hbare
  obtain ⟨rfl, rfl, rfl, -, rfl, rfl⟩ := hbare
  exact ⟨hr.formatted.of_header rfl fun _ _ => rfl, hr.free⟩

theorem length_releasedBefore_eq {n : Nat} (h : n ≤ 139) :
    (releasedBefore n).length = blocksForRange 0 n := by
  rw [length_releasedBefore, blocksForRange_zero, if_neg (show ¬139 < n by omega)]
  rfl

/-! The entry. -/

theorem nameMatch_congr {name : CStr} (hlen : name.length ≤ 25) {b b' : Block} {j j' : Nat}
    (h : getDir b j = getDir b' j') : nameMatch name b j = nameMatch name b' j' := by
  have hbyte : ∀ k < 26, byte b (32*j + 6 + k) = byte b' (32*j' + 6 + k) := by
    intro k hk
    have hname := congrArg (fun e => e.dName[k]?) h
    simpa [getDir, hk] using hname
  rw [Bool.eq_iff_iff]
  unfold nameMatch
  dsimp only
  rw [h]
  simp only [strncmpEq_iff, Nat.zero_add]
  refine forall_congr' fun k => forall_congr' fun _ => forall_congr' fun hnz => ?_
  -- the comparison ends at the end of the name
  have hk : k ≤ name.length := by
    by_contra hlt
    exact hnz name.length (by omega) (List.getD_eq_default _ _ (le_refl _))
  rw [hbyte k (by omega)]

section

variable {own : Owners} {v : Vol} {l : List UInt32} {p : UInt32} {parent : INode} {n : Nat} {name : CStr}
  {cwd : UInt32} {ai : ActiveInodes}

theorem remove_scan (hg : Good own v l) (hp : p.toNat < 512) (hic : parent.iIc = inodeAt v.disk p)
    (hdir : parent.iIc.icMode = Mode.ifdir.code) (hcount : entryCount parent.iIc = n + 1)
    (hold : ∀ e < n, nameMatch name (entryBlock v.disk parent.iIc e) (e % 16) = false)
    (hnew : nameMatch name (entryBlock v.disk parent.iIc n) (n % 16) = true)
    (hrem : removable v cwd ai (dirEntry v.disk parent.iIc n) ≠ noAddr) :
    scanDir v parent (fun dir j => nameMatch name dir j && removable v cwd ai (getDir dir j) != noAddr)
      (scanPlan (parent.iIc.icSize.toNat / 32)) v.stkBlk =
        if (n + 1) % 16 = 0 then none
        else some (mapAddr v.disk parent.iIc (n / 16), entryBlock v.disk parent.iIc n, n % 16) := by
  have hm : Maps own v.disk p parent.iIc (blockCount parent.iIc) := by
    rw [hic] at hdir ⊢
    exact hg.maps p hp (by rw [hdir]; decide)
  rw [scanDir_plan hg.acct hm hdir, hcount]
  split
  · next hfull =>
    rw [scanLimit_full hfull, List.find?_eq_none.mpr, Option.map_none]
    intro e he
    rw [hold e (by have := List.mem_range.mp he; omega)]
    simp
  · next hpart =>
    rw [scanLimit_eq hpart, List.find?_range_eq_some.mpr, Option.map_some]
    refine ⟨?_, List.mem_range.mpr (by omega), fun e he => ?_⟩
    · rw [hnew, Bool.true_and, bne_iff_ne]
      exact hrem
    · rw [hold e he]
      rfl

end

/-! Every block that is not free is somebody's. -/

open Classical in
/-- The owners with every used block given to one: blocks of no live inode go
to a number no inode has. -/
noncomputable def settled (own : Owners) (v : Vol) (l : List UInt32) : Owners := fun x =>
  if DataBlock x ∧ x ∉ l then
    some (match own x with
      | some o => if (shape v.disk).Live o.1 then o else (noAddr, .data 0)
      | none => (noAddr, .data 0))
  else none

section

variable {own own' : Owners} {v : Vol} {l l' : List UInt32}

theorem settled_live {x i : UInt32} {r : Role} (ha : Accounted own v l) (h : own x = some (i, r))
    (hi : (shape v.disk).Live i) : settled own v l x = some (i, r) := by
  unfold settled
  rw [if_pos (ha.owned _ _ h), h]
  simp [hi]

theorem settled_owner {x : UInt32} (hx : DataBlock x) (hl : x ∉ l) :
    ∃ i r, settled own v l x = some (i, r) ∧ ((shape v.disk).Live i ∨ i = noAddr) := by
  unfold settled
  rw [if_pos ⟨hx, hl⟩]
  cases own x with
  | none => exact ⟨noAddr, .data 0, rfl, .inr rfl⟩
  | some o =>
    dsimp only
    split
    · next hlive => exact ⟨o.1, o.2, rfl, .inl hlive⟩
    · exact ⟨noAddr, .data 0, rfl, .inr rfl⟩

theorem Good.settled (h : Good own v l) : Good (settled own v l) v l := by
  refine ⟨⟨h.acct.formatted, h.acct.free, fun x o ho => ?_⟩, h.synced, fun i hi hlive => ?_⟩
  · unfold Fs.settled at ho
    split at ho
    · next hx => exact hx
    · cases ho
  · have hm := h.maps i hi hlive
    have hi' : (shape v.disk).Live i := by rwa [Shape.Live, shape_mode hi]
    exact ⟨hm.small, fun b hb => settled_live h.acct (hm.data b hb) hi',
      fun hn => settled_live h.acct (hm.index hn) hi'⟩

theorem mem_of_settled (hext : Ext (settled own v l) own') (hown : ∀ a o, own' a = some o → a ∉ l')
    {x : UInt32} (hx : DataBlock x) {c : UInt32} (hc : c.toNat < 512) (hdead : ¬(shape v.disk).Live c)
    (hmem : x ∈ l' ∨ ∃ r, own' x = some (c, r)) : x ∈ l := by
  by_contra hl
  obtain ⟨i, r, hs, hi⟩ : ∃ i r, settled own v l x = some (i, r) ∧
    ((shape v.disk).Live i ∨ i = noAddr) := settled_owner hx hl
  have ho := hext _ _ hs
  obtain hmem | ⟨r', hr⟩ := hmem
  · exact hown _ _ ho hmem
  · rw [ho, Option.some.injEq, Prod.mk.injEq] at hr
    obtain ⟨rfl, -⟩ := hr
    obtain hlive | rfl := hi
    · exact hdead hlive
    · exact absurd hc (by decide)

end

end ArmKernel.Fs
