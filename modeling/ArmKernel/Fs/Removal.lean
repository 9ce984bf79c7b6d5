import ArmKernel.Fs.Paths
import ArmKernel.Fs.Release

/-! Deleting a file: the last entry of the directory takes the place of the
removed one, the file's direct blocks go back to the free list, and the inode
is marked unused. -/
namespace ArmKernel.Fs

open Lib Lib.Bytes SuperBlock

/-! Giving the blocks back. -/

def forget (own : Owners) (c : UInt32) : Owners := fun x =>
  match own x with
  | some (i, r) => if i = c then none else some (i, r)
  | none => none

theorem forget_some {own : Owners} {c x : UInt32} {o : UInt32 × Role} :
    forget own c x = some o ↔ own x = some o ∧ o.1 ≠ c := by
  unfold forget
  cases h : own x with
  | none => simp
  | some o' =>
    obtain ⟨i, r⟩ := o'
    by_cases hi : i = c
    · simp [hi]
      rintro rfl
      simp
    · simp [hi]
      rintro rfl
      exact hi

theorem Maps.forget {own : Owners} {d d' : Image} {i c : UInt32} {ic : ICommon} {n : Nat}
    (h : Maps own d i ic n) (hi : i ≠ c) (hd : ∀ x, own x = some (i, .index) → d' x = d x) :
    Maps (forget own c) d' i ic n := by
  have hsome : ∀ x r, own x = some (i, r) → Fs.forget own c x = some (i, r) := fun x r hx =>
    forget_some.mpr ⟨hx, hi⟩
  have hmap : ∀ b < n, mapAddr d' ic b = mapAddr d ic b := fun b hb =>
    mapAddr_congr fun h11 => hd _ (h.index (by omega))
  refine ⟨h.small, fun b hb => ?_, fun hn => hsome _ _ (h.index hn)⟩
  rw [hmap b hb]
  exact hsome _ _ (h.data b hb)

/-- Direct blocks `0, …, b-1` of a file are back on the free list. -/
structure Freed (v v' : Vol) (l l' : List UInt32) (ic : ICommon) (b : Nat) : Prop where
  formatted : Formatted v'
  synced : Synced v'
  free : FreeList v'.disk v'.fs l'
  mem : ∀ x ∈ l', x ∈ l ∨ ∃ j < b, x = ic.db j
  frame : ∀ x, x ≠ 1 → (∀ j < b, x ≠ ic.db j) → v'.disk x = v.disk x

theorem freeLoop_freed {own : Owners} {v : Vol} {l : List UInt32} {inode : INode} {c : UInt32}
    {n b : Nat} (ha : Accounted own v l) (hs : Synced v) (hm : Maps own v.disk c inode.iIc n)
    (hn : n ≤ 11) (hb : b ≤ n) : ∃ l', Freed v (freeLoop b 0 v inode) l l' inode.iIc b := by
  have hown : ∀ j < n, own (inode.iIc.db j) = some (c, .data j) := fun j hj => by
    have := hm.data j hj
    rwa [mapAddr, if_pos (by omega)] at this
  induction b with
  | zero => exact ⟨l, ha.formatted, hs, ha.free, fun x hx => .inl hx, fun _ _ _ => rfl⟩
  | succ b ih =>
    obtain ⟨l', hf⟩ := ih (by omega)
    have hcode : freeLoop (b+1) 0 v inode = (bfree (freeLoop b 0 v inode) (inode.iIc.db b)).2 := by
      rw [freeLoop_succ, Nat.zero_add, freeDataBlock, releaseAddr_direct (by omega)]
      exact if_pos (by omega)
    obtain ⟨hda, hal⟩ := ha.owned _ _ (hown b (by omega))
    have hdistinct : ∀ j < b, inode.iIc.db b ≠ inode.iIc.db j := fun j hj he => by
      have := hown b (by omega)
      rw [he, hown j (by omega)] at this
      simp at this
      omega
    have hnew : inode.iIc.db b ∉ l' := fun hmem => by
      rcases hf.mem _ hmem with h | ⟨j, hj, he⟩
      · exact hal h
      · exact hdistinct j hj he
    have hp := bfree_pushed hf.formatted hda hf.free.head
    rw [hcode]
    refine ⟨inode.iIc.db b :: l', hp.formatted hf.formatted, hp.synced,
      bfree_freeList hf.formatted hf.free hda hnew, fun x hx => ?_, fun x h1 hx => ?_⟩
    · rcases List.mem_cons.mp hx with rfl | hx
      · exact .inr ⟨b, by omega, rfl⟩
      · rcases hf.mem x hx with h | ⟨j, hj, he⟩
        · exact .inl h
        · exact .inr ⟨j, by omega, he⟩
    · rw [hp.frame x h1 (hx b (by omega)), hf.frame x h1 fun j hj => hx j (by omega)]

/-- The second half of `unlink`: what it leaves of a good volume. -/
structure Buried (own : Owners) (v v' : Vol) (l' : List UInt32) (c : UInt32) : Prop where
  good : Good (forget own c) v' l'
  dead : (inodeAt v'.disk c).icMode = Mode.ifzero.code
  inodes : ∀ j, j.toNat < 512 → j ≠ c → inodeAt v'.disk j = inodeAt v.disk j
  frame : ∀ x i r, own x = some (i, r) → i ≠ c → v'.disk x = v.disk x

theorem bury {own : Owners} {v : Vol} {l : List UInt32} {c : UInt32} (inode : INode)
    (hg : Good own v l) (hc : c.toNat < 512) (hnum : inode.iNumber = c)
    (hic : inode.iIc = inodeAt v.disk c) (hlive : (inodeAt v.disk c).icMode ≠ Mode.ifzero.code)
    (hsize : (inodeAt v.disk c).icSize.toNat ≤ 11 * 512) :
    ∃ l', Buried own v (writeInode (freeDataBlocks v inode) { inode with
      iIc := { inode.iIc with icMode := Mode.ifzero.code, icSize := 0 } }) l' c := by
  have hm := hg.maps c hc hlive
  rw [← hic] at hm hsize
  set n := (inode.iIc.icSize.toNat + 511) / 512 with hn
  have hle : n ≤ blockCount inode.iIc := by
    unfold blockCount
    split <;> omega
  obtain ⟨l', hf⟩ := freeLoop_freed hg.acct hg.synced (hm.le hle) (by omega) (Nat.le_refl n)
  rw [show freeDataBlocks v inode = freeLoop n 0 v inode from rfl]
  set v₂ := freeLoop n 0 v inode with hv₂
  set inode₃ : INode := { inode with
    iIc := { inode.iIc with icMode := Mode.ifzero.code, icSize := 0 } } with hinode₃
  have hnum₃ : inode₃.iNumber = c := hnum
  have hlt₃ : inode₃.iNumber.toNat < 512 := by rw [hnum₃]; exact hc
  -- blocks of other inodes and the inode blocks were not among those freed
  have hdb : ∀ j < n, own (inode.iIc.db j) = some (c, .data j) := fun j hj => by
    have := hm.data j (by omega)
    rwa [mapAddr, if_pos (by omega)] at this
  have hframe₂ : ∀ x, x ≠ 1 → (∀ r, own x ≠ some (c, r)) → v₂.disk x = v.disk x := fun x h1 hx =>
    hf.frame x h1 fun j hj he => hx _ (he ▸ hdb j hj)
  have hinode₂ : ∀ j, j.toNat < 512 → inodeAt v₂.disk j = inodeAt v.disk j := fun j hj => by
    unfold inodeAt
    rw [hframe₂ _ (inodeBlock_ne_one hj) fun r hr => (hg.acct.owned _ _ hr).1.ne_inodeBlock hj rfl]
  have hinodes : ∀ j, j.toNat < 512 → j ≠ c →
      inodeAt (writeInode v₂ inode₃).disk j = inodeAt v.disk j := fun j hj hne => by
    rw [inodeAt_writeInode_ne hf.formatted hlt₃ hj (by rw [hnum₃]; exact hne), hinode₂ j hj]
  have hself : inodeAt (writeInode v₂ inode₃).disk c = inode₃.iIc := by
    rw [← hnum₃]
    exact inodeAt_writeInode_self hf.formatted hlt₃
  have hframe : ∀ x i r, own x = some (i, r) → i ≠ c → (writeInode v₂ inode₃).disk x = v.disk x :=
    fun x i r hx hi => by
      have hd := (hg.acct.owned _ _ hx).1
      rw [writeInode_disk_ne hf.formatted hlt₃ (hd.ne_inodeBlock hlt₃), hframe₂ x hd.ne_one fun r' => ?_]
      rw [hx]
      simp [hi]
  have hacct₂ : Accounted (forget own c) v₂ l' := by
    refine ⟨hf.formatted, hf.free, fun x o ho => ?_⟩
    obtain ⟨ho, hne⟩ := forget_some.mp ho
    obtain ⟨hd, hl⟩ := hg.acct.owned x o ho
    refine ⟨hd, fun hmem => ?_⟩
    rcases hf.mem x hmem with h | ⟨j, hj, rfl⟩
    · exact hl h
    · rw [hdb j hj] at ho
      cases ho
      exact hne rfl
  refine ⟨l', ⟨hacct₂.writeInode hlt₃, ?_, fun j hj hjlive => ?_⟩, ?_, hinodes, hframe⟩
  · unfold Synced
    rw [writeInode_disk_ne hf.formatted hlt₃ (inodeBlock_ne_one hlt₃).symm, writeInode_fs]
    exact hf.synced
  · have hjc : j ≠ c := by
      rintro rfl
      rw [hself] at hjlive
      exact hjlive rfl
    rw [hinodes j hj hjc] at hjlive ⊢
    exact (hg.maps j hj hjlive).forget hjc fun x hx => hframe x j _ hx hjc
  · rw [hself]

/-! Taking the entry out of the directory. -/

/-- The first half of `unlink`: entry `e` of directory `p` is overwritten by the
last one. -/
structure Unlisted (own : Owners) (v v' : Vol) (l : List UInt32) (p : UInt32) (e : Nat) : Prop where
  good : Good own v' l
  inodes : ∀ j, j.toNat < 512 → j ≠ p → inodeAt v'.disk j = inodeAt v.disk j
  mode : (inodeAt v'.disk p).icMode = (inodeAt v.disk p).icMode
  size : (inodeAt v'.disk p).icSize.toNat = (inodeAt v.disk p).icSize.toNat - 32
  entry : ∀ i < entryCount (inodeAt v.disk p) - 1, dirEntry v'.disk (inodeAt v'.disk p) i =
    dirEntry v.disk (inodeAt v.disk p) (swapIndex (entryCount (inodeAt v.disk p)) e i)
  frame : ∀ x i r, own x = some (i, r) → i ≠ p → v'.disk x = v.disk x
  maps : ∀ j ic m, Maps own v.disk j ic m → Maps own v'.disk j ic m

theorem Unlisted.entryCount {own : Owners} {v v' : Vol} {l : List UInt32} {p : UInt32} {e : Nat}
    (h : Unlisted own v v' l p e) : entryCount (inodeAt v'.disk p) = entryCount (inodeAt v.disk p) - 1 := by
  unfold Fs.entryCount
  rw [h.size]
  omega

theorem getLastDir_eq {own : Owners} {v : Vol} {l : List UInt32} {p : UInt32} {parent : INode}
    (ha : Accounted own v l) (hm : Maps own v.disk p parent.iIc (blockCount parent.iIc))
    (hdir : parent.iIc.icMode = Mode.ifdir.code) (h32 : parent.iIc.icSize.toNat % 32 = 0)
    (hpos : 0 < parent.iIc.icSize.toNat) :
    getLastDir v parent = dirEntry v.disk parent.iIc (entryCount parent.iIc - 1) := by
  have hlast : entryCount parent.iIc - 1 < entryCount parent.iIc := by
    unfold entryCount
    omega
  have hblk := div_lt_blockCount_of_entry hdir hlast
  have hsub : (parent.iIc.icSize - 32).toNat = parent.iIc.icSize.toNat - 32 :=
    UInt32.toNat_sub_of_le _ _ (UInt32.le_iff_toNat_le.mpr (show 32 ≤ _ by omega))
  have hdiv : (parent.iIc.icSize / 32).toNat = parent.iIc.icSize.toNat / 32 := UInt32.toNat_div ..
  have hone : (parent.iIc.icSize / 32 - 1).toNat = parent.iIc.icSize.toNat / 32 - 1 := by
    rw [UInt32.toNat_sub_of_le _ _ (UInt32.le_iff_toNat_le.mpr (by rw [hdiv]; show 1 ≤ _; omega)), hdiv]
    rfl
  have hi : (parent.iIc.icSize - 32).toNat / 512 = (entryCount parent.iIc - 1) / 16 := by
    rw [hsub]
    unfold entryCount
    omega
  unfold getLastDir dirEntry
  simp only [getDataBlock]
  rw [hm.reads ha (by omega), hi, hone,
    diskRd_lt _ _ ((hm.addr_dataBlock ha hblk).lt_num ha.formatted)]
  rfl

theorem unlist {own : Owners} {v : Vol} {l : List UInt32} {p : UInt32} {parent : INode} {e : Nat}
    (hg : Good own v l) (hp : p.toNat < 512) (hnum : parent.iNumber = p)
    (hic : parent.iIc = inodeAt v.disk p) (hdir : parent.iIc.icMode = Mode.ifdir.code)
    (h32 : parent.iIc.icSize.toNat % 32 = 0) (he : e < entryCount parent.iIc) :
    Unlisted own v (writeInode
      (diskWr v (mapAddr v.disk parent.iIc (e / 16))
        (setDir (v.disk (mapAddr v.disk parent.iIc (e / 16))) (e % 16) (getLastDir v parent)) 512)
      { parent with iIc := { parent.iIc with icSize := parent.iIc.icSize - 32 } }) l p e := by
  have hpos : 0 < parent.iIc.icSize.toNat := by
    unfold entryCount at he
    omega
  have hm : Maps own v.disk p parent.iIc (blockCount parent.iIc) := by
    rw [hic] at hdir ⊢
    exact hg.maps p hp (by rw [hdir]; decide)
  have hblk := div_lt_blockCount_of_entry hdir he
  have hown := hm.data _ hblk
  obtain ⟨hda, hal⟩ := hg.acct.owned _ _ hown
  rw [getLastDir_eq hg.acct hm hdir h32 hpos]
  set addr := mapAddr v.disk parent.iIc (e / 16) with haddr
  set n := entryCount parent.iIc with hn
  set x := setDir (v.disk addr) (e % 16) (dirEntry v.disk parent.iIc (n - 1)) with hx
  rw [diskWr_put _ _ (hda.lt_num hg.acct.formatted)]
  have hindex : ∀ q, own addr ≠ some (q, .index) := fun q => by simp [hown]
  have hg₁ := hg.put_data x hda hal hindex
  set v₁ := v.put addr x with hv₁
  set parent₂ : INode := { parent with
    iIc := { parent.iIc with icSize := parent.iIc.icSize - 32 } } with hparent₂
  have hlt₂ : parent₂.iNumber.toNat < 512 := by rw [show parent₂.iNumber = p from hnum]; exact hp
  have hsize₂ : parent₂.iIc.icSize.toNat = parent.iIc.icSize.toNat - 32 :=
    UInt32.toNat_sub_of_le _ _ (UInt32.le_iff_toNat_le.mpr (show 32 ≤ _ by omega))
  have hmode₂ : parent₂.iIc.icMode = Mode.ifdir.code := hdir
  have hcount₂ : blockCount parent₂.iIc ≤ blockCount parent.iIc := by
    rw [blockCount_dir hmode₂, blockCount_dir hdir, hsize₂]
    omega
  have hm₁ : Maps own v₁.disk parent₂.iNumber parent₂.iIc (blockCount parent.iIc) := by
    rw [show parent₂.iNumber = p from hnum]
    exact (hm.put x hindex).resize parent.iIc.icMode _
  have hf₁ := hg₁.acct.formatted
  have hself : inodeAt (writeInode v₁ parent₂).disk p = parent₂.iIc := by
    rw [← hnum]
    exact inodeAt_writeInode_self hf₁ hlt₂
  have hdisk : ∀ y, DataBlock y → (writeInode v₁ parent₂).disk y = v₁.disk y := fun y hy =>
    writeInode_disk_ne hf₁ hlt₂ (hy.ne_inodeBlock hlt₂)
  refine ⟨hg₁.writeInode hlt₂ fun _ => hm₁.le hcount₂, fun j hj hne => ?_, ?_, ?_, fun i hi => ?_,
    fun y i r hy hi => ?_, fun j ic m hj => (hj.put x hindex).writeInode hg₁.acct hlt₂⟩
  · rw [inodeAt_writeInode_ne hf₁ hlt₂ hj (by rw [show parent₂.iNumber = p from hnum]; exact hne),
      inodeAt_put_ne _ (hda.ne_inodeBlock hj)]
  · rw [hself, ← hic]
  · rw [hself, ← hic]
    exact hsize₂
  · rw [← hic] at hi ⊢
    have hib : i / 16 < blockCount parent.iIc := div_lt_blockCount_of_entry hdir (by omega)
    have hmap : mapAddr (writeInode v₁ parent₂).disk parent₂.iIc (i / 16) =
        mapAddr v.disk parent.iIc (i / 16) := by
      refine mapAddr_congr fun h11 => ?_
      have hix : own (parent₂.iIc.ib 0) = some (p, .index) := hm.index (by omega)
      rw [hdisk _ (hg.acct.owned _ _ hix).1]
      refine put_disk_ne _ _ fun h => ?_
      rw [h] at hix
      exact hindex _ hix
    have hiown := hm.data _ hib
    have hid := (hg.acct.owned _ _ hiown).1
    change getDir ((writeInode v₁ parent₂).disk (mapAddr _ (inodeAt _ p) (i / 16))) (i % 16) = _
    rw [hself, hmap, hdisk _ hid]
    unfold swapIndex
    by_cases hsame : mapAddr v.disk parent.iIc (i / 16) = addr
    · have hie : i / 16 = e / 16 := by
        rw [hsame, hown] at hiown
        simpa using hiown.symm
      rw [hsame, put_disk_self, hx]
      split
      · next h => rw [h, getDir_setDir_self _ _ (by omega)]
      · next h =>
        rw [getDir_setDir_ne _ _ (by omega) (by omega), ← hsame]
        rfl
    · have hie : i ≠ e := by
        rintro rfl
        exact hsame rfl
      rw [if_neg hie, put_disk_ne _ _ hsame]
      rfl
  · rw [hdisk y (hg.acct.owned _ _ hy).1, put_disk_ne]
    rintro rfl
    rw [hown] at hy
    cases hy
    exact hi rfl

theorem Tree.initial_of_match {d : Image} (h : Tree (shape d)) {D : UInt32} (hD : (shape d).Dir D)
    {e : Nat} (he : e < entryCount (inodeAt d D)) {name : CStr} (hdot : name.head? ≠ some dot)
    (hm : nameMatch name (entryBlock d (inodeAt d D) e) (e % 16) = true) :
    (dirEntry d (inodeAt d D) e).initial ≠ dot := by
  cases name with
  | nil =>
    intro hi
    have hdots : (dirEntry d (inodeAt d D) e).Dots := h.dots_of_initial hD he hi
    have h0 : (dirEntry d (inodeAt d D) e).initial = 0 := nameMatch_nil hm hdots.namlen
    rw [h0] at hi
    exact absurd hi (by decide)
  | cons c rest =>
    rw [show (dirEntry d (inodeAt d D) e).initial = c from nameMatch_initial hm]
    simpa using hdot

/-! Both halves. -/

section

variable {own : Owners} {v v₁ v₂ : Vol} {l l' : List UInt32} {p : UInt32} {e : Nat}

theorem shape_cut (h : Consistent own v l) (hp : (shape v.disk).Proper p e)
    (hpc : p ≠ (dirEntry v.disk (inodeAt v.disk p) e).dIno) (hu : Unlisted own v v₁ l p e)
    (hb : Buried own v₁ v₂ l' (dirEntry v.disk (inodeAt v.disk p) e).dIno) :
    (shape v.disk).Cut (shape v₂.disk) p e := by
  set c := (dirEntry v.disk (inodeAt v.disk p) e).dIno with hc
  have hclt : c.toNat < 512 := lt_of_live (h.tree.names p e hp).1
  obtain ⟨hplt, hpmode⟩ := mode_of_dir hp.dir
  have hpsame : inodeAt v₂.disk p = inodeAt v₁.disk p := hb.inodes p hplt hpc
  have hother : ∀ j, j.toNat < 512 → j ≠ p → j ≠ c → inodeAt v₂.disk j = inodeAt v.disk j :=
    fun j hj h1 h2 => by rw [hb.inodes j hj h2, hu.inodes j hj h1]
  have hmode : ∀ i, (shape v₂.disk).mode i =
      if i = c then Mode.ifzero.code else (shape v.disk).mode i := fun i => by
    by_cases hi : i.toNat < 512
    · rw [shape_mode hi, shape_mode hi]
      split
      · next h => rw [h, hb.dead]
      · next hic =>
        by_cases hip : i = p
        · rw [hip, hpsame, hu.mode]
        · rw [hother i hi hip hic]
    · have hic : i ≠ c := by
        rintro rfl
        exact hi hclt
      rw [if_neg hic]
      simp [shape, hi]
  have hdir : ∀ D, (shape v₂.disk).Dir D → (shape v.disk).Dir D ∧ D ≠ c := fun D hD => by
    have hne : D ≠ c := by
      rintro rfl
      rw [Shape.Dir, hmode, if_pos rfl] at hD
      exact absurd hD (by decide)
    rw [Shape.Dir, hmode, if_neg hne] at hD
    exact ⟨hD, hne⟩
  have hcount : ∀ D, (shape v₂.disk).Dir D → (shape v₂.disk).count D =
      if D = p then (shape v.disk).count D - 1 else (shape v.disk).count D := fun D hD => by
    obtain ⟨hSD, hne⟩ := hdir D hD
    change entryCount (inodeAt v₂.disk D) = if D = p then entryCount (inodeAt v.disk D) - 1
      else entryCount (inodeAt v.disk D)
    split
    · next hDp => rw [hDp, hpsame, hu.entryCount]
    · next hDp => rw [hother D (mode_of_dir hSD).1 hDp hne]
  refine ⟨hp, hmode, hcount, fun D i hD hi => ?_⟩
  obtain ⟨hSD, hne⟩ := hdir D hD
  obtain ⟨hDlt, hDmode⟩ := mode_of_dir hSD
  rw [hcount D hD] at hi
  change dirEntry v₂.disk (inodeAt v₂.disk D) i = dirEntry v.disk (inodeAt v.disk D) _
  by_cases hDp : D = p
  · subst hDp
    rw [if_pos rfl] at hi ⊢
    have hmode₁ : (inodeAt v₁.disk D).icMode = Mode.ifdir.code := hu.mode.trans hDmode
    have hcount₁ : i < entryCount (inodeAt v₁.disk D) := by
      rw [hu.entryCount]
      exact hi
    have hm₁ := hu.good.maps D hDlt (by rw [hmode₁]; decide)
    rw [hpsame, dirEntry_frame hm₁ (div_lt_blockCount_of_entry hmode₁ hcount₁) fun x r hx =>
      hb.frame x D r hx hpc]
    exact hu.entry i hi
  · rw [if_neg hDp] at hi ⊢
    have hm := h.navigable.maps hSD.live
    rw [hother D hDlt hDp hne]
    refine dirEntry_frame hm (div_lt_blockCount_of_entry hDmode hi) fun x r hx => ?_
    rw [hb.frame x D r hx hne, hu.frame x D r hx hDp]

theorem Consistent.cut (h : Consistent own v l) (hp : (shape v.disk).Proper p e)
    (hinit : (dirEntry v.disk (inodeAt v.disk p) e).initial ≠ dot)
    (hpc : p ≠ (dirEntry v.disk (inodeAt v.disk p) e).dIno)
    (hempty : (shape v.disk).Dir (dirEntry v.disk (inodeAt v.disk p) e).dIno →
      (shape v.disk).count (dirEntry v.disk (inodeAt v.disk p) e).dIno ≤ 2)
    (hu : Unlisted own v v₁ l p e)
    (hb : Buried own v₁ v₂ l' (dirEntry v.disk (inodeAt v.disk p) e).dIno) :
    Consistent (forget own (dirEntry v.disk (inodeAt v.disk p) e).dIno) v₂ l' := by
  have hcut := shape_cut h hp hpc hu hb
  refine ⟨hb.good, h.tree.cut hcut hinit hpc hempty, fun D hD => ?_⟩
  obtain ⟨hSD, hne⟩ := hcut.dir.mp hD
  obtain ⟨hDlt, -⟩ := mode_of_dir hSD
  have hal := h.aligned D hSD
  have hne' : D ≠ (dirEntry v.disk (inodeAt v.disk p) e).dIno := hne
  rw [hb.inodes D hDlt hne']
  by_cases hDp : D = p
  · subst hDp
    have hlt := hp.lt
    change e < entryCount (inodeAt v.disk D) at hlt
    unfold entryCount at hlt
    rw [hu.size]
    omega
  · rw [hu.inodes D hDlt hDp]
    exact hal

theorem Buried.small {c : UInt32} (hu : Unlisted own v v₁ l p e)
    (hb : Buried own v₁ v₂ l' c) (hp : (shape v.disk).Dir p)
    (hsmall : ∀ i, i.toNat < 512 → (inodeAt v.disk i).icMode = Mode.ifreg.code →
      (inodeAt v.disk i).icSize.toNat < 11 * 512) (i : UInt32) (hi : i.toNat < 512)
    (hreg : (inodeAt v₂.disk i).icMode = Mode.ifreg.code) : (inodeAt v₂.disk i).icSize.toNat < 11 * 512 := by
  have hic : i ≠ c := by
    rintro rfl
    rw [hb.dead] at hreg
    exact absurd hreg (by decide)
  rw [hb.inodes i hi hic] at hreg ⊢
  have hip : i ≠ p := by
    rintro rfl
    rw [hu.mode, (mode_of_dir hp).2] at hreg
    exact absurd hreg (by decide)
  rw [hu.inodes i hi hip] at hreg ⊢
  exact hsmall i hi hreg

end

end ArmKernel.Fs
