import ArmKernel.Fs.Tree

/-! Bringing an inode to life: a free number, a first block, the inode on disk
and an entry in its directory. -/
namespace ArmKernel.Fs

open Lib Lib.Bytes SuperBlock

def shape (d : Image) : Shape where
  mode := fun i => if i.toNat < 512 then (inodeAt d i).icMode else Mode.ifzero.code
  count := fun i => entryCount (inodeAt d i)
  entry := fun i j => dirEntry d (inodeAt d i) j

theorem shape_mode {d : Image} {i : UInt32} (h : i.toNat < 512) :
    (shape d).mode i = (inodeAt d i).icMode := if_pos h

theorem lt_of_live {d : Image} {i : UInt32} (h : (shape d).Live i) : i.toNat < 512 := by
  by_contra hge
  exact h (if_neg hge)

theorem ne_noAddr_of_lt {ino : UInt32} (h : ino.toNat < 512) : ino ≠ noAddr := by
  rintro rfl
  exact absurd h (by decide)

theorem mode_of_dir {d : Image} {i : UInt32} (h : (shape d).Dir i) :
    i.toNat < 512 ∧ (inodeAt d i).icMode = Mode.ifdir.code := by
  have hlt := lt_of_live h.live
  exact ⟨hlt, by rw [← shape_mode hlt]; exact h⟩

theorem dir_of_mode {d : Image} {i : UInt32} (hlt : i.toNat < 512)
    (h : (inodeAt d i).icMode = Mode.ifdir.code) : (shape d).Dir i := (shape_mode hlt).trans h

/-! A free inode. -/

theorem diskRd_inodeBlock {v : Vol} (hf : Formatted v) {b j : Nat} (hb : b < 64) (hj : j < 8)
    (x : Block) : (getIc (diskRd v (fsIblkno v.fs + UInt32.ofNat b) x) j) =
      inodeAt v.disk (UInt32.ofNat (8*b+j)) := by
  have hn : (UInt32.ofNat (8*b+j)).toNat = 8*b+j := by
    rw [UInt32.toNat_ofNat', Nat.mod_eq_of_lt (by omega)]
  have hblk : fsIblkno v.fs + UInt32.ofNat b = inodeBlock (UInt32.ofNat (8*b+j)) := by
    rw [hf.iblkno, inodeBlock, hn, show (8*b+j) / 8 = b by omega]
  rw [hblk, diskRd_lt _ _ (inodeBlock_lt_num hf (by omega)), inodeAt, hn,
    show (8*b+j) % 8 = j by omega]

theorem findFree_some {v : Vol} (hf : Formatted v) {bs : List Nat} (hbs : ∀ b ∈ bs, b < 64)
    {x : Block} {n : Nat} (h : findFree v bs x = some n) :
    n < 512 ∧ (inodeAt v.disk (UInt32.ofNat n)).icMode = Mode.ifzero.code := by
  induction bs generalizing x with
  | nil => simp [findFree] at h
  | cons b rest ih =>
    have hb := hbs b List.mem_cons_self
    simp only [findFree] at h
    split at h
    · next j hj =>
      cases h
      have hlt := List.mem_range.mp (List.mem_of_find?_eq_some hj)
      have hfree := List.find?_some hj
      rw [diskRd_inodeBlock hf hb hlt] at hfree
      exact ⟨by omega, by simpa using hfree⟩
    · exact ih (fun b' hb' => hbs b' (List.mem_cons_of_mem _ hb')) h

theorem findFree_none {v : Vol} (hf : Formatted v) {bs : List Nat} (hbs : ∀ b ∈ bs, b < 64)
    {x : Block} (h : findFree v bs x = none) {b j : Nat} (hb : b ∈ bs) (hj : j < 8) :
    (inodeAt v.disk (UInt32.ofNat (8*b+j))).icMode ≠ Mode.ifzero.code := by
  induction bs generalizing x with
  | nil => simp at hb
  | cons b' rest ih =>
    simp only [findFree] at h
    split at h
    · cases h
    · next hnone =>
      rcases List.mem_cons.mp hb with rfl | hb
      · have := List.find?_eq_none.mp hnone j (List.mem_range.mpr hj)
        rw [diskRd_inodeBlock hf (hbs b List.mem_cons_self) hj] at this
        simpa using this
      · exact ih (fun b'' hb'' => hbs b'' (List.mem_cons_of_mem _ hb'')) h hb

theorem isize_blocks {v : Vol} (hf : Formatted v) : (fsIsize v.fs).toNat / 8 = 64 := by
  rw [hf.isize]
  rfl

theorem getFreeInode_cases {v : Vol} (hf : Formatted v) (inode : INode) :
    ((getFreeInode v inode) = (none, v.log .noInode) ∧
      ∀ i : UInt32, i.toNat < 512 → (inodeAt v.disk i).icMode ≠ Mode.ifzero.code) ∨
    ∃ i : UInt32, i.toNat < 512 ∧ (inodeAt v.disk i).icMode = Mode.ifzero.code ∧
      getFreeInode v inode = (some { inode with
        iNumber := i
        iIc := { inode.iIc with icMode := Mode.ifreg.code, icSize := 0 } }, v) := by
  have hbs : ∀ b ∈ List.range ((fsIsize v.fs).toNat / 8), b < 64 := fun b hb => by
    rw [isize_blocks hf] at hb
    exact List.mem_range.mp hb
  unfold getFreeInode
  split
  · next n hn =>
    obtain ⟨hlt, hdead⟩ := findFree_some hf hbs hn
    refine .inr ⟨UInt32.ofNat n, ?_, hdead, rfl⟩
    rw [UInt32.toNat_ofNat', Nat.mod_eq_of_lt (by omega)]
    exact hlt
  · next hnone =>
    refine .inl ⟨rfl, fun i hi => ?_⟩
    have hmem : i.toNat / 8 ∈ List.range ((fsIsize v.fs).toNat / 8) := by
      rw [isize_blocks hf, List.mem_range]
      omega
    have := findFree_none hf hbs hnone hmem (show i.toNat % 8 < 8 by omega)
    rwa [Nat.div_add_mod, UInt32.ofNat_toNat] at this

theorem findFree_least {v : Vol} (hf : Formatted v) {bs : List Nat} (hbs : ∀ b ∈ bs, b < 64)
    (hsorted : bs.Pairwise (· < ·)) {x : Block} {n : Nat} (h : findFree v bs x = some n) {b j : Nat}
    (hb : b ∈ bs) (hj : j < 8) (hlt : 8*b + j < n) :
    (inodeAt v.disk (UInt32.ofNat (8*b+j))).icMode ≠ Mode.ifzero.code := by
  induction bs generalizing x with
  | nil => cases hb
  | cons first rest ih =>
    obtain ⟨hfirst, hrest⟩ := List.pairwise_cons.mp hsorted
    have hlt64 := hbs first List.mem_cons_self
    simp only [findFree] at h
    split at h
    · next j₀ hj₀ =>
      cases h
      rcases List.mem_cons.mp hb with rfl | hb
      · obtain ⟨-, -, hbefore⟩ := List.find?_range_eq_some.mp hj₀
        have := hbefore j (by omega)
        rw [diskRd_inodeBlock hf hlt64 hj] at this
        simpa using this
      · -- a later block has higher numbers
        have := hfirst b hb
        have := List.mem_range.mp (List.mem_of_find?_eq_some hj₀)
        omega
    · next hnone =>
      rcases List.mem_cons.mp hb with rfl | hb
      · have := List.find?_eq_none.mp hnone j (List.mem_range.mpr hj)
        rw [diskRd_inodeBlock hf hlt64 hj] at this
        simpa using this
      · exact ih (fun b hb => hbs b (List.mem_cons_of_mem _ hb)) hrest h hb

structure LowestFree (d : Image) (i : UInt32) : Prop where
  lt : i.toNat < 512
  free : (inodeAt d i).icMode = Mode.ifzero.code
  first : ∀ j : UInt32, j.toNat < i.toNat → (inodeAt d j).icMode ≠ Mode.ifzero.code

theorem getFreeInode_lowest {v : Vol} (hf : Formatted v) {inode inode' : INode} {v' : Vol}
    (h : getFreeInode v inode = (some inode', v')) : LowestFree v.disk inode'.iNumber := by
  have hbs : ∀ b ∈ List.range ((fsIsize v.fs).toNat / 8), b < 64 := fun b hb => by
    rw [isize_blocks hf] at hb
    exact List.mem_range.mp hb
  unfold getFreeInode at h
  split at h
  · next n hn =>
    cases h
    obtain ⟨hlt, hfree⟩ := findFree_some hf hbs hn
    have htoNat : (UInt32.ofNat n).toNat = n := by
      rw [UInt32.toNat_ofNat', Nat.mod_eq_of_lt (by omega)]
    refine ⟨by rw [htoNat]; exact hlt, hfree, fun j hj => ?_⟩
    rw [htoNat] at hj
    have hmem : j.toNat / 8 ∈ List.range ((fsIsize v.fs).toNat / 8) := by
      rw [isize_blocks hf, List.mem_range]
      omega
    have := findFree_least hf hbs List.pairwise_lt_range hn hmem (show j.toNat % 8 < 8 by omega)
      (by rw [Nat.div_add_mod]; exact hj)
    rwa [Nat.div_add_mod, UInt32.ofNat_toNat] at this
  · cases h

/-! Its first block, and the inode on disk. -/

structure Created (own own' : Owners) (v v' : Vol) (l l' : List UInt32) (inode : INode) : Prop where
  ext : Ext own own'
  others : ∀ j ic m, Maps own v.disk j ic m → Maps own' v'.disk j ic m
  steady : ∀ j ic m, Maps own v.disk j ic m → ∀ b < m, mapAddr v'.disk ic b = mapAddr v.disk ic b
  inodes : ∀ j, j.toNat < 512 → j ≠ inode.iNumber → inodeAt v'.disk j = inodeAt v.disk j
  self : inodeAt v'.disk inode.iNumber = inode.iIc
  unowned : own (inode.iIc.db 0) = none
  claimed : own' (inode.iIc.db 0) = some (inode.iNumber, .data 0)
  frame : ∀ x, DataBlock x → x ≠ inode.iIc.db 0 → v'.disk x = v.disk x
  taken : l = inode.iIc.db 0 :: l'

theorem newInode_created {P : Image → Prop} (hP : ∀ own v l, Good own v l → P v.disk) {own : Owners}
    {v : Vol} {l : List UInt32} {a : UInt32} (hs : Sound P own v (a :: l)) {inode : INode}
    (hino : inode.iNumber.toNat < 512) (hdb : inode.iIc.db 0 = a) (hcount : blockCount inode.iIc ≤ 1)
    (x : Option Block) :
    ∃ own' v₁, balloc v = (a, v₁) ∧
      Sound P own' (writeInode (x.elim v₁ fun x => diskWr v₁ a x 512) inode) l ∧
      Created own own' v (writeInode (x.elim v₁ fun x => diskWr v₁ a x 512) inode) (a :: l) l inode ∧
      ∀ y, x = some y → (writeInode (x.elim v₁ fun x => diskWr v₁ a x 512) inode).disk a = y := by
  obtain ⟨fs, hh, he, hal, hda, hnone, hn⟩ := hs.good.acct.balloc
  set own' := Function.update own a (some (inode.iNumber, Role.data 0)) with hown'
  have hself : own' a = some (inode.iNumber, .data 0) := by simp [hown']
  have hext : Ext own own' := ext_claim _ hnone
  have hs₁ : Sound P own' (afterAlloc v fs a) l := (hs.alloc hP hal).claim _ hda hn hnone
  set v₁ := afterAlloc v fs a with hv₁
  -- the block may be written, it is neither free nor an index block
  obtain ⟨v₂, hv₂, hs₂, hmaps₂, hdisk₂, hcont₂⟩ : ∃ v₂, x.elim v₁ (fun x => diskWr v₁ a x 512) = v₂ ∧
      Sound P own' v₂ l ∧ (∀ j ic m, Maps own' v₁.disk j ic m → Maps own' v₂.disk j ic m) ∧
      (∀ y, y ≠ a → v₂.disk y = v₁.disk y) ∧ ∀ y, x = some y → v₂.disk a = y := by
    cases x with
    | none => exact ⟨v₁, rfl, hs₁, fun _ _ _ h => h, fun _ _ => rfl, fun y hy => by simp at hy⟩
    | some x =>
      have hindex : ∀ q, own' a ≠ some (q, .index) := fun q => by simp [hself]
      refine ⟨v₁.put a x, diskWr_put _ _ (hda.lt_num hs₁.good.acct.formatted),
        hs₁.put hP (hs₁.good.put_data x hda hn hindex), fun j ic m h => h.put x hindex,
        fun y hy => put_disk_ne _ _ hy, fun y hy => ?_⟩
      cases hy
      simp
  have hmaps : Maps own' v₂.disk inode.iNumber inode.iIc 1 := by
    refine ⟨by omega, fun i hi => ?_, fun h => absurd h (by omega)⟩
    rw [show i = 0 by omega, mapAddr, if_pos (by omega), hdb]
    exact hself
  have hf₂ := hs₂.good.acct.formatted
  refine ⟨own', v₁, he, ?_⟩
  rw [hv₂]
  refine ⟨hs₂.writeInode hP hino fun _ => hmaps.le hcount, ?_, fun y hy => ?_⟩
  · have hframe : ∀ y, DataBlock y → y ≠ a → (writeInode v₂ inode).disk y = v.disk y := fun y hy hne => by
      rw [writeInode_disk_ne hf₂ hino (hy.ne_inodeBlock hino), hdisk₂ y hne, hv₁,
        afterAlloc_disk_ne _ _ _ hy.ne_one]
    refine ⟨hext, fun j ic m h => ?_, fun j ic m h b hb => ?_, fun j hj hne => ?_,
      inodeAt_writeInode_self hf₂ hino, ?_, ?_, fun y hy hne => ?_, by rw [hdb]⟩
    · exact (hmaps₂ j ic m ((h.alloc hs.good.acct fs a).ext hext)).writeInode hs₂.good.acct hino
    · refine mapAddr_congr fun h11 => ?_
      have hix := h.index (show 11 < m by omega)
      refine hframe _ (hs.good.acct.owned _ _ hix).1 fun he => ?_
      rw [he, hnone] at hix
      cases hix
    · rw [inodeAt_writeInode_ne hf₂ hino hj hne]
      unfold inodeAt
      rw [hdisk₂ _ (hda.ne_inodeBlock hj).symm, hv₁, afterAlloc_disk_ne _ _ _ (inodeBlock_ne_one hj)]
    · rw [hdb]
      exact hnone
    · rw [hdb]
      exact hself
    · exact hframe y hy (hdb ▸ hne)
  · rw [writeInode_disk_ne hf₂ hino (hda.ne_inodeBlock hino), hcont₂ y hy]

/-! The inode and its entry together. -/

theorem dirEntry_frame {own : Owners} {d d' : Image} {D : UInt32} {ic : ICommon} {n j : Nat}
    (hm : Maps own d D ic n) (hj : j / 16 < n)
    (h : ∀ x r, own x = some (D, r) → d' x = d x) : dirEntry d' ic j = dirEntry d ic j := by
  have hmap : mapAddr d' ic (j / 16) = mapAddr d ic (j / 16) :=
    mapAddr_congr fun h11 => h _ _ (hm.index (by omega))
  unfold dirEntry
  rw [hmap, h _ _ (hm.data _ hj)]

structure Extended (own own' : Owners) (v v' : Vol) (l l' : List UInt32) (par i : UInt32)
    (ic : ICommon) (name : CStr) : Prop where
  ext : Ext own own'
  others : ∀ j ic m, Maps own v.disk j ic m → Maps own' v'.disk j ic m
  steady : ∀ j ic m, Maps own v.disk j ic m → (j = par → m ≤ blockCount (inodeAt v.disk par)) →
    ∀ b < m, mapAddr v'.disk ic b = mapAddr v.disk ic b
  grown : (shape v.disk).Grown (shape v'.disk) par i ic.icMode name
  self : inodeAt v'.disk i = ic
  inodes : ∀ j, j.toNat < 512 → j ≠ par → j ≠ i → inodeAt v'.disk j = inodeAt v.disk j
  size : (inodeAt v'.disk par).icSize.toNat = (inodeAt v.disk par).icSize.toNat + 32
  slot : ∀ x o, own x = some o → o.2 ≠ .index → ∀ k < 16,
    getDir (v'.disk x) k = getDir (v.disk x) k ∨ (getDir (v'.disk x) k).dIno = i
  taken : l.length ≤ l'.length + 3
  frame : ∀ x j r, own x = some (j, r) → j ≠ par → v'.disk x = v.disk x

theorem Extended.small {own own' : Owners} {v v' : Vol} {l l' : List UInt32} {par i : UInt32} {ic : ICommon}
    {name : CStr} {n : Nat} (he : Extended own own' v v' l l' par i ic name) (hic : ic.icSize.toNat < n)
    (hsmall : ∀ j, j.toNat < 512 → (inodeAt v.disk j).icMode = Mode.ifreg.code →
      (inodeAt v.disk j).icSize.toNat < n) (j : UInt32) (hj : j.toNat < 512)
    (hreg : (inodeAt v'.disk j).icMode = Mode.ifreg.code) : (inodeAt v'.disk j).icSize.toNat < n := by
  by_cases hji : j = i
  · rw [hji, he.self]
    exact hic
  · have hjp : j ≠ par := by
      rintro rfl
      have := (mode_of_dir (he.grown.dir he.grown.parent)).2
      rw [hreg] at this
      exact absurd this (by decide)
    rw [he.inodes j hj hjp hji] at hreg ⊢
    exact hsmall j hj hreg

section

variable {own own₁ own₂ : Owners} {v v₁ v₂ : Vol} {l l₁ l₂ : List UInt32} {par : UInt32}
  {inode : INode} {name : CStr}

theorem Created.entry (h : Created own own₁ v v₁ l l₁ inode) (ha : Accounted own v l)
    {D : UInt32} (hm : Maps own v.disk D (inodeAt v.disk D) (blockCount (inodeAt v.disk D)))
    (hD : (inodeAt v.disk D).icMode = Mode.ifdir.code) {j : Nat}
    (hj : j < entryCount (inodeAt v.disk D)) :
    dirEntry v₁.disk (inodeAt v.disk D) j = dirEntry v.disk (inodeAt v.disk D) j := by
  refine dirEntry_frame hm (div_lt_blockCount_of_entry hD hj) fun x r hx => ?_
  refine h.frame x (ha.owned _ _ hx).1 ?_
  rintro rfl
  rw [h.unowned] at hx
  simp at hx

theorem Created.extended (hg : Good own v l) (hc : Created own own₁ v v₁ l l₁ inode)
    (ha : Appended own₁ own₂ v₁ v₂ l₁ l₂ par inode.iNumber name) (hg₁ : Good own₁ v₁ l₁)
    (hino : inode.iNumber.toNat < 512) (hdead : ¬(shape v.disk).Live inode.iNumber)
    (hpar : (shape v.disk).Dir par)
    (hempty : inode.iIc.icMode = Mode.ifdir.code → entryCount inode.iIc = 2 ∧
      (getDir (v₁.disk (inode.iIc.db 0)) 0).Is inode.iNumber [dot] ∧
      (getDir (v₁.disk (inode.iIc.db 0)) 1).Is par [dot, dot]) :
    Extended own own₂ v v₂ l l₂ par inode.iNumber inode.iIc name := by
  have hne : ∀ D, (shape v.disk).Live D → D ≠ inode.iNumber := by
    rintro D hD rfl
    exact hdead hD
  have hpi := hne par hpar.live
  obtain ⟨hplt, -⟩ := mode_of_dir hpar
  have hpsame : inodeAt v₁.disk par = inodeAt v.disk par := hc.inodes par hplt hpi
  have hself : inodeAt v₂.disk inode.iNumber = inode.iIc := by
    rw [ha.inodes _ hino hpi.symm, hc.self]
  have hother : ∀ j, j.toNat < 512 → j ≠ par → j ≠ inode.iNumber →
      inodeAt v₂.disk j = inodeAt v.disk j := fun j hj h1 h2 => by
    rw [ha.inodes j hj h1, hc.inodes j hj h2]
  have hown₂ : own₂ (inode.iIc.db 0) = some (inode.iNumber, .data 0) := ha.ext _ _ hc.claimed
  have hblock : v₂.disk (inode.iIc.db 0) = v₁.disk (inode.iIc.db 0) :=
    ha.frame _ (hg₁.acct.owned _ _ hc.claimed).1 fun r => by
      rw [hown₂]
      simp [hpi.symm]
  have hkept : ∀ x o, own x = some o → v₁.disk x = v.disk x := fun x o ho => by
    refine hc.frame x (hg.acct.owned _ _ ho).1 ?_
    rintro rfl
    rw [hc.unowned] at ho
    cases ho
  have hentry : ∀ j < 16, dirEntry v₂.disk (inodeAt v₂.disk inode.iNumber) j =
      getDir (v₁.disk (inode.iIc.db 0)) j := fun j hj => by
    unfold dirEntry
    rw [hself, mapAddr, if_pos (by omega), show j / 16 = 0 by omega, hblock, Nat.mod_eq_of_lt hj]
  refine ⟨hc.ext.trans ha.ext, fun j ic m h => ha.others j ic m (hc.others j ic m h),
    fun j ic m h hle b hb => by
      rw [ha.steady j ic m (hc.others j ic m h) (by rwa [hpsame]) b hb, hc.steady j ic m h b hb],
    ⟨hpar, hdead, fun j => ?_, fun D hD => ?_, fun D j hD hj => ?_, ?_, fun hm => ?_⟩, hself, hother,
    by rw [ha.size, hpsame], fun x o ho hidx k hk => ?_, ?_, fun x j r hx hj => ?_⟩
  · by_cases hj : j.toNat < 512
    · rw [shape_mode hj, shape_mode hj]
      split
      · next h => rw [h, hself]
      · next h =>
        by_cases hjp : j = par
        · rw [hjp, ha.mode, hpsame]
        · rw [hother j hj hjp h]
    · have hji : j ≠ inode.iNumber := by
        rintro rfl
        exact hj hino
      rw [if_neg hji]
      simp [shape, hj]
  · obtain ⟨hlt, -⟩ := mode_of_dir hD
    change entryCount _ = entryCount _ + _
    by_cases hDp : D = par
    · rw [if_pos hDp, hDp]
      unfold entryCount
      rw [ha.size, hpsame]
      omega
    · rw [if_neg hDp, hother D hlt hDp (hne D hD.live)]
      omega
  · obtain ⟨hlt, hmode⟩ := mode_of_dir hD
    have hm := hg.maps D hlt (by rw [hmode]; decide)
    have hfirst := hc.entry hg.acct hm hmode hj
    change dirEntry v₂.disk (inodeAt v₂.disk D) j = dirEntry v.disk (inodeAt v.disk D) j
    by_cases hDp : D = par
    · subst hDp
      have hj' : j < entryCount (inodeAt v₁.disk D) := by
        rw [hpsame]
        exact hj
      rw [ha.old j hj', hpsame, hfirst]
    · rw [hother D hlt hDp (hne D hD.live), ← hfirst]
      refine dirEntry_frame (hc.others _ _ _ hm) (div_lt_blockCount_of_entry hmode hj) fun x r hx => ?_
      refine ha.frame x (hg₁.acct.owned _ _ hx).1 fun r' => ?_
      rw [ha.ext _ _ hx]
      simp [hDp]
  · have := ha.new
    rwa [hpsame] at this
  · obtain ⟨h2, h0, h1⟩ := hempty hm
    change entryCount (inodeAt v₂.disk _) = 2 ∧ (dirEntry v₂.disk _ 0).Is _ _ ∧
      (dirEntry v₂.disk _ 1).Is _ _
    rw [hentry 0 (by omega), hentry 1 (by omega), hself]
    exact ⟨h2, h0, h1⟩
  · have ho₁ := hc.ext _ _ ho
    rw [← hkept x o ho]
    refine ha.slot x (hg.acct.owned _ _ ho).1 (fun q hq => ?_) k hk
    rw [ha.ext _ _ ho₁] at hq
    cases hq
    exact hidx rfl
  · have := ha.taken
    rw [hc.taken, List.length_cons]
    omega
  · rw [← hkept x _ hx]
    refine ha.frame x (hg.acct.owned _ _ hx).1 fun r' => ?_
    rw [ha.ext _ _ (hc.ext _ _ hx)]
    simp [hj]

/-- A directory there is room in: its size is a whole number of entries and
ends before the last block of the single indirect range. -/
structure Roomy (ic : ICommon) : Prop where
  aligned : ic.icSize.toNat % 32 = 0
  pos : 0 < ic.icSize.toNat
  small : ic.icSize.toNat < 138 * 512

theorem Created.add {P : Image → Prop} (hP : ∀ own v l, Good own v l → P v.disk)
    (hg : Good own v l) (hs₁ : Sound P own₁ v₁ l₁) (hc : Created own own₁ v v₁ l l₁ inode)
    (hino : inode.iNumber.toNat < 512) (hdead : ¬(shape v.disk).Live inode.iNumber)
    (hpar : (shape v.disk).Dir par) (hroom : Roomy (inodeAt v.disk par)) (hlen : name.length ≤ 26)
    (parent : INode) (hn : parent.iNumber = par) (hic : parent.iIc = inodeAt v.disk par)
    (hempty : inode.iIc.icMode = Mode.ifdir.code → entryCount inode.iIc = 2 ∧
      (getDir (v₁.disk (inode.iIc.db 0)) 0).Is inode.iNumber [dot] ∧
      (getDir (v₁.disk (inode.iIc.db 0)) 1).Is par [dot, dot]) :
    (l.length < 3 ∧ (inodeAt v.disk par).icSize.toNat / 32 % 16 = 0 ∧
      Failed (addInodeToDirectory v₁ parent inode.iNumber name).2) ∨
    ∃ own₂ l₂, ((inodeAt v.disk par).icSize.toNat / 32 % 16 ≠ 0 → l₂ = l₁) ∧
      Sound P own₂ (addInodeToDirectory v₁ parent inode.iNumber name).2 l₂ ∧
      Extended own own₂ v (addInodeToDirectory v₁ parent inode.iNumber name).2 l l₂ par
        inode.iNumber inode.iIc name := by
  obtain ⟨hplt, hpmode⟩ := mode_of_dir hpar
  have hpi : par ≠ inode.iNumber := by
    rintro rfl
    exact hdead hpar.live
  subst hn
  have hsame := hc.inodes _ hplt hpi
  have hfirst : own₁ (parent.iIc.db 0) = some (parent.iNumber, .data 0) := by
    rw [hic, ← hsame]
    exact hs₁.good.firstBlock hplt (by rw [hsame]; exact hpmode) (by rw [hsame]; exact hroom.pos)
  have hsmall := hroom.small
  rcases addInodeToDirectory_appended hP inode.iNumber hs₁ hplt (hic.trans hsame.symm)
    (by rw [hic]; exact hpmode) (by rw [hic]; exact hroom.aligned) hfirst (by rw [hic]; omega)
    hlen with ⟨hl, hfull, hf⟩ | ⟨own₂, l₂, hlist, hs₂, happ⟩
  · rw [hic] at hfull
    refine .inl ⟨?_, hfull, hf⟩
    rw [hc.taken, List.length_cons]
    omega
  · rw [hic] at hlist
    exact .inr ⟨own₂, l₂, hlist, hs₂, hc.extended hg happ hs₁.good hino hdead hpar hempty⟩

end

theorem not_live_of_free {d : Image} {i : UInt32} (hlt : i.toNat < 512)
    (h : (inodeAt d i).icMode = Mode.ifzero.code) : ¬(shape d).Live i := by
  rw [Shape.Live, shape_mode hlt]
  exact fun hne => hne h

/-- `createFile`, the creating part of `path_to_ino2`. It fails without a free
block, without an unused inode, or when the directory needs a block as well. -/
theorem createFile_extended {P : Image → Prop} (hP : ∀ own v l, Good own v l → P v.disk)
    {own : Owners} {v : Vol} {l : List UInt32} (hs : Sound P own v l) (inode : INode) {par : UInt32}
    {name : CStr} (hpar : (shape v.disk).Dir par) (hroom : Roomy (inodeAt v.disk par))
    (hlen : name.length ≤ 26) :
    (Failed (createFile v inode par name).2 ∧
      (l = [] ∨ (l.length < 3 ∧ (inodeAt v.disk par).icSize.toNat / 32 % 16 = 0) ∨
        ∀ i : UInt32, i.toNat < 512 → (shape v.disk).Live i)) ∨
    ∃ own' l' ic, (createFile v inode par name).1.toNat < 512 ∧ ic.icMode = Mode.ifreg.code ∧
      ic.icSize = 0 ∧
      ((inodeAt v.disk par).icSize.toNat / 32 % 16 ≠ 0 → l.length = l'.length + 1) ∧
      Sound P own' (createFile v inode par name).2 l' ∧
      Extended own own' v (createFile v inode par name).2 l l' par (createFile v inode par name).1 ic
        name := by
  have hf := hs.good.acct.formatted
  obtain ⟨hplt, -⟩ := mode_of_dir hpar
  rcases getFreeInode_cases hf inode with ⟨he, hall⟩ | ⟨i, hi, hfree, he⟩
  · left
    simp only [createFile, he]
    refine ⟨⟨.noInode, List.mem_cons_self, rfl⟩, .inr (.inr fun i hi => ?_)⟩
    rw [Shape.Live, shape_mode hi]
    exact hall i hi
  have hdead := not_live_of_free hi hfree
  set inode₁ : INode := { inode with
    iNumber := i
    iIc := { inode.iIc with icMode := Mode.ifreg.code, icSize := 0 } } with hinode₁
  cases l with
  | nil =>
    left
    simp only [createFile, he, balloc_nil hs.good.acct.free]
    exact ⟨((failed_full v).later (later_writeInode ..)).later (later_addInodeToDirectory ..), .inl trivial⟩
  | cons a l =>
    set inode₂ : INode := { inode₁ with iIc := inode₁.iIc.setDb 0 a } with hinode₂
    have hino₂ : inode₂.iNumber.toNat < 512 := hi
    have hdb : inode₂.iIc.db 0 = a := ICommon.db_setDb_self _ _ (by omega)
    have hmode₂ : inode₂.iIc.icMode = Mode.ifreg.code := rfl
    have hcount : blockCount inode₂.iIc = 1 := by
      rw [blockCount_regular hmode₂, show inode₂.iIc.icSize = 0 from rfl]
      rfl
    obtain ⟨own₁, v₁, hb, hs₁, hc, -⟩ := newInode_created hP hs hino₂ hdb (by omega) none
    simp only [Option.elim] at hs₁ hc
    have hpi : par ≠ i := by
      rintro rfl
      exact hdead hpar.live
    have hread := readInode_eq hs₁.good.acct.formatted hplt ⟨0, 0, (writeInode v₁ inode₂).stkIc⟩
    rw [hc.inodes par hplt hpi] at hread
    have hcode : createFile v inode par name = (i, (addInodeToDirectory (writeInode v₁ inode₂)
        (readInode (writeInode v₁ inode₂) ⟨0, 0, (writeInode v₁ inode₂).stkIc⟩ par) i name).2) := by
      simp only [createFile, he, hb]
      rfl
    rw [hcode, hread]
    rcases hc.add hP hs.good hs₁ hino₂ hdead hpar hroom hlen ⟨par, 0, inodeAt v.disk par⟩ rfl rfl
      (fun hm => absurd (hmode₂.symm.trans hm) (by decide)) with ⟨hl, hfull, hfail⟩ | ⟨own₂, l₂, hlist, hs₂, hext⟩
    · exact .inl ⟨hfail, .inr (.inl ⟨hl, hfull⟩)⟩
    · exact .inr ⟨own₂, l₂, inode₂.iIc, hi, rfl, rfl, fun hr => by rw [hlist hr]; rfl, hs₂, hext⟩

theorem createFile_full {v : Vol} (hf : Formatted v) (inode : INode) (par : UInt32) (name : CStr)
    (hall : ∀ i : UInt32, i.toNat < 512 → (shape v.disk).Live i) :
    (createFile v inode par name).1 = 0xFFFFFFFE := by
  rcases getFreeInode_cases hf inode with ⟨he, -⟩ | ⟨i, hi, hfree, -⟩
  · simp only [createFile, he]
  · exact absurd (hall i hi) (not_live_of_free hi hfree)

end ArmKernel.Fs
