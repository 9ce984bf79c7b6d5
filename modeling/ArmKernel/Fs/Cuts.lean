import ArmKernel.Fs.Contents
import ArmKernel.Fs.Removal
import ArmKernel.Lib.Log

/-! The disk after each write of a call, as a reset would find it. A tree is
within another one that has inodes beside it to which no entry leads. -/
namespace ArmKernel.Fs

open Lib Lib.Bytes SuperBlock

/-- Every image that is written on the way from `v` to `v'` satisfies `P`. -/
def Cuts (P : Image → Prop) (v v' : Vol) : Prop :=
  Log.Grows Vol.trace (fun e => ∀ a d, e = .wr a d → P d) v v'

section

variable {P Q : Image → Prop} {v v₁ v' : Vol}

theorem Cuts.of_trace (h : v'.trace = v.trace) : Cuts P v v' := Log.Grows.of_eq h

theorem Cuts.refl (v : Vol) : Cuts P v v := .of_trace rfl

theorem Cuts.trans (h : Cuts P v v₁) (h' : Cuts P v₁ v') : Cuts P v v' := Log.Grows.trans h h'

theorem Cuts.mono (h : Cuts P v v') (hPQ : ∀ d, P d → Q d) : Cuts Q v v' :=
  Log.Grows.mono h fun _ he a d hd => hPQ d (he a d hd)

theorem Cuts.log (v : Vol) {e : Event} (he : e.isWr = false) : Cuts P v (v.log e) := by
  refine Log.Grows.cons rfl ?_
  rintro a d rfl
  cases he

theorem Cuts.put {a : UInt32} {x : Block} (h : P (v.put a x).disk) : Cuts P v (v.put a x) := by
  refine Log.Grows.cons rfl ?_
  rintro b d hd
  cases hd
  exact h

theorem Cuts.alloc {fs : SuperBlock} {a : UInt32} (h : P (afterAlloc v fs a).disk) : Cuts P v (afterAlloc v fs a) := by
  have hput : Cuts P v { v.put 1 fs with fs := fs } := (Cuts.put (x := fs) h).trans (.of_trace rfl)
  exact hput.trans (.log _ rfl)

theorem Cuts.writeInode {inode : INode} (hf : Formatted v) (hi : inode.iNumber.toNat < 512)
    (h : P (writeInode v inode).disk) : Cuts P v (writeInode v inode) := by
  rw [writeInode_eq hf hi] at h ⊢
  exact .put h

theorem Cuts.diskWr {a : UInt32} {x : Block} {n : Nat} (h : P (diskWr v a x n).disk) : Cuts P v (diskWr v a x n) := by
  unfold Fs.diskWr at h ⊢
  split at h
  · next hlt =>
    rw [if_pos hlt]
    refine Log.Grows.cons rfl ?_
    rintro b d hd
    cases hd
    exact h
  · next hlt =>
    rw [if_neg hlt, Vol.refuse]
    cases answered a with
    | true => exact .of_trace rfl
    | false => exact .log v rfl

theorem Cuts.updateSb (h : P (updateSb v).disk) : Cuts P v (updateSb v) := .diskWr h

end

/-! Trees with more beside them. -/

/-- What is live in `S` is so in `S'`, and the directories of `S` are as they
were. -/
structure Shape.Within (S S' : Shape) : Prop where
  mode : ∀ i, S.Live i → S'.mode i = S.mode i
  count : ∀ D, S.Dir D → S'.count D = S.count D
  entry : ∀ D j, S.Dir D → j < S.count D → S'.entry D j = S.entry D j

namespace Shape

variable {S S' S'' : Shape} {i : UInt32}

theorem Within.refl (S : Shape) : S.Within S := ⟨fun _ _ => rfl, fun _ _ => rfl, fun _ _ _ _ => rfl⟩

theorem Within.live (h : S.Within S') (hi : S.Live i) : S'.Live i := by
  rw [Live, h.mode i hi]
  exact hi

theorem Within.dir (h : S.Within S') (hi : S.Dir i) : S'.Dir i := (h.mode i hi.live).trans hi

theorem Within.trans (h : S.Within S') (h' : S'.Within S'') : S.Within S'' where
  mode i hi := (h'.mode i (h.live hi)).trans (h.mode i hi)
  count D hD := (h'.count D (h.dir hD)).trans (h.count D hD)
  entry D j hD hj := by
    have hj' : j < S'.count D := by
      rw [h.count D hD]
      exact hj
    rw [h'.entry D j (h.dir hD) hj', h.entry D j hD hj]

theorem Same.within (h : S.Same S') : S.Within S' := ⟨fun i _ => h.mode i, h.count, h.entry⟩

end Shape

/-- `own` says whose the blocks of what is live in `S` are, and none of them is
on the free list that block 1 describes. -/
structure Backed (own : Owners) (l : List UInt32) (S : Shape) (d : Image) : Prop where
  free : FreeList d (d 1) l
  owned : ∀ x o, own x = some o → DataBlock x ∧ x ∉ l
  maps : ∀ i, S.Live i → Maps own d i (inodeAt d i) (blockCount (inodeAt d i))

/-- Tree `S` is there when the machine comes up with image `d`. -/
structure Survives (S : Shape) (d : Image) : Prop where
  within : S.Within (shape d)
  backed : ∃ own l, Backed own l S d

theorem Survives.of_within {S S' : Shape} {d : Image} (h : Survives S' d) (hS : S.Within S') : Survives S d := by
  obtain ⟨own, l, hb⟩ := h.backed
  exact ⟨hS.trans h.within, own, l, hb.free, hb.owned, fun i hi => hb.maps i (hS.live hi)⟩

/-- The inodes outside `T` and their blocks are as they were. -/
structure Intact (own : Owners) (T : UInt32 → Prop) (d₀ d : Image) : Prop where
  inodes : ∀ j, j.toNat < 512 → ¬T j → inodeAt d j = inodeAt d₀ j
  frame : ∀ x i r, own x = some (i, r) → ¬T i → d x = d₀ x

/-- Tree `S` is there, and what is not in `T` is as it was. -/
structure Spares (own : Owners) (T : UInt32 → Prop) (d₀ : Image) (S : Shape) (d : Image) : Prop where
  tree : Survives S d
  rest : Intact own T d₀ d

section

variable {own own' : Owners} {T T' : UInt32 → Prop} {d₀ d₁ d : Image} {S S' : Shape}

theorem Intact.refl (own : Owners) (T : UInt32 → Prop) (d : Image) : Intact own T d d :=
  ⟨fun _ _ _ => rfl, fun _ _ _ _ _ => rfl⟩

theorem Intact.trans (h : Intact own T d₀ d₁) (h' : Intact own' T d₁ d) (hext : Ext own own') :
    Intact own T d₀ d := by
  refine ⟨fun j hj hT => ?_, fun x i r hx hT => ?_⟩
  · rw [h'.inodes j hj hT, h.inodes j hj hT]
  · rw [h'.frame x i r (hext _ _ hx) hT, h.frame x i r hx hT]

theorem Intact.mono (h : Intact own T d₀ d) (hT : ∀ i, T i → T' i) : Intact own T' d₀ d :=
  ⟨fun j hj hj' => h.inodes j hj fun ht => hj' (hT j ht), fun x i r hx hi => h.frame x i r hx fun ht => hi (hT i ht)⟩

theorem Spares.mono (h : Spares own T d₀ S d) (hT : ∀ i, T i → T' i) : Spares own T' d₀ S d :=
  ⟨h.tree, h.rest.mono hT⟩

theorem Spares.of_within (h : Spares own' T d₁ S' d) (hS : S.Within S') (hrest : Intact own T d₀ d₁)
    (hext : Ext own own') : Spares own T d₀ S d :=
  ⟨h.tree.of_within hS, hrest.trans h.rest hext⟩

end

section

variable {own own' : Owners} {v w : Vol} {l l' : List UInt32} {S : Shape}

theorem Good.survives (hg : Good own v l) (h : S.Within (shape v.disk)) : Survives S v.disk := by
  refine ⟨h, own, l, ?_, hg.acct.owned, fun i hi => ?_⟩
  · rw [hg.synced]
    exact hg.acct.free
  · have hlive := h.live hi
    have hlt := lt_of_live hlive
    rw [Shape.Live, shape_mode hlt] at hlive
    exact hg.maps i hlt hlive

theorem Good.intact_alloc (hg : Good own v l) (T : UInt32 → Prop) (fs : SuperBlock) (a : UInt32) :
    Intact own T v.disk (afterAlloc v fs a).disk :=
  ⟨fun _ hj _ => inodeAt_afterAlloc v fs a hj, fun _ _ _ hx _ =>
    afterAlloc_disk_ne v fs a (hg.acct.owned _ _ hx).1.ne_one⟩

theorem Good.intact_put (hg : Good own v l) {T : UInt32 → Prop} {a p : UInt32} {r : Role} (x : Block)
    (ha : own a = some (p, r)) (hT : T p) : Intact own T v.disk (v.put a x).disk := by
  refine ⟨fun j hj _ => inodeAt_put_ne x ((hg.acct.owned _ _ ha).1.ne_inodeBlock hj), fun y i r' hy hi => ?_⟩
  refine put_disk_ne v x ?_
  rintro rfl
  rw [ha] at hy
  cases hy
  exact hi hT

theorem Good.intact_writeInode (hg : Good own v l) {T : UInt32 → Prop} {inode : INode} (hi : inode.iNumber.toNat < 512)
    (hT : T inode.iNumber) : Intact own T v.disk (Fs.writeInode v inode).disk := by
  refine ⟨fun j hj hj' => inodeAt_writeInode_ne hg.acct.formatted hi hj ?_, fun x i r hx _ =>
    writeInode_disk_ne hg.acct.formatted hi ((hg.acct.owned _ _ hx).1.ne_inodeBlock hi)⟩
  rintro rfl
  exact hj' hT

theorem Good.within (hg : Good own v l) {d : Image}
    (hmode : ∀ i, (shape v.disk).Live i → (inodeAt d i).icMode = (inodeAt v.disk i).icMode)
    (hdir : ∀ D, (shape v.disk).Dir D → inodeAt d D = inodeAt v.disk D ∧
      ∀ x r, own x = some (D, r) → d x = v.disk x) : (shape v.disk).Within (shape d) := by
  refine ⟨fun i hi => ?_, fun D hD => ?_, fun D j hD hj => ?_⟩
  · have hlt := lt_of_live hi
    rw [shape_mode hlt, shape_mode hlt, hmode i hi]
  · change entryCount _ = entryCount _
    rw [(hdir D hD).1]
  · obtain ⟨hlt, hDmode⟩ := mode_of_dir hD
    have hm := hg.maps D hlt (by rw [hDmode]; decide)
    change dirEntry d (inodeAt d D) j = dirEntry v.disk (inodeAt v.disk D) j
    rw [(hdir D hD).1]
    exact dirEntry_frame hm (div_lt_blockCount_of_entry hDmode hj) (hdir D hD).2

theorem within_alloc (hg : Good own v l) (fs : SuperBlock) (a : UInt32) :
    (shape v.disk).Within (shape (afterAlloc v fs a).disk) := by
  refine hg.within (fun i hi => ?_) fun D hD => ⟨?_, fun x r hx => ?_⟩
  · rw [inodeAt_afterAlloc v fs a (lt_of_live hi)]
  · exact inodeAt_afterAlloc v fs a (lt_of_live hD.live)
  · exact afterAlloc_disk_ne v fs a (hg.acct.owned _ _ hx).1.ne_one

theorem within_writeInode (hg : Good own v l) {inode : INode} (hi : inode.iNumber.toNat < 512)
    (hmode : (shape v.disk).Live inode.iNumber → inode.iIc.icMode = (inodeAt v.disk inode.iNumber).icMode)
    (hdir : ¬(shape v.disk).Dir inode.iNumber) : (shape v.disk).Within (shape (writeInode v inode).disk) := by
  have hf := hg.acct.formatted
  refine hg.within (fun j hj => ?_) fun D hD => ⟨?_, fun x r hx => ?_⟩
  · by_cases hji : j = inode.iNumber
    · subst hji
      rw [inodeAt_writeInode_self hf hi, hmode hj]
    · rw [inodeAt_writeInode_ne hf hi (lt_of_live hj) hji]
  · refine inodeAt_writeInode_ne hf hi (lt_of_live hD.live) ?_
    rintro rfl
    exact hdir hD
  · exact writeInode_disk_ne hf hi ((hg.acct.owned _ _ hx).1.ne_inodeBlock hi)

theorem within_put (hg : Good own v l) {a p : UInt32} {b : Nat} (x : Block) (ha : own a = some (p, .data b))
    (hx : (shape v.disk).Dir p → ∀ k < 16, 16 * b + k < entryCount (inodeAt v.disk p) →
      getDir x k = getDir (v.disk a) k) : (shape v.disk).Within (shape (v.put a x).disk) := by
  have hda := (hg.acct.owned _ _ ha).1
  have hinode : ∀ i, (shape v.disk).Live i → inodeAt (v.put a x).disk i = inodeAt v.disk i := fun i hi =>
    inodeAt_put_ne x (hda.ne_inodeBlock (lt_of_live hi))
  refine ⟨fun i hi => ?_, fun D hD => ?_, fun D j hD hj => ?_⟩
  · have hlt := lt_of_live hi
    rw [shape_mode hlt, shape_mode hlt, hinode i hi]
  · change entryCount _ = entryCount _
    rw [hinode D hD.live]
  · obtain ⟨hlt, hDmode⟩ := mode_of_dir hD
    have hm := hg.maps D hlt (by rw [hDmode]; decide)
    have hblk := div_lt_blockCount_of_entry hDmode hj
    have hindex : ∀ q, own a ≠ some (q, .index) := fun q => by simp [ha]
    have hmap : mapAddr (v.put a x).disk (inodeAt v.disk D) (j / 16) = mapAddr v.disk (inodeAt v.disk D) (j / 16) := by
      refine mapAddr_congr fun h11 => put_disk_ne v x ?_
      intro he
      have hix := hm.index (by omega)
      rw [he] at hix
      exact hindex _ hix
    change dirEntry (v.put a x).disk (inodeAt (v.put a x).disk D) j = dirEntry v.disk (inodeAt v.disk D) j
    rw [hinode D hD.live]
    unfold dirEntry
    rw [hmap]
    by_cases hsame : mapAddr v.disk (inodeAt v.disk D) (j / 16) = a
    · have hown := hm.data _ hblk
      rw [hsame, ha] at hown
      simp only [Option.some.injEq, Prod.mk.injEq, Role.data.injEq] at hown
      obtain ⟨rfl, rfl⟩ := hown
      rw [hsame, put_disk_self]
      refine hx hD _ (by omega) ?_
      rw [Nat.div_add_mod]
      exact hj
    · rw [put_disk_ne v x hsame]

end

/-! Growth. -/

/-- The image at some point while the map of `inode` grows: the inode on disk
is the old one or the one in core. -/
def Midway (own : Owners) (v : Vol) (l : List UInt32) (inode : INode) (i : Nat) (d : Image) : Prop :=
  ∃ own' w l' inode' n, w.disk = d ∧ Grew own own' v w l l' inode inode' i n ∧
    (inodeAt d inode.iNumber = inodeAt v.disk inode.iNumber ∨ inodeAt d inode.iNumber = inode'.iIc)

section

variable {own own' : Owners} {v w : Vol} {l l' : List UInt32} {inode inode' : INode} {i n : Nat}

theorem Grew.entry (hg : Good own v l) (h : Grew own own' v w l l' inode inode' i n)
    (hdir : (shape v.disk).Dir inode.iNumber) (hic : inode.iIc = inodeAt v.disk inode.iNumber)
    (hcount : blockCount inode.iIc ≤ i)
    (hstored : inodeAt w.disk inode.iNumber = inodeAt v.disk inode.iNumber ∨
      inodeAt w.disk inode.iNumber = inode'.iIc) {j : Nat} (hj : j < entryCount (inodeAt v.disk inode.iNumber)) :
    dirEntry w.disk (inodeAt w.disk inode.iNumber) j = dirEntry v.disk (inodeAt v.disk inode.iNumber) j := by
  obtain ⟨hlt, hmode⟩ := mode_of_dir hdir
  have hm := hg.maps _ hlt (by rw [hmode]; decide)
  have hblk := div_lt_blockCount_of_entry hmode hj
  have hmap : mapAddr w.disk (inodeAt w.disk inode.iNumber) (j / 16) =
      mapAddr v.disk (inodeAt v.disk inode.iNumber) (j / 16) := by
    rcases hstored with he | he
    · rw [he]
      exact h.steady _ _ _ hm (fun _ => by rw [← hic]; exact hcount) _ hblk
    · rw [he, ← hic]
      refine h.kept _ ?_
      rw [← hic] at hblk
      omega
  unfold dirEntry
  rw [hmap]
  have hown := hm.data _ hblk
  have hd := (hg.acct.owned _ _ hown).1
  rw [h.frame _ hd.ne_one (hd.ne_inodeBlock hlt) (by rw [h.ext _ _ hown]; simp)]

theorem Grew.within (hg : Good own v l) (h : Grew own own' v w l l' inode inode' i n)
    (hlt : inode.iNumber.toNat < 512) (hmode : inode.iIc.icMode = (inodeAt v.disk inode.iNumber).icMode)
    (hdir : (shape v.disk).Dir inode.iNumber → inode.iIc = inodeAt v.disk inode.iNumber ∧
      blockCount inode.iIc ≤ i ∧ (inodeAt w.disk inode.iNumber = inodeAt v.disk inode.iNumber ∨
        inodeAt w.disk inode.iNumber = inode'.iIc)) : (shape v.disk).Within (shape w.disk) := by
  have hother : ∀ D, (shape v.disk).Dir D → D ≠ inode.iNumber → inodeAt w.disk D = inodeAt v.disk D :=
    fun D hD hne => h.inodes D (lt_of_live hD.live) hne
  refine ⟨fun j hj => ?_, fun D hD => ?_, fun D j hD hj => ?_⟩
  · have hjlt := lt_of_live hj
    rw [shape_mode hjlt, shape_mode hjlt]
    by_cases hji : j = inode.iNumber
    · rw [hji]
      rcases h.stored with he | ⟨he, -⟩
      · rw [he]
      · rw [he, hmode]
    · rw [h.inodes j hjlt hji]
  · change entryCount _ = entryCount _
    by_cases hDi : D = inode.iNumber
    · subst hDi
      obtain ⟨hic, -, he | he⟩ := hdir hD
      · rw [he]
      · rw [he, ← hic]
        unfold entryCount
        rw [h.size]
    · rw [hother D hD hDi]
  · change dirEntry w.disk (inodeAt w.disk D) j = dirEntry v.disk (inodeAt v.disk D) j
    by_cases hDi : D = inode.iNumber
    · subst hDi
      obtain ⟨hic, hcount, hstored⟩ := hdir hD
      exact h.entry hg hD hic hcount hstored hj
    · obtain ⟨hDlt, hDmode⟩ := mode_of_dir hD
      have hm := hg.maps D hDlt (by rw [hDmode]; decide)
      rw [hother D hD hDi]
      refine dirEntry_frame hm (div_lt_blockCount_of_entry hDmode hj) fun x r hx => ?_
      have hd := (hg.acct.owned _ _ hx).1
      refine h.frame x hd.ne_one (hd.ne_inodeBlock hlt) ?_
      rw [h.ext _ _ hx]
      simp [hDi]

theorem Grew.good (hg : Good own v l) (h : Grew own own' v w l l' inode inode' i n)
    (hcount : blockCount inode.iIc ≤ i) : Good own' w l' :=
  (h.sound (fun _ => True) (fun _ _ _ _ => trivial) hcount ⟨hg, fun _ _ _ => trivial⟩).good

theorem Grew.intact (hg : Good own v l) (h : Grew own own' v w l l' inode inode' i n)
    (hlt : inode.iNumber.toNat < 512) : Intact own (· = inode.iNumber) v.disk w.disk := by
  refine ⟨h.inodes, fun x j r hx hj => ?_⟩
  have hd := (hg.acct.owned _ _ hx).1
  refine h.frame x hd.ne_one (hd.ne_inodeBlock hlt) ?_
  rw [h.ext _ _ hx]
  simp [hj]

theorem Midway.spares (hg : Good own v l) {d : Image} (h : Midway own v l inode i d)
    (hlt : inode.iNumber.toNat < 512) (hcount : blockCount inode.iIc ≤ i)
    (hmode : inode.iIc.icMode = (inodeAt v.disk inode.iNumber).icMode)
    (hdir : (shape v.disk).Dir inode.iNumber → inode.iIc = inodeAt v.disk inode.iNumber) :
    Spares own (· = inode.iNumber) v.disk (shape v.disk) d := by
  obtain ⟨own', w, l', inode', n, rfl, hw, hstored⟩ := h
  exact ⟨(hw.good hg hcount).survives (hw.within hg hlt hmode fun hD => ⟨hdir hD, hcount, hstored⟩),
    hw.intact hg hlt⟩

theorem storeSingle_first_cuts {v₁ : Vol} {l₀ l₁ : List UInt32} {a : UInt32}
    (hg : Grew own own' v v₁ l₀ l₁ inode inode i i) (hino : inode.iNumber.toNat < 512)
    (hold : inodeAt v₁.disk inode.iNumber = inodeAt v.disk inode.iNumber)
    (ha : own' a = some (inode.iNumber, .data i)) (hi : i = 11) (hl : l₁ ≠ []) :
    Cuts (Midway own v l₀ inode i) v₁ (storeSingle v₁ inode (i - 11) a).2.2 ∧
      inodeAt (storeSingle v₁ inode (i - 11) a).2.2.disk inode.iNumber =
        (storeSingle v₁ inode (i - 11) a).2.1.iIc := by
  obtain ⟨t, l, rfl⟩ := List.exists_cons_of_ne_nil hl
  obtain ⟨fs, hh, he, hal, hdt, hnt, hnl⟩ := hg.acct.balloc
  have halloc := grew_alloc .index hino hg.acct hg.maps hal hdt hnt hnl
  set own'' := Function.update own' t (some (inode.iNumber, .index)) with hown''
  have hselft : own'' t = some (inode.iNumber, .index) := by simp [hown'']
  have hib : (inode.iIc.setIb 0 t).ib 0 = t := ICommon.ib_setIb_self _ _ (by omega)
  have hw := grew_writeInode (inode.iIc.setIb 0 t) hino halloc.acct (Nat.le_refl i)
    (halloc.maps.setIb (by omega) t) (fun j hj => by simp [mapAddr, show j < 11 by omega]) rfl rfl
  have hx := grew_index { inode with iIc := inode.iIc.setIb 0 t } hino hw.acct hw.maps (by omega) (by omega)
    (by dsimp only; rw [hib]; exact hselft) (halloc.ext _ _ ha)
  dsimp only at hx
  rw [hib] at hx
  have htwo := hg.trans (Nat.le_refl i) halloc
  have hthree := htwo.trans (Nat.le_refl i) hw
  have hold₂ : inodeAt (afterAlloc v₁ fs t).disk inode.iNumber = inodeAt v.disk inode.iNumber :=
    (inodeAt_afterAlloc v₁ fs t hino).trans hold
  have hf := halloc.acct.formatted
  have hacct := hw.acct
  have hfour := hthree.trans (Nat.le_refl i) hx
  generalize hv₂ : afterAlloc v₁ fs t = v₂ at *
  have hstored : inodeAt (writeInode v₂ { inode with iIc := inode.iIc.setIb 0 t }).disk inode.iNumber =
      inode.iIc.setIb 0 t := inodeAt_writeInode_self hf hino
  have hcode : storeSingle v₁ inode (i - 11) a = (a, { inode with iIc := inode.iIc.setIb 0 t },
      putAddr (writeInode v₂ { inode with iIc := inode.iIc.setIb 0 t }) t
        (writeInode v₂ { inode with iIc := inode.iIc.setIb 0 t }).stkBlk (i - 11) a) := by
    simp only [storeSingle, rootAddr, hi, he, hdt.ne_noAddr, Nat.sub_self, decide_true, if_true, if_false,
      and_false]
  rw [putAddr_eq hacct hselft] at hcode
  have hwrite : Cuts (Midway own v l₀ inode i) v₂ (writeInode v₂ { inode with iIc := inode.iIc.setIb 0 t }) :=
    .writeInode hf hino ⟨own'', _, l, _, i, rfl, hthree, .inr hstored⟩
  generalize hv₃ : writeInode v₂ { inode with iIc := inode.iIc.setIb 0 t } = v₃ at *
  have hput := (inodeAt_put_ne (setWord (v₃.disk t) (i - 11) a) (hdt.ne_inodeBlock hino)).trans hstored
  have halloc' : Cuts (Midway own v l₀ inode i) v₁ v₂ := by
    rw [← hv₂] at htwo hold₂ ⊢
    exact .alloc ⟨own'', _, l, inode, i, rfl, htwo, .inl hold₂⟩
  rw [hcode]
  exact ⟨(halloc'.trans hwrite).trans (.put ⟨own'', _, l, _, i+1, rfl, hfour, .inr hput⟩), hput⟩

theorem storeSingle_later_cuts {v₁ : Vol} {l₀ l₁ : List UInt32} {a : UInt32}
    (hg : Grew own own' v v₁ l₀ l₁ inode inode i i) (hino : inode.iNumber.toNat < 512)
    (hold : inodeAt v₁.disk inode.iNumber = inodeAt v.disk inode.iNumber)
    (ha : own' a = some (inode.iNumber, .data i)) (hi : 11 < i) (h139 : i < 139) :
    Cuts (Midway own v l₀ inode i) v₁ (storeSingle v₁ inode (i - 11) a).2.2 ∧
      inodeAt (storeSingle v₁ inode (i - 11) a).2.2.disk inode.iNumber = inodeAt v.disk inode.iNumber ∧
      (storeSingle v₁ inode (i - 11) a).2.1 = inode := by
  have ht := hg.maps.index hi
  have hx := grew_index inode hino hg.acct hg.maps (by omega) h139 ht ha
  have hcode : storeSingle v₁ inode (i - 11) a =
      (a, inode, v₁.put (inode.iIc.ib 0) (setWord (v₁.disk (inode.iIc.ib 0)) (i - 11) a)) := by
    have hne : i - 11 ≠ 0 := by omega
    simp only [storeSingle, rootAddr, hne, decide_false, Bool.false_eq_true, if_false, false_and]
    rw [putAddr_eq hg.acct ht]
  have hput := (inodeAt_put_ne (setWord (v₁.disk (inode.iIc.ib 0)) (i - 11) a)
    ((hg.acct.owned _ _ ht).1.ne_inodeBlock hino)).trans hold
  rw [hcode]
  exact ⟨.put ⟨own', _, l₁, inode, i+1, rfl, hg.trans (Nat.le_refl i) hx, .inl hput⟩, hput, rfl⟩

theorem allocate_cuts {byte : UInt32} (hino : inode.iNumber.toNat < 512) (ha : Accounted own v l)
    (hm : Maps own v.disk inode.iNumber inode.iIc i) (hi : byte.toNat / 512 = i) (h139 : i < 139)
    (hlen : blocksFor i ≤ l.length) :
    Cuts (Midway own v l inode i) v (allocateDataBlockAddr v inode byte).2.2 ∧
      (inode.iIc = inodeAt v.disk inode.iNumber →
        inodeAt (allocateDataBlockAddr v inode byte).2.2.disk inode.iNumber =
          (allocateDataBlockAddr v inode byte).2.1.iIc) := by
  have hne : l ≠ [] := by
    rintro rfl
    unfold blocksFor at hlen
    split at hlen <;> simp at hlen
  obtain ⟨a, l, rfl⟩ := List.exists_cons_of_ne_nil hne
  obtain ⟨fs, hh, he, hal, hda, hnone, hn⟩ := ha.balloc
  have hgrew := grew_alloc (.data i) hino ha hm hal hda hnone hn
  set own' := Function.update own a (some (inode.iNumber, .data i)) with hown'
  have hself : own' a = some (inode.iNumber, .data i) := by simp [hown']
  have hold : inodeAt (afterAlloc v fs a).disk inode.iNumber = inodeAt v.disk inode.iNumber :=
    inodeAt_afterAlloc v fs a hino
  have hcut : Cuts (Midway own v (a :: l) inode i) v (afterAlloc v fs a) :=
    .alloc ⟨own', _, l, inode, i, rfl, hgrew, .inl hold⟩
  by_cases h11 : i < 11
  · have hw := grew_writeInode (inode.iIc.setDb i a) hino hgrew.acct (Nat.le_succ i)
      (hgrew.maps.setDb h11 hself) (fun j hj => by
        simp [mapAddr, show j < 11 by omega, ICommon.db_setDb_ne _ _ (show j ≠ i by omega)]) rfl rfl
    have hcode : allocateDataBlockAddr v inode byte = (a, { inode with iIc := inode.iIc.setDb i a },
        writeInode (afterAlloc v fs a) { inode with iIc := inode.iIc.setDb i a }) := by
      unfold allocateDataBlockAddr
      simp only [he, hi, hda.ne_noAddr, if_false, h11, if_true]
    have hstored : inodeAt (writeInode (afterAlloc v fs a) { inode with iIc := inode.iIc.setDb i a }).disk
        inode.iNumber = inode.iIc.setDb i a := inodeAt_writeInode_self hgrew.acct.formatted hino
    rw [hcode]
    exact ⟨hcut.trans (.writeInode hgrew.acct.formatted hino
      ⟨own', _, l, _, i+1, rfl, hgrew.trans (Nat.le_refl i) hw, .inr hstored⟩), fun _ => hstored⟩
  · have hcode : allocateDataBlockAddr v inode byte = storeSingle (afterAlloc v fs a) inode (i - 11) a := by
      unfold allocateDataBlockAddr
      simp only [he, hi, hda.ne_noAddr, if_false, h11, show i < 128 + 11 by omega, if_true]
    rw [hcode]
    by_cases hfirst : i = 11
    · have hl : l ≠ [] := by
        rintro rfl
        simp [blocksFor, hfirst] at hlen
      obtain ⟨hcuts, hstored⟩ := storeSingle_first_cuts hgrew hino hold hself hfirst hl
      exact ⟨hcut.trans hcuts, fun _ => hstored⟩
    · obtain ⟨hcuts, hstored, hsame⟩ := storeSingle_later_cuts hgrew hino hold hself (by omega) h139
      refine ⟨hcut.trans hcuts, fun hic => ?_⟩
      rw [hstored, hsame, hic]

theorem allocateLoop_cuts (count : Nat) (hg : Good own v l) (hino : inode.iNumber.toNat < 512)
    (hm : Maps own v.disk inode.iNumber inode.iIc i) (hcount : blockCount inode.iIc ≤ i)
    (hreg : inode.iIc.icMode = Mode.ifreg.code) (hstored : (inodeAt v.disk inode.iNumber).icMode = Mode.ifreg.code)
    (h139 : i + count ≤ 139) (hlen : blocksForRange i count ≤ l.length) :
    Cuts (Spares own (· = inode.iNumber) v.disk (shape v.disk)) v (allocateLoop count i v inode).2.2 ∧
      (shape v.disk).Within (shape (allocateLoop count i v inode).2.2.disk) := by
  induction count generalizing i v inode own l with
  | zero => exact ⟨.refl v, .refl _⟩
  | succ count ih =>
    unfold blocksForRange at hlen
    have hmode : inode.iIc.icMode = (inodeAt v.disk inode.iNumber).icMode := hreg.trans hstored.symm
    have hnot : ¬(shape v.disk).Dir inode.iNumber := by
      rw [Shape.Dir, shape_mode hino, hstored]
      decide
    obtain ⟨hcuts, -⟩ := allocate_cuts hino hg.acct hm (toNat_ofNat_mul (show i < 8388608 by omega)) (by omega)
      (by omega)
    rcases allocate_grew hino hg.acct hm (toNat_ofNat_mul (show i < 8388608 by omega)) (by omega) with
      ⟨hshort, -⟩ | ⟨a, own₁, l₁, inode₁, v₁, he, hne, -, hlen₁, -, hgrew⟩
    · omega
    · have hwithin := hgrew.within hg hino hmode fun hD => absurd hD hnot
      have hcount₁ : blockCount inode₁.iIc = blockCount inode.iIc := by
        unfold blockCount
        rw [hgrew.mode, hgrew.size]
      have hnum := hgrew.number
      have hstored₁ : (inodeAt v₁.disk inode.iNumber).icMode = Mode.ifreg.code := by
        rcases hgrew.stored with hsame | ⟨hsame, -⟩
        · rw [hsame, hstored]
        · rw [hsame, hreg]
      obtain ⟨hcuts', hwithin'⟩ := ih (hgrew.good hg hcount) (by rw [hnum]; exact hino) hgrew.maps (by omega)
        (hgrew.mode.trans hreg) (by rw [hnum]; exact hstored₁) (by omega) (by omega)
      unfold allocateLoop
      rw [he] at hcuts ⊢
      rw [hnum] at hcuts'
      simp only [hne, if_false]
      refine ⟨?_, hwithin.trans hwithin'⟩
      apply (hcuts.mono fun d hd => hd.spares hg hino hcount hmode fun hD => absurd hD hnot).trans
      exact hcuts'.mono fun d hd => hd.of_within hwithin (hgrew.intact hg hino) hgrew.ext

theorem room_cuts {par : INode} (hg : Good own v l) (hlt : par.iNumber.toNat < 512)
    (hic : par.iIc = inodeAt v.disk par.iNumber) (hdir : par.iIc.icMode = Mode.ifdir.code)
    (hroom : Roomy par.iIc)
    (hlen : par.iIc.icSize.toNat / 32 % 16 = 0 → blocksFor (par.iIc.icSize.toNat / 512) ≤ l.length) :
    ∃ a own₁ l₁ par₁ v₁, (if par.iIc.icSize.toNat / 32 % 16 = 0 ∧ 0 < par.iIc.icSize then
        allocateDataBlockAddr v par par.iIc.icSize else (0, par, v)) = (a, par₁, v₁) ∧
      Cuts (Spares own (· = par.iNumber) v.disk (shape v.disk)) v v₁ ∧
      Grew own own₁ v v₁ l l₁ par par₁ (blockCount par.iIc) (par.iIc.icSize.toNat / 512 + 1) ∧
      inodeAt v₁.disk par.iNumber = par₁.iIc := by
  have hpos : 0 < par.iIc.icSize := UInt32.lt_iff_toNat_lt.mpr hroom.pos
  have haligned := hroom.aligned
  have hsmall := hroom.small
  have hcount := blockCount_dir hdir
  have hm : Maps own v.disk par.iNumber par.iIc (blockCount par.iIc) := by
    rw [hic] at hdir ⊢
    exact hg.maps _ hlt (by rw [hdir]; decide)
  by_cases hr : par.iIc.icSize.toNat / 32 % 16 = 0
  · have hi : blockCount par.iIc = par.iIc.icSize.toNat / 512 := by omega
    rw [if_pos ⟨hr, hpos⟩]
    rw [hi] at hm ⊢
    obtain ⟨hcuts, hstored⟩ := allocate_cuts hlt hg.acct hm rfl (by omega) (hlen hr)
    rcases allocate_grew hlt hg.acct hm rfl (by omega) with
      ⟨hshort, -⟩ | ⟨a, own₁, l₁, par₁, v₁, he, -, -, -, -, hgrew⟩
    · exact absurd (hlen hr) (by omega)
    · rw [he] at hcuts hstored ⊢
      exact ⟨a, own₁, l₁, par₁, v₁, rfl, hcuts.mono fun d hd => hd.spares hg hlt (by omega) (by rw [hic])
        fun _ => hic, hgrew, hstored hic⟩
  · have hi : blockCount par.iIc = par.iIc.icSize.toNat / 512 + 1 := by omega
    rw [if_neg fun h => hr h.1]
    rw [hi] at hm ⊢
    exact ⟨0, own, l, par, v, rfl, .refl v, .refl hg.acct hm, hic.symm⟩

theorem add_cuts {par : INode} (ino : UInt32) (name : CStr) (hg : Good own v l) (hlt : par.iNumber.toNat < 512)
    (hic : par.iIc = inodeAt v.disk par.iNumber) (hdir : par.iIc.icMode = Mode.ifdir.code)
    (hroom : Roomy par.iIc)
    (hlen : par.iIc.icSize.toNat / 32 % 16 = 0 → blocksFor (par.iIc.icSize.toNat / 512) ≤ l.length) :
    Cuts (fun d => Spares own (· = par.iNumber) v.disk (shape v.disk) d ∨
      d = (addInodeToDirectory v par ino name).2.disk) v (addInodeToDirectory v par ino name).2 := by
  obtain ⟨a, own₁, l₁, par₁, v₁, he, hcuts, hgrew, hstored⟩ := room_cuts hg hlt hic hdir hroom hlen
  have hg₁ := hgrew.good hg (Nat.le_refl _)
  have hwithin := hgrew.within hg hlt (by rw [hic]) fun _ => ⟨hic, Nat.le_refl _, .inr hstored⟩
  have hsize : par₁.iIc.icSize = par.iIc.icSize := hgrew.size
  have hsmall := hroom.small
  -- the slot's block
  have hread : getDataBlockAddr v₁ par₁ par₁.iIc.icSize = mapAddr v₁.disk par₁.iIc (par.iIc.icSize.toNat / 512) := by
    rw [hgrew.maps.reads hgrew.acct (by rw [hsize]; omega), hsize]
  have hown : own₁ (mapAddr v₁.disk par₁.iIc (par.iIc.icSize.toNat / 512)) =
      some (par.iNumber, .data (par.iIc.icSize.toNat / 512)) := by
    rw [← hgrew.number]
    exact hgrew.maps.data _ (by omega)
  have hnum₁ := hgrew.number
  generalize mapAddr v₁.disk par₁.iIc (par.iIc.icSize.toNat / 512) = addr at hread hown
  obtain ⟨hdata, hfree⟩ := hg₁.acct.owned _ _ hown
  have hltaddr := hdata.lt_num hg₁.acct.formatted
  have hcode : (addInodeToDirectory v par ino name).2 =
      writeInode (v₁.put addr (enteredBlock (v₁.disk addr) (par.iIc.icSize.toNat / 32 % 16) ino name))
        (lengthened par₁) := by
    unfold addInodeToDirectory
    dsimp only
    rw [he]
    simp only [getDataBlock, hread]
    rw [diskRd_lt _ _ hltaddr, diskWr_put _ _ hltaddr]
    rfl
  rw [hcode]
  have hslots : (shape v₁.disk).Dir par.iNumber → ∀ k < 16,
      16 * (par.iIc.icSize.toNat / 512) + k < entryCount (inodeAt v₁.disk par.iNumber) →
      getDir (enteredBlock (v₁.disk addr) (par.iIc.icSize.toNat / 32 % 16) ino name) k = getDir (v₁.disk addr) k := by
    intro _ k _ hk
    rw [hstored, entryCount, hsize] at hk
    exact getDir_entry_lt (by omega) (by omega)
  have hput := within_put hg₁ (enteredBlock (v₁.disk addr) (par.iIc.icSize.toNat / 32 % 16) ino name) hown hslots
  have hg₂ := hg₁.put_data (enteredBlock (v₁.disk addr) (par.iIc.icSize.toNat / 32 % 16) ino name) hdata hfree
    fun q => by simp [hown]
  have hlast : (lengthened par₁).iNumber.toNat < 512 := by
    change par₁.iNumber.toNat < 512
    rw [hnum₁]
    exact hlt
  apply (hcuts.mono fun d hd => Or.inl hd).trans
  apply (Cuts.put (.inl ⟨hg₂.survives (hwithin.trans hput),
    (hgrew.intact hg hlt).trans (hg₁.intact_put _ hown rfl) hgrew.ext⟩)).trans
  exact .writeInode hg₂.acct.formatted hlast (.inr rfl)

theorem room_of_added {par : INode} (ino : UInt32) (name : CStr) (hg : Good own v l) (hlt : par.iNumber.toNat < 512)
    (hic : par.iIc = inodeAt v.disk par.iNumber) (hdir : par.iIc.icMode = Mode.ifdir.code)
    (hroom : Roomy par.iIc) (hok : ¬Failed (addInodeToDirectory v par ino name).2) :
    par.iIc.icSize.toNat / 32 % 16 = 0 → blocksFor (par.iIc.icSize.toNat / 512) ≤ l.length := by
  have hpos := hroom.pos
  have hsmall := hroom.small
  have hcount := blockCount_dir hdir
  have hm : Maps own v.disk par.iNumber par.iIc (max 1 (blockCount par.iIc)) := by
    rw [max_eq_right (by omega)]
    rw [hic] at hdir ⊢
    exact hg.maps _ hlt (by rw [hdir]; decide)
  intro hr
  rcases addInodeToDirectory_entered ino name hlt hg.acct hm hdir hroom.aligned (by omega) with
    ⟨-, -, hf⟩ | ⟨own', l', he⟩
  · exact absurd hf hok
  · have hlen := he.length
    rw [if_pos ⟨hr, hpos⟩] at hlen
    omega

theorem newInode_cuts {a : UInt32} (hg : Good own v (a :: l)) (hino : inode.iNumber.toNat < 512)
    (hdead : ¬(shape v.disk).Live inode.iNumber) (hdb : inode.iIc.db 0 = a) (hcount : blockCount inode.iIc ≤ 1)
    (x : Option Block) {v₁ : Vol} (hb : balloc v = (a, v₁)) :
    Cuts (Spares own (· = inode.iNumber) v.disk (shape v.disk)) v
        (writeInode (x.elim v₁ fun x => diskWr v₁ a x 512) inode) ∧
      (shape v.disk).Within (shape (writeInode (x.elim v₁ fun x => diskWr v₁ a x 512) inode).disk) := by
  obtain ⟨fs, hh, he, hal, hda, hnone, hn⟩ := hg.acct.balloc
  obtain rfl : afterAlloc v fs a = v₁ := (congrArg Prod.snd he).symm.trans (congrArg Prod.snd hb)
  have hold := inodeAt_afterAlloc v fs a hino
  have hw₁ := within_alloc hg fs a
  have hi₁ := hg.intact_alloc (· = inode.iNumber) fs a
  have hext : Ext own (Function.update own a (some (inode.iNumber, .data 0))) := ext_claim _ hnone
  have hg₁ := (hg.alloc hal).claim (inode.iNumber, .data 0) hda hn hnone
  have hcut : Cuts (Spares own (· = inode.iNumber) v.disk (shape v.disk)) v (afterAlloc v fs a) :=
    .alloc ⟨hg₁.survives hw₁, hi₁⟩
  have hself : Function.update own a (some (inode.iNumber, .data 0)) a = some (inode.iNumber, .data 0) := by simp
  generalize Function.update own a (some (inode.iNumber, Role.data 0)) = own' at hg₁ hself hext
  have hdead₁ : ¬(shape (afterAlloc v fs a).disk).Live inode.iNumber := by
    rw [Shape.Live, shape_mode hino] at hdead ⊢
    rwa [hold]
  generalize hv₁ : afterAlloc v fs a = v₁ at hw₁ hg₁ hi₁ hdead₁ hcut
  -- the block may be written before the inode
  have hblock : ∃ v₂, x.elim v₁ (fun x => diskWr v₁ a x 512) = v₂ ∧ Good own' v₂ l ∧
      (shape v₁.disk).Within (shape v₂.disk) ∧ Intact own (· = inode.iNumber) v.disk v₂.disk ∧
      Cuts (Spares own (· = inode.iNumber) v.disk (shape v.disk)) v₁ v₂ ∧
      inodeAt v₂.disk inode.iNumber = inodeAt v₁.disk inode.iNumber := by
    cases x with
    | none => exact ⟨v₁, rfl, hg₁, .refl _, hi₁, .refl v₁, rfl⟩
    | some x =>
      have hg₂ := hg₁.put_data x hda hn fun q => by simp [hself]
      have hw₂ := within_put hg₁ x hself fun hD => absurd hD.live hdead₁
      have hi₂ := hi₁.trans (hg₁.intact_put x hself rfl) hext
      exact ⟨v₁.put a x, diskWr_put _ _ (hda.lt_num hg₁.acct.formatted), hg₂, hw₂, hi₂,
        .put ⟨hg₂.survives (hw₁.trans hw₂), hi₂⟩, inodeAt_put_ne x (hda.ne_inodeBlock hino)⟩
  obtain ⟨v₂, hv₂, hg₂, hw₂, hi₂, hcut₂, hold₂⟩ := hblock
  have hdead₂ : ¬(shape v₂.disk).Live inode.iNumber := by
    rw [Shape.Live, shape_mode hino] at hdead₁ ⊢
    rwa [hold₂]
  have hmaps : Maps own' v₂.disk inode.iNumber inode.iIc 1 := by
    refine ⟨by omega, fun i hi => ?_, fun h => absurd h (by omega)⟩
    rw [show i = 0 by omega, mapAddr, if_pos (by omega), hdb]
    exact hself
  have hg₃ := hg₂.writeInode hino fun _ => hmaps.le hcount
  have hw₃ := hw₁.trans (hw₂.trans (within_writeInode hg₂ hino (fun h => absurd h hdead₂) fun hD => hdead₂ hD.live))
  rw [hv₂]
  have hi₃ := hi₂.trans (hg₂.intact_writeInode hino rfl) hext
  exact ⟨(hcut.trans hcut₂).trans (.writeInode hg₂.acct.formatted hino ⟨hg₃.survives hw₃, hi₃⟩), hw₃⟩

theorem Created.intact (hg : Good own v l) (h : Created own own' v w l l' inode) :
    Intact own (· = inode.iNumber) v.disk w.disk := by
  refine ⟨h.inodes, fun x i r hx _ => h.frame x (hg.acct.owned _ _ hx).1 ?_⟩
  rintro rfl
  rw [h.unowned] at hx
  cases hx

theorem newFile_cuts {a par : UInt32} {parent : INode} (name : CStr) (hg : Good own v (a :: l))
    (hino : inode.iNumber.toNat < 512) (hdead : ¬(shape v.disk).Live inode.iNumber) (hdb : inode.iIc.db 0 = a)
    (hcount : blockCount inode.iIc ≤ 1) (x : Option Block) {v₁ : Vol} (hb : balloc v = (a, v₁))
    (hpar : (shape v.disk).Dir par) (hroom : Roomy (inodeAt v.disk par)) (hn : parent.iNumber = par)
    (hic : parent.iIc = inodeAt v.disk par)
    (hok : ¬Failed (addInodeToDirectory (writeInode (x.elim v₁ fun x => diskWr v₁ a x 512) inode) parent
      inode.iNumber name).2) :
    Cuts (fun d => Spares own (fun j => ¬(shape v.disk).Live j ∨ j = par) v.disk (shape v.disk) d ∨
      d = (addInodeToDirectory (writeInode (x.elim v₁ fun x => diskWr v₁ a x 512) inode) parent inode.iNumber
        name).2.disk) v
      (addInodeToDirectory (writeInode (x.elim v₁ fun x => diskWr v₁ a x 512) inode) parent inode.iNumber name).2 := by
  subst hn
  obtain ⟨hplt, hpmode⟩ := mode_of_dir hpar
  have hpi : parent.iNumber ≠ inode.iNumber := by
    intro he
    exact hdead (he ▸ hpar.live)
  obtain ⟨hcuts, hwithin⟩ := newInode_cuts hg hino hdead hdb hcount x hb
  obtain ⟨own₁, v₁', hb', hs₁, hc, -⟩ := newInode_created (P := fun _ => True) (fun _ _ _ _ => trivial)
    ⟨hg, fun _ _ _ => trivial⟩ hino hdb hcount x
  obtain rfl : v₁' = v₁ := (congrArg Prod.snd hb').symm.trans (congrArg Prod.snd hb)
  have hg₂ := hs₁.good
  have hnew : ∀ j, j = inode.iNumber → ¬(shape v.disk).Live j ∨ j = parent.iNumber := fun _ hj => .inl (hj ▸ hdead)
  have hrest := (hc.intact hg).mono hnew
  have hext := hc.ext
  have hsame := hc.inodes _ hplt hpi
  rw [← hic] at hroom hpmode hsame
  generalize writeInode (x.elim v₁' fun x => diskWr v₁' a x 512) inode = v₂ at *
  have hadd := add_cuts inode.iNumber name hg₂ hplt hsame.symm hpmode hroom
    (room_of_added _ _ hg₂ hplt hsame.symm hpmode hroom hok)
  apply (hcuts.mono fun d hd => Or.inl (hd.mono hnew)).trans
  exact hadd.mono fun d hd => hd.imp_left fun hspares =>
    (hspares.mono fun _ hj => .inr hj).of_within hwithin hrest hext

theorem createFile_cuts (hg : Good own v l) (inode : INode) {par : UInt32} {name : CStr}
    (hpar : (shape v.disk).Dir par) (hroom : Roomy (inodeAt v.disk par))
    (hok : ¬Failed (createFile v inode par name).2) :
    Cuts (fun d => Spares own (fun j => ¬(shape v.disk).Live j ∨ j = par) v.disk (shape v.disk) d ∨
      d = (createFile v inode par name).2.disk) v (createFile v inode par name).2 := by
  have hf := hg.acct.formatted
  obtain ⟨hplt, -⟩ := mode_of_dir hpar
  rcases getFreeInode_cases hf inode with ⟨he, -⟩ | ⟨i, hi, hfree, he⟩
  · simp only [createFile, he]
    exact .log v rfl
  have hdead := not_live_of_free hi hfree
  set inode₁ : INode := { inode with
    iNumber := i
    iIc := { inode.iIc with icMode := Mode.ifreg.code, icSize := 0 } } with hinode₁
  cases l with
  | nil =>
    refine absurd ?_ hok
    simp only [createFile, he, balloc_nil hg.acct.free]
    exact ((failed_full v).later (later_writeInode ..)).later (later_addInodeToDirectory ..)
  | cons a l =>
    set inode₂ : INode := { inode₁ with iIc := inode₁.iIc.setDb 0 a } with hinode₂
    have hdb : inode₂.iIc.db 0 = a := ICommon.db_setDb_self _ _ (by omega)
    have hmode₂ : inode₂.iIc.icMode = Mode.ifreg.code := rfl
    have hcount : blockCount inode₂.iIc = 1 := by
      rw [blockCount_regular hmode₂, show inode₂.iIc.icSize = 0 from rfl]
      rfl
    obtain ⟨own₁, v₁, hb, hs₁, hc, -⟩ := newInode_created (P := fun _ => True) (fun _ _ _ _ => trivial)
      ⟨hg, fun _ _ _ => trivial⟩ (show inode₂.iNumber.toNat < 512 from hi) hdb (by omega) none
    simp only [Option.elim] at hs₁ hc
    have hpi : par ≠ i := by
      rintro rfl
      exact hdead hpar.live
    have hread := readInode_eq hs₁.good.acct.formatted hplt ⟨0, 0, (writeInode v₁ inode₂).stkIc⟩
    rw [hc.inodes par hplt hpi] at hread
    have hcode : createFile v inode par name = (i, (addInodeToDirectory (writeInode v₁ inode₂)
        ⟨par, 0, inodeAt v.disk par⟩ i name).2) := by
      simp only [createFile, he, hb]
      rw [← hread]
    rw [hcode] at hok ⊢
    exact newFile_cuts name hg (show inode₂.iNumber.toNat < 512 from hi) hdead hdb (by omega) none hb hpar hroom rfl
      rfl hok

end

/-! What is left of the files. -/

def FilesStay (T : UInt32 → Prop) (d₀ d : Image) : Prop :=
  ∀ j, j.toNat < 512 → (inodeAt d₀ j).icMode = Mode.ifreg.code → ¬T j →
    inodeAt d j = inodeAt d₀ j ∧ contents d (inodeAt d₀ j) = contents d₀ (inodeAt d₀ j)

/-- Tree `S` is there, and the files that are not in `T`. -/
structure Leaves (T : UInt32 → Prop) (d₀ : Image) (S : Shape) (d : Image) : Prop where
  tree : Survives S d
  files : FilesStay T d₀ d

section

variable {own own' : Owners} {v w : Vol} {l l' : List UInt32} {T T' : UInt32 → Prop} {d : Image} {S : Shape}

theorem Intact.files (hg : Good own v l) (h : Intact own T v.disk d)
    (hT : ∀ j, j.toNat < 512 → (inodeAt v.disk j).icMode = Mode.ifreg.code → T j → T' j) :
    FilesStay T' v.disk d := by
  intro j hj hreg hout
  have hin : ¬T j := fun ht => hout (hT j hj hreg ht)
  refine ⟨h.inodes j hj hin, contents_congr fun p hp => ?_⟩
  obtain ⟨r, hr⟩ := (hg.maps j hj (by rw [hreg]; decide)).owns hp
  exact h.frame _ j r hr hin

theorem Spares.leaves (hg : Good own v l) (h : Spares own T v.disk S d)
    (hT : ∀ j, j.toNat < 512 → (inodeAt v.disk j).icMode = Mode.ifreg.code → T j → T' j) :
    Leaves T' v.disk S d := ⟨h.tree, h.rest.files hg hT⟩

theorem FilesStay.trans {d₀ d₁ : Image} (h : FilesStay T d₀ d₁) (h' : FilesStay T d₁ d) : FilesStay T d₀ d := by
  intro j hj hreg hT
  obtain ⟨hino, hbytes⟩ := h j hj hreg hT
  obtain ⟨hino', hbytes'⟩ := h' j hj (by rw [hino]; exact hreg) hT
  rw [hino] at hino' hbytes'
  exact ⟨hino', hbytes'.trans hbytes⟩

theorem regular_out {p : UInt32} (hp : (shape v.disk).Dir p) (j : UInt32) (hj : j.toNat < 512)
    (hreg : (inodeAt v.disk j).icMode = Mode.ifreg.code) (ht : ¬(shape v.disk).Live j ∨ j = p) : T j := by
  rcases ht with hdead | rfl
  · refine absurd ?_ hdead
    rw [Shape.Live, shape_mode hj, hreg]
    decide
  · rw [(mode_of_dir hp).2] at hreg
    exact absurd hreg (by decide)

theorem Extended.intact {par i : UInt32} {ic : ICommon} {name : CStr}
    (he : Extended own own' v w l l' par i ic name) :
    Intact own (fun j => ¬(shape v.disk).Live j ∨ j = par) v.disk w.disk := by
  refine ⟨fun j hj hT => ?_, fun x j r hx hT => he.frame x j r hx fun hp => hT (.inr hp)⟩
  rw [not_or, not_not] at hT
  exact he.inodes j hj hT.2 (he.grown.ne hT.1)

theorem Appended.intact {q i : UInt32} {name : CStr} (ha : Appended own own' v w l l' q i name) (hg : Good own v l) :
    Intact own (· = q) v.disk w.disk := by
  refine ⟨ha.inodes, fun x j r hx hj => ha.frame x (hg.acct.owned _ _ hx).1 fun r' hr' => ?_⟩
  rw [ha.ext _ _ hx] at hr'
  cases hr'
  exact hj rfl

end

end ArmKernel.Fs
