import ArmKernel.Fs.Volume
import ArmKernel.Lib.Unrolled

/-! The free list is an unrolled stack: its top node is the superblock's
`fs_fdb` and its other nodes are free blocks. `balloc` pops, `bfree` pushes,
and each leaves the superblock on disk equal to the one in memory. -/
namespace ArmKernel.Fs

open Lib Lib.Bytes Lib.Unrolled SuperBlock

/-- The geometry `wipe` writes; no other function sets these words. -/
structure Formatted (v : Vol) : Prop where
  num : v.num = 2048
  sblkno : fsSblkno v.fs = 1
  size : fsSize v.fs = 2048
  iblkno : fsIblkno v.fs = 2
  isize : fsIsize v.fs = 512
  dblkno : fsDblkno v.fs = 66

def DataBlock (a : UInt32) : Prop := 66 ≤ a.toNat ∧ a.toNat < 2048

instance : DecidablePred DataBlock := fun _ => inferInstanceAs (Decidable (_ ∧ _))

def nodeWords (d : Image) (a : UInt32) (i : Nat) : UInt32 := word (d a) i

def FreeStack (d : Image) (fs : SuperBlock) (l : List UInt32) : Prop :=
  Chain 1 63 (nodeWords d) (fsFdb fs) (fsFdbhead fs).toNat l

structure FreeList (d : Image) (fs : SuperBlock) (l : List UInt32) : Prop where
  stack : FreeStack d fs l
  head : (fsFdbhead fs).toNat ≤ 63
  nodup : l.Nodup
  area : ∀ a ∈ l, DataBlock a

def Synced (v : Vol) : Prop := v.disk 1 = v.fs

theorem DataBlock.ne_one {a : UInt32} (h : DataBlock a) : a ≠ 1 := by
  rintro rfl
  have h66 : 66 ≤ UInt32.toNat 1 := h.1
  simp at h66

theorem DataBlock.ne_noAddr {a : UInt32} (h : DataBlock a) : a ≠ noAddr := by
  rintro rfl
  have h2048 : noAddr.toNat < 2048 := h.2
  simp [noAddr] at h2048

theorem DataBlock.lt_num {v : Vol} {a : UInt32} (hf : Formatted v) (h : DataBlock a) :
    a.toNat < v.num := hf.num ▸ h.2

theorem Formatted.of_header {v v' : Vol} (hf : Formatted v) (hn : v'.num = v.num)
    (hh : Header v.fs v'.fs) : Formatted v' where
  num := hn.trans hf.num
  sblkno := (hh 0 (by omega)).trans hf.sblkno
  size := (hh 1 (by omega)).trans hf.size
  iblkno := (hh 2 (by omega)).trans hf.iblkno
  isize := (hh 3 (by omega)).trans hf.isize
  dblkno := (hh 4 (by omega)).trans hf.dblkno

/-! Disk requests inside the disk. -/

theorem diskRd_lt (v : Vol) {a : UInt32} (x : Block) (h : a.toNat < v.num) :
    diskRd v a x = v.disk a := if_pos h

theorem diskWr_lt (v : Vol) {a : UInt32} (x : Block) (n : Nat) (h : a.toNat < v.num) :
    diskWr v a x n = { v with
      disk := Function.update v.disk a (overlay (v.disk a) x n)
      trace := .wr a (Function.update v.disk a (overlay (v.disk a) x n)) :: v.trace } := if_pos h

theorem Vol.refuse_answered (v : Vol) {a : UInt32} (h : answered a = true) : v.refuse a = v := by
  rw [refuse, if_pos h]

theorem diskWr_block (v : Vol) {a : UInt32} (x : Block) (h : a.toNat < v.num) :
    diskWr v a x 512 = { v with
      disk := Function.update v.disk a x
      trace := .wr a (Function.update v.disk a x) :: v.trace } := by
  rw [diskWr_lt v x 512 h, overlay_all _ _ (Nat.le_refl _)]

@[simp] theorem diskWr_fs (v : Vol) (a : UInt32) (x : Block) (n : Nat) :
    (diskWr v a x n).fs = v.fs := by
  unfold diskWr
  split <;> rfl

@[simp] theorem diskWr_num (v : Vol) (a : UInt32) (x : Block) (n : Nat) :
    (diskWr v a x n).num = v.num := by
  unfold diskWr
  split <;> rfl

@[simp] theorem diskWr_stkBlk (v : Vol) (a : UInt32) (x : Block) (n : Nat) :
    (diskWr v a x n).stkBlk = v.stkBlk := by
  unfold diskWr
  split <;> rfl

@[simp] theorem diskWr_stkIc (v : Vol) (a : UInt32) (x : Block) (n : Nat) :
    (diskWr v a x n).stkIc = v.stkIc := by
  unfold diskWr
  split <;> rfl

theorem Formatted.diskWr {v : Vol} (hf : Formatted v) (a : UInt32) (x : Block) (n : Nat) :
    Formatted (diskWr v a x n) := hf.of_header (diskWr_num ..) fun _ _ => by rw [diskWr_fs]

@[simp] theorem updateSb_fs (v : Vol) : (updateSb v).fs = v.fs := diskWr_fs ..

theorem updateSb_eq {v : Vol} (hf : Formatted v) :
    updateSb v = { v with
      disk := Function.update v.disk 1 v.fs
      trace := .wr 1 (Function.update v.disk 1 v.fs) :: v.trace } := by
  unfold updateSb
  rw [hf.sblkno, diskWr_block v v.fs (by rw [hf.num]; decide)]

theorem FreeList.frame {d d' : Image} {fs : SuperBlock} {l : List UInt32} (hl : FreeList d fs l)
    (hd : ∀ a ∈ l, d' a = d a) : FreeList d' fs l where
  stack := hl.stack.congr (fun _ _ => rfl) fun a ha i _ => by simp only [nodeWords, hd a ha]
  head := hl.head
  nodup := hl.nodup
  area := hl.area

theorem FreeList.unique {d : Image} {fs : SuperBlock} {l l' : List UInt32} (hl : FreeList d fs l)
    (hl' : FreeList d fs l') : l = l' :=
  hl.stack.unique hl'.stack

theorem FreeList.head_eq {d : Image} {fs : SuperBlock} {l : List UInt32} (hl : FreeList d fs l) :
    (fsFdbhead fs).toNat = l.length % 64 := by
  have hmod : l.length % 64 = (fsFdbhead fs).toNat % 64 := hl.stack.length_mod
  have := hl.head
  omega

theorem FreeList.update_one {d : Image} {fs : SuperBlock} {l : List UInt32} (x : Block)
    (hl : FreeList d fs l) : FreeList (Function.update d 1 x) fs l :=
  hl.frame fun a ha => Function.update_of_ne (hl.area a ha).ne_one _ _

/-! `balloc`. -/

/-- A volume whose superblock `fs` was just put on disk by an allocation that
took `a`. -/
def afterAlloc (v : Vol) (fs : SuperBlock) (a : UInt32) : Vol := { v with
  fs := fs
  disk := Function.update v.disk 1 fs
  trace := .alloc a :: .wr 1 (Function.update v.disk 1 fs) :: v.trace }

theorem pred_toNat {h : UInt32} (hpos : 0 < h) : (h - 1).toNat + 1 = h.toNat := by
  have h1 : 1 ≤ h.toNat := by
    have := UInt32.lt_iff_toNat_lt.mp hpos
    simp at this
    omega
  rw [UInt32.toNat_sub_of_le _ _ (UInt32.le_iff_toNat_le.mpr (by simpa using h1))]
  simp
  omega

theorem balloc_cons {v : Vol} {a : UInt32} {l : List UInt32} (hf : Formatted v)
    (hl : FreeList v.disk v.fs (a :: l)) :
    ∃ fs, Header v.fs fs ∧ balloc v = (a, afterAlloc v fs a) ∧
      FreeList (afterAlloc v fs a).disk fs l := by
  have htail : ∀ b ∈ l, DataBlock b := fun b hb => hl.area b (List.mem_cons_of_mem _ hb)
  by_cases hpos : 0 < fsFdbhead v.fs
  · -- pop from the superblock's own words
    have hh := pred_toNat hpos
    have hle := hl.head
    have hst := hl.stack
    unfold FreeStack at hst
    rw [← hh] at hst
    obtain ⟨rest, heq, hrest⟩ := hst.pop
    obtain ⟨rfl, rfl⟩ := List.cons.inj heq
    have hhd := header_setFdbhead v.fs (fsFdbhead v.fs - 1)
    refine ⟨setFdbhead v.fs (fsFdbhead v.fs - 1), hhd, ?_, ?_⟩
    · have hf' : Formatted { v with fs := setFdbhead v.fs (fsFdbhead v.fs - 1) } :=
        hf.of_header rfl hhd
      rw [balloc, if_pos hpos, updateSb_eq hf']
      simp [afterAlloc, Vol.log]
    · apply FreeList.update_one
      refine ⟨?_, ?_, hl.nodup.of_cons, htail⟩
      · unfold FreeStack
        rw [fsFdbhead_setFdbhead]
        exact hrest.congr (fun i _ => fsFdb_setFdbhead _ _ _) fun _ _ _ _ => rfl
      · rw [fsFdbhead_setFdbhead]
        omega
  · -- the last word names a block that holds the next sixty-four
    have h0 : fsFdbhead v.fs = 0 := by
      apply UInt32.toNat_inj.mp
      have := mt UInt32.lt_iff_toNat_lt.mpr hpos
      simpa using this
    have hst := hl.stack
    unfold FreeStack at hst
    rw [h0] at hst
    change Chain 1 63 (nodeWords v.disk) (fsFdb v.fs) 0 (a :: l) at hst
    have hne : fsFdb v.fs 0 ≠ 1 := fun h1 => by
      have := hst.eq_nil_iff.mpr ⟨rfl, h1⟩
      simp at this
    obtain ⟨rest, heq, hrest⟩ := hst.refill hne
    obtain ⟨rfl, rfl⟩ := List.cons.inj heq
    have ha : DataBlock (fsFdb v.fs 0) := hl.area _ List.mem_cons_self
    have hhd := (header_loadFdb v.fs (v.disk (fsFdb v.fs 0))).trans (header_setFdbhead _ 63)
    refine ⟨setFdbhead (loadFdb v.fs (v.disk (fsFdb v.fs 0))) 63, hhd, ?_, ?_⟩
    · have hf' : Formatted
          { v with fs := setFdbhead (loadFdb v.fs (v.disk (fsFdb v.fs 0))) 63 } :=
        hf.of_header rfl hhd
      rw [balloc, if_neg hpos, h0]
      simp only [UInt32.toNat_zero]
      rw [if_pos hne, diskRd_lt _ _ (ha.lt_num hf), updateSb_eq hf']
      rfl
    · apply FreeList.update_one
      refine ⟨?_, ?_, hl.nodup.of_cons, htail⟩
      · unfold FreeStack
        rw [fsFdbhead_setFdbhead]
        refine hrest.congr (fun i hi => ?_) fun _ _ _ _ => rfl
        have h63 : i < 64 := Nat.lt_succ_of_le hi
        rw [fsFdb_setFdbhead, fsFdb_loadFdb _ _ _ h63]
        rfl
      · rw [fsFdbhead_setFdbhead]
        decide

theorem balloc_nil {v : Vol} (hl : FreeList v.disk v.fs []) : balloc v = (noAddr, v.log .full) := by
  obtain ⟨hh, h1⟩ := hl.stack.eq_nil_iff.mp rfl
  have h0 : fsFdbhead v.fs = 0 := UInt32.toNat_inj.mp hh
  rw [balloc, if_neg (by rw [h0]; decide), h0]
  simp only [UInt32.toNat_zero, h1]
  simp

/-! `bfree`. -/

/-- What a release of block `a` does to a volume: only the superblock and, when
the superblock's list is full, block `a` itself are written. -/
structure Pushed (v : Vol) (a : UInt32) (v' : Vol) : Prop where
  header : Header v.fs v'.fs
  num : v'.num = v.num
  stkBlk : v'.stkBlk = v.stkBlk
  stkIc : v'.stkIc = v.stkIc
  synced : Synced v'
  frame : ∀ x, x ≠ 1 → x ≠ a → v'.disk x = v.disk x
  head : (fsFdbhead v'.fs).toNat = ((fsFdbhead v.fs).toNat + 1) % 64
  kept : (fsFdbhead v.fs).toNat ≠ 63 → v'.disk a = v.disk a
  spilt : (fsFdbhead v.fs).toNat = 63 → ∀ i < 64, word (v'.disk a) i = fsFdb v.fs i

theorem Pushed.formatted {v v' : Vol} {a : UInt32} (h : Pushed v a v') (hf : Formatted v) :
    Formatted v' := hf.of_header h.num h.header

theorem lt_63_iff (h : UInt32) : h < 63 ↔ h.toNat < 63 := by
  rw [UInt32.lt_iff_toNat_lt]
  rfl

theorem toNat_succ {h : UInt32} (hlt : h < 63) : (h + 1).toNat = h.toNat + 1 := by
  have := (lt_63_iff h).mp hlt
  rw [UInt32.toNat_add]
  simp
  omega

theorem bfree_pushed {v : Vol} {a : UInt32} (hf : Formatted v) (ha : DataBlock a)
    (hh : (fsFdbhead v.fs).toNat ≤ 63) : Pushed v a (bfree v a).2 := by
  by_cases hlt : fsFdbhead v.fs < 63
  · have hs := toNat_succ hlt
    have h63 := (lt_63_iff _).mp hlt
    have hhd := (header_setFdbhead v.fs (fsFdbhead v.fs + 1)).trans
      (header_setFdb _ a (fsFdbhead v.fs + 1).toNat)
    have hf' : Formatted { v.log (.free a) with
        fs := setFdb (setFdbhead v.fs (fsFdbhead v.fs + 1)) (fsFdbhead v.fs + 1).toNat a } :=
      hf.of_header rfl hhd
    have he : (bfree v a).2 = updateSb { v.log (.free a) with
        fs := setFdb (setFdbhead v.fs (fsFdbhead v.fs + 1)) (fsFdbhead v.fs + 1).toNat a } := by
      simp [bfree, Vol.log, hlt]
    rw [he, updateSb_eq hf']
    refine ⟨hhd, rfl, rfl, rfl, ?_, ?_, ?_, ?_, ?_⟩
    · simp [Synced]
    · intro x h1 _
      exact Function.update_of_ne h1 _ _
    · simp [hs]
      omega
    · intro _
      exact Function.update_of_ne ha.ne_one _ _
    · omega
  · have h63 : (fsFdbhead v.fs).toNat = 63 := by
      have := mt (lt_63_iff _).mpr hlt
      omega
    have hhd := (header_setFdb v.fs a 0).trans (header_setFdbhead _ 0)
    have hf' : Formatted { diskWr (v.log (.free a)) a (fdbBytes v.fs) (64*4) with
        fs := setFdbhead (setFdb v.fs 0 a) 0 } := by
      refine hf.of_header ?_ hhd
      simp [Vol.log]
    have he : (bfree v a).2 = updateSb { diskWr (v.log (.free a)) a (fdbBytes v.fs) (64*4) with
        fs := setFdbhead (setFdb v.fs 0 a) 0 } := by
      simp [bfree, Vol.log, hlt]
    have hnum : a.toNat < v.num := ha.lt_num hf
    rw [he, updateSb_eq hf', diskWr_lt (v.log (.free a)) _ _ hnum]
    refine ⟨hhd, rfl, rfl, rfl, ?_, ?_, ?_, ?_, ?_⟩
    · simp [Synced]
    · intro x h1 hx
      exact (Function.update_of_ne h1 _ _).trans (Function.update_of_ne hx _ _)
    · simp [h63]
    · omega
    · intro _ i hi
      change word (Function.update (Function.update v.disk a _) 1 _ a) i = _
      rw [Function.update_of_ne ha.ne_one, Function.update_self, word_overlay_lt _ _ (by omega)]
      exact word_fdbBytes v.fs i hi

theorem bfree_fdb_push {v : Vol} {a : UInt32} (hlt : (fsFdbhead v.fs).toNat < 63) (i : Nat) :
    fsFdb (bfree v a).2.fs i =
      if i = (fsFdbhead v.fs).toNat + 1 then a else fsFdb v.fs i := by
  have hlt' := (lt_63_iff _).mpr hlt
  have he : (bfree v a).2.fs =
      setFdb (setFdbhead v.fs (fsFdbhead v.fs + 1)) (fsFdbhead v.fs + 1).toNat a := by
    simp [bfree, Vol.log, hlt']
  rw [he, toNat_succ hlt']
  split
  · next h => rw [h, fsFdb_setFdb_self _ _ _ (by omega)]
  · next h => rw [fsFdb_setFdb_ne _ _ _ _ h, fsFdb_setFdbhead]

theorem bfree_fdb_spill {v : Vol} {a : UInt32} (h63 : ¬(fsFdbhead v.fs).toNat < 63) :
    fsFdb (bfree v a).2.fs 0 = a := by
  have hnl := mt (lt_63_iff _).mp h63
  have he : (bfree v a).2.fs = setFdbhead (setFdb v.fs 0 a) 0 := by
    simp [bfree, Vol.log, hnl]
  rw [he, fsFdb_setFdbhead, fsFdb_setFdb_self _ _ _ (by omega)]

theorem bfree_freeList {v : Vol} {a : UInt32} {l : List UInt32} (hf : Formatted v)
    (hl : FreeList v.disk v.fs l) (ha : DataBlock a) (hn : a ∉ l) :
    FreeList (bfree v a).2.disk (bfree v a).2.fs (a :: l) := by
  have hp := bfree_pushed hf ha hl.head
  have hframe : ∀ b ∈ l, (bfree v a).2.disk b = v.disk b := fun b hb =>
    hp.frame b (hl.area b hb).ne_one (fun h => hn (h ▸ hb))
  refine ⟨?_, ?_, List.nodup_cons.mpr ⟨hn, hl.nodup⟩, ?_⟩
  · have hst := (hl.frame hframe).stack
    unfold FreeStack at hst ⊢
    rw [hp.head]
    by_cases hlt : (fsFdbhead v.fs).toNat < 63
    · rw [Nat.mod_eq_of_lt (by omega)]
      refine hst.push (fun i hi => ?_) ?_
      · rw [bfree_fdb_push hlt, if_neg (by omega)]
      · rw [bfree_fdb_push hlt, if_pos rfl]
    · have h63 : (fsFdbhead v.fs).toNat = 63 := by
        have := hl.head
        omega
      rw [h63] at hst ⊢
      refine hst.spill ha.ne_one (bfree_fdb_spill hlt) (fun i hi => ?_) fun _ _ _ _ => rfl
      exact hp.spilt h63 i (by omega)
  · rw [hp.head]
    omega
  · intro b hb
    rcases List.mem_cons.mp hb with rfl | hb
    · exact ha
    · exact hl.area b hb

end ArmKernel.Fs
