import ArmKernel.Fs.Growth

/-! The writer and the reader of block maps. They agree on the direct and the
single indirect range. In the deeper ranges a node's address is stored in a
copy of its parent that is written to the node itself, so the parent on disk
keeps whatever it held. -/
namespace ArmKernel.Fs

open Lib Lib.Bytes Lib.Run SuperBlock

/-- The calls for indices `0, …, n-1`, and the addresses they returned. -/
def allocateIndices : Nat → Vol → INode → List UInt32 × INode × Vol
  | 0, v, inode => ([], inode, v)
  | n+1, v, inode =>
    match allocateIndices n v inode with
    | (as, inode, v) =>
      match allocateDataBlockAddr v inode (UInt32.ofNat (n * 512)) with
      | (a, inode, v) => (as ++ [a], inode, v)

/-- After successful calls for indices `0, …, b` on a consistent free list the
reader returns what the writer returned, the blocks taken are distinct, and
only they, the superblock and the inode's block were written. -/
def WriterReaderAgree (b : Nat) : Prop :=
  ∀ (v : Vol) (l : List UInt32) (inode : INode), Formatted v → FreeList v.disk v.fs l →
    inode.iNumber.toNat < 512 → v.trace = [] →
    ∀ as inode' v', allocateIndices (b+1) v inode = (as, inode', v') → (∀ a ∈ as, a ≠ noAddr) →
      (∀ i ≤ b, getDataBlockAddr v' inode' (UInt32.ofNat (i * 512)) = as.getD i 0) ∧
      (allocs v'.trace).Nodup ∧ (∀ a ∈ as, a ∈ allocs v'.trace) ∧ as.Nodup ∧
      ∀ a d, .wr a d ∈ v'.trace → a = 1 ∨ a = inodeBlock inode.iNumber ∨ a ∈ allocs v'.trace

/-! Below the double indirect range. -/

theorem allocateIndices_grew {own : Owners} {v v' : Vol} {l as : List UInt32}
    {inode inode' : INode} {n : Nat} (hino : inode.iNumber.toNat < 512) (ha : Accounted own v l)
    (h139 : n ≤ 139) (he : allocateIndices n v inode = (as, inode', v')) :
    (l.length < blocksForRange 0 n ∧ noAddr ∈ as) ∨
    ∃ own' l', l.length = l'.length + blocksForRange 0 n ∧ noAddr ∉ as ∧
      as = (List.range n).map (mapAddr v'.disk inode'.iIc) ∧
      Grew own own' v v' l l' inode inode' 0 n := by
  induction n generalizing v' as inode' with
  | zero =>
    cases he
    exact .inr ⟨own, l, rfl, by simp, rfl, .refl ha (.nil ..)⟩
  | succ n ih =>
    unfold allocateIndices at he
    rcases hprev : allocateIndices n v inode with ⟨as₁, inode₁, v₁⟩
    rcases hcall : allocateDataBlockAddr v₁ inode₁ (UInt32.ofNat (n * 512)) with ⟨a, inode₂, v₂⟩
    simp only [hprev, hcall] at he
    cases he
    rw [blocksForRange_succ]
    rcases ih (by omega) hprev with ⟨hshort, hno⟩ | ⟨own₁, l₁, hlen₁, hok, has₁, hg₁⟩
    · exact .inl ⟨by omega, by simp [hno]⟩
    have hino₁ : inode₁.iNumber.toNat < 512 := hg₁.number ▸ hino
    rcases allocate_grew hino₁ hg₁.acct hg₁.maps (toNat_ofNat_mul (i := n) (by omega)) (by omega) with
      ⟨hshort, hno, -⟩ | ⟨a', own₂, l₂, inode₃, v₃, hcall', hne, haddr, hlen₂, -, hg₂⟩
    · rw [hcall] at hno
      exact .inl ⟨by omega, by simp [← show a = noAddr from hno]⟩
    · rw [hcall] at hcall'
      cases hcall'
      refine .inr ⟨own₂, l₂, by omega, ?_, ?_, hg₁.trans (by omega) hg₂⟩
      · simp [hok, hne.symm]
      · rw [List.range_succ, List.map_append, List.map_singleton, haddr, has₁]
        congr 1
        refine List.map_congr_left fun j hj => (hg₂.kept j ?_).symm
        exact List.mem_range.mp hj

theorem accounted_none {v : Vol} {l : List UInt32} (hf : Formatted v)
    (hl : FreeList v.disk v.fs l) : Accounted (fun _ => none) v l :=
  ⟨hf, hl, fun a o h => by simp at h⟩

theorem Grew.mem_allocs {own' : Owners} {v v' : Vol} {l l' : List UInt32} {inode inode' : INode}
    {n : Nat} (h : Grew (fun _ => none) own' v v' l l' inode inode' 0 n) {a : UInt32}
    (ha : own' a ≠ none) : a ∈ allocs v'.trace := by
  obtain ⟨ts, hl, ht⟩ := h.taken
  obtain ⟨hmem, r, hr⟩ := h.fresh a rfl ha
  have hnot := (h.acct.owned a _ hr).2
  rw [hl, List.mem_append] at hmem
  rw [ht]
  exact List.mem_append_left _ (List.mem_reverse.mpr (hmem.resolve_right hnot))

theorem writerReader_agree_single {b : Nat} (hb : b < 139) : WriterReaderAgree b := by
  intro v l inode hf hl hino htr as inode' v' he hok
  obtain ⟨own', l', -, -, has, hg⟩ :=
    (allocateIndices_grew hino (accounted_none hf hl) (by omega) he).resolve_left
      fun h => hok _ h.2 rfl
  have howned : ∀ i ≤ b, own' (mapAddr v'.disk inode'.iIc i) = some (inode'.iNumber, .data i) :=
    fun i hi => hg.maps.data i (by omega)
  have hnodup : as.Nodup := by
    rw [has]
    refine List.Nodup.map_on (fun i hi j hj hij => ?_) List.nodup_range
    have hi' := howned i (by have := List.mem_range.mp hi; omega)
    have hj' := howned j (by have := List.mem_range.mp hj; omega)
    rw [hij, hj'] at hi'
    simpa using hi'.symm
  refine ⟨fun i hi => ?_, ?_, fun a ha => ?_, hnodup, fun a d hd => ?_⟩
  · have hbyte := toNat_ofNat_mul (i := i) (by omega)
    rw [hg.maps.reads hg.acct (by omega), hbyte, has]
    simp [Nat.lt_succ_of_le hi]
  · obtain ⟨ts, hts, ht⟩ := hg.taken
    rw [ht, htr]
    have hnd := hl.nodup
    rw [hts] at hnd
    simpa [allocs] using hnd.of_append_left
  · rw [has] at ha
    obtain ⟨i, hi, rfl⟩ := List.mem_map.mp ha
    exact hg.mem_allocs (by rw [howned i (by have := List.mem_range.mp hi; omega)]; simp)
  · rcases hg.wrote a d hd with hw | h1 | hblk | hx
    · rw [htr] at hw
      simp at hw
    · exact .inl h1
    · exact .inr (.inl hblk)
    · exact .inr (.inr (hg.mem_allocs (by simp [hx])))

/-! A blank disk with every block of the data area free. -/

def freeRange (v : Vol) : Nat → Vol
  | 0 => v
  | n+1 => (bfree (freeRange v n) (UInt32.ofNat (66 + n))).2

def rangeStack : Nat → List UInt32
  | 0 => []
  | n+1 => UInt32.ofNat (66 + n) :: rangeStack n

theorem toNat_area {n : Nat} (h : n < 1982) : (UInt32.ofNat (66 + n)).toNat = 66 + n := by
  rw [UInt32.toNat_ofNat', Nat.mod_eq_of_lt (by omega)]

theorem mem_rangeStack {n : Nat} {a : UInt32} (hn : n ≤ 1982) :
    a ∈ rangeStack n ↔ 66 ≤ a.toNat ∧ a.toNat < 66 + n := by
  induction n with
  | zero => simp [rangeStack]
  | succ n ih =>
    rw [rangeStack, List.mem_cons, ih (by omega), ← UInt32.toNat_inj, toNat_area (by omega)]
    omega

theorem length_rangeStack (n : Nat) : (rangeStack n).length = n := by
  induction n with
  | zero => rfl
  | succ n ih => simp [rangeStack, ih]

theorem rangeStack_drop {n j : Nat} (h : j < n) :
    (rangeStack n).drop j = UInt32.ofNat (66 + (n - 1 - j)) :: (rangeStack n).drop (j+1) := by
  induction n generalizing j with
  | zero => omega
  | succ n ih =>
    cases j with
    | zero => simp [rangeStack]
    | succ j =>
      rw [rangeStack, List.drop_succ_cons, List.drop_succ_cons, ih (by omega),
        show n + 1 - 1 - (j + 1) = n - 1 - j by omega]

structure Blank (n : Nat) (v : Vol) : Prop where
  holds : Holds v (rangeStack n)
  head : (fsFdbhead v.fs).toNat = n % 64
  blank : ∀ x, x ≠ 1 → (∀ j < n, j % 64 = 63 → x.toNat ≠ 66 + j) → v.disk x = zeroBlock

theorem blank_freeRange {n : Nat} (hn : n ≤ 1982) : Blank n (freeRange fullVol n) := by
  induction n with
  | zero =>
    refine ⟨⟨fullVol_formatted, fullVol_free⟩, ?_, fun x hx _ => ?_⟩
    · rw [show fsFdbhead (freeRange fullVol 0).fs = 0 from word_fullSb (by omega)]
      rfl
    · simp [freeRange, fullVol, hx]
  | succ n ih =>
    obtain ⟨⟨hf, hl⟩, hh, hb⟩ := ih (by omega)
    have hnat := toNat_area (n := n) (by omega)
    have hda : DataBlock (UInt32.ofNat (66 + n)) := ⟨by omega, by omega⟩
    have hnew : UInt32.ofNat (66 + n) ∉ rangeStack n := by
      rw [mem_rangeStack (by omega), hnat]
      omega
    have hp := bfree_pushed hf hda hl.head
    refine ⟨⟨hp.formatted hf, bfree_freeList hf hl hda hnew⟩, ?_, fun x hx hxn => ?_⟩
    · rw [freeRange, hp.head, hh]
      omega
    · rw [freeRange]
      by_cases hxa : x = UInt32.ofNat (66 + n)
      · have hne : (fsFdbhead (freeRange fullVol n).fs).toNat ≠ 63 := by
          intro h63
          refine hxn n (by omega) (by omega) ?_
          rw [hxa, hnat]
        rw [hxa, hp.kept hne, ← hxa]
        exact hb x hx fun j hj h63 => hxn j (by omega) h63
      · rw [hp.frame x hx hxa]
        exact hb x hx fun j hj h63 => hxn j (by omega) h63

/-! The double indirect range over a blank root block. -/

/-- The root on disk is blank, so block 0 stands in for every node below it. -/
structure Misled (t : UInt32) (v : Vol) (l : List UInt32) (inode : INode) : Prop where
  holds : Holds v l
  number : inode.iNumber.toNat < 512
  root : inode.iIc.ib 1 = t
  area : DataBlock t
  used : t ∉ l
  blank : v.disk t = zeroBlock
  zero : word (v.disk 0) 0 = 0

theorem word_zeroBlock (i : Nat) : word zeroBlock i = 0 := by
  by_cases hi : i < 128
  · exact word_ofWords _ (by omega)
  · exact word_of_le _ (by omega)

theorem Holds.put {v : Vol} {l : List UInt32} (h : Holds v l) {a : UInt32} (x : Block)
    (ha : a ∉ l) : Holds (v.put a x) l :=
  ⟨h.formatted.of_header rfl fun _ _ => rfl,
    h.free.frame fun _ hb => put_disk_ne v x fun he => ha (he ▸ hb)⟩

theorem Holds.balloc {v : Vol} {a : UInt32} {l : List UInt32} (h : Holds v (a :: l)) :
    ∃ fs, balloc v = (a, afterAlloc v fs a) ∧ Holds (afterAlloc v fs a) l ∧ DataBlock a ∧ a ∉ l := by
  obtain ⟨fs, hh, he, hl⟩ := balloc_cons h.formatted h.free
  exact ⟨fs, he, ⟨afterAlloc_formatted a h.formatted hh, hl⟩, h.free.area a List.mem_cons_self,
    (List.nodup_cons.mp h.free.nodup).1⟩

theorem Holds.putAddr {v : Vol} {l : List UInt32} (h : Holds v l) {t : UInt32}
    (ht : t.toNat < 2048) (block : Block) (slot : Nat) (a : UInt32) :
    putAddr v t block slot a = v.put t (setWord (v.disk t) slot a) := by
  have hlt : t.toNat < v.num := by rw [h.formatted.num]; exact ht
  rw [Fs.putAddr, diskRd_lt _ _ hlt, diskWr_put _ _ hlt]

theorem zero_not_mem {v : Vol} {l : List UInt32} (h : Holds v l) : (0 : UInt32) ∉ l := fun hm => by
  have h66 : 66 ≤ UInt32.toNat 0 := (h.free.area 0 hm).1
  simp at h66

theorem DataBlock.ne_zero {a : UInt32} (h : DataBlock a) : a ≠ 0 := by
  rintro rfl
  have h66 : 66 ≤ UInt32.toNat 0 := h.1
  simp at h66

theorem Misled.put {t : UInt32} {v : Vol} {l : List UInt32} {inode : INode}
    (h : Misled t v l inode) {a : UInt32} (x : Block) (ha : a ∉ l) (hat : a ≠ t) (h0 : a ≠ 0) :
    Misled t (v.put a x) l inode where
  holds := h.holds.put x ha
  number := h.number
  root := h.root
  area := h.area
  used := h.used
  blank := by rw [put_disk_ne v x hat.symm, h.blank]
  zero := by rw [put_disk_ne v x h0.symm, h.zero]

theorem Misled.balloc {t : UInt32} {v : Vol} {a : UInt32} {l : List UInt32} {inode : INode}
    (h : Misled t v (a :: l) inode) : ∃ fs, balloc v = (a, afterAlloc v fs a) ∧
      Misled t (afterAlloc v fs a) l inode ∧ DataBlock a ∧ a ∉ l ∧ a ≠ t := by
  obtain ⟨fs, he, hh, hda, hn⟩ := h.holds.balloc
  have hat : a ≠ t := by
    rintro rfl
    exact h.used List.mem_cons_self
  refine ⟨fs, he, ⟨hh, h.number, h.root, h.area, fun hm => h.used (List.mem_cons_of_mem _ hm), ?_, ?_⟩,
    hda, hn, hat⟩
  · rw [afterAlloc_disk_ne v fs a h.area.ne_one, h.blank]
  · rw [afterAlloc_disk_ne v fs a (by decide), h.zero]

/-- A further index of the range: the address ends up in a block the reader
never looks at, or in block 0, away from its first word. -/
theorem storeDouble_misled (addr : UInt32) {t : UInt32} {v : Vol} {l : List UInt32} {inode : INode} {blk : Nat}
    (h : Misled t v l inode) (hblk : 0 < blk)
    (hlen : blk % 128 = 0 → l ≠ []) : ∃ v' l', storeDouble v inode blk addr = (addr, inode, v') ∧
      Misled t v' l' inode ∧ l.length = l'.length + if blk % 128 = 0 then 1 else 0 := by
  have hroot : rootAddr v inode 1 (decide (blk = 0)) = (t, inode, v) := by
    simp [rootAddr, Nat.pos_iff_ne_zero.mp hblk, h.root]
  have hrd : diskRd v t v.stkBlk = zeroBlock := by
    rw [diskRd_lt _ _ (h.area.lt_num h.holds.formatted), h.blank]
  have hne : ¬(blk = 0 ∧ t = noAddr) := by omega
  unfold storeDouble
  rw [hroot]
  dsimp only
  rw [if_neg hne, hrd]
  by_cases hm : blk % 128 = 0
  · obtain ⟨a, l', rfl⟩ := List.exists_cons_of_ne_nil (hlen hm)
    obtain ⟨fs, he, hmis, hda, hn, hat⟩ := h.balloc
    have hput : ∀ x, diskWr (afterAlloc v fs a) a x 512 = (afterAlloc v fs a).put a x := fun x =>
      diskWr_put _ _ (hda.lt_num hmis.holds.formatted)
    have hmis' := hmis.put (setWord zeroBlock (blk / 128) a) hn hat hda.ne_zero
    have hput' := hmis'.holds.putAddr hda.2 (setWord zeroBlock (blk / 128) a) (blk % 128) addr
    refine ⟨_, l', ?_, hput' ▸ hmis'.put _ hn hat hda.ne_zero, by simp [hm]⟩
    simp only [childAddr, hm, decide_true, if_true, he, hda.ne_noAddr, if_false, and_false, hput]
  · have hput := h.holds.putAddr (t := 0) (by decide) zeroBlock (blk % 128) addr
    refine ⟨putAddr v 0 zeroBlock (blk % 128) addr, l, ?_, ?_, by simp [hm]⟩
    · simp only [childAddr, hm, decide_false, Bool.false_eq_true, if_false, false_and,
        word_zeroBlock]
    · rw [hput]
      refine ⟨h.holds.put _ (zero_not_mem h.holds), h.number, h.root, h.area, h.used, ?_, ?_⟩
      · rw [put_disk_ne _ _ h.area.ne_zero, h.blank]
      · rw [put_disk_self, word_setWord_ne _ _ (by omega), h.zero]

/-- The first index of the range: the root is entered in the inode, and its
first word only in the copy that goes to the node below. -/
theorem storeDouble_first (addr : UInt32) {t a : UInt32} {v : Vol} {l : List UInt32} {inode : INode}
    (h : Holds v (t :: a :: l)) (hino : inode.iNumber.toNat < 512) (hblank : v.disk t = zeroBlock)
    (hzero : word (v.disk 0) 0 = 0) : ∃ v' inode', storeDouble v inode 0 addr = (addr, inode', v') ∧
      Misled t v' l inode' := by
  obtain ⟨fs, he, hh, hdt, hnt⟩ := h.balloc
  set inode' : INode := { inode with iIc := inode.iIc.setIb 1 t } with hinode'
  have hino' : inode'.iNumber.toNat < 512 := hino
  have hdisk : ∀ x, x ≠ 1 → x ≠ inodeBlock inode.iNumber →
      (writeInode (afterAlloc v fs t) inode').disk x = v.disk x := fun x h1 hb => by
    rw [writeInode_disk_ne hh.formatted hino' hb, afterAlloc_disk_ne _ _ _ h1]
  have h0b : (0 : UInt32) ≠ inodeBlock inode.iNumber := by
    intro he0
    have := congrArg UInt32.toNat he0
    rw [inodeBlock_toNat hino] at this
    simp at this
    omega
  have hw : Misled t (writeInode (afterAlloc v fs t) inode') (a :: l) inode' := by
    refine ⟨?_, hino', ICommon.ib_setIb_self _ _ (by omega), hdt, hnt, ?_, ?_⟩
    · rw [writeInode_eq hh.formatted hino']
      exact hh.put _ fun hm => (hh.free.area _ hm).ne_inodeBlock hino' rfl
    · rw [hdisk t hdt.ne_one (hdt.ne_inodeBlock hino), hblank]
    · rw [hdisk 0 (by decide) h0b, hzero]
  obtain ⟨fs', he', hmis, hda, hn, hat⟩ := hw.balloc
  have hrd : diskRd (writeInode (afterAlloc v fs t) inode') t
      (writeInode (afterAlloc v fs t) inode').stkBlk = zeroBlock := by
    rw [diskRd_lt _ _ (hdt.lt_num hw.holds.formatted), hw.blank]
  have hput : ∀ x, diskWr (afterAlloc (writeInode (afterAlloc v fs t) inode') fs' a) a x 512 =
      (afterAlloc (writeInode (afterAlloc v fs t) inode') fs' a).put a x := fun x =>
    diskWr_put _ _ (hda.lt_num hmis.holds.formatted)
  have hmis' := hmis.put (setWord zeroBlock 0 a) hn hat hda.ne_zero
  have hput' := hmis'.holds.putAddr hda.2 (setWord zeroBlock 0 a) 0 addr
  refine ⟨_, inode', ?_, hput' ▸ hmis'.put _ hn hat hda.ne_zero⟩
  simp only [storeDouble, rootAddr, decide_true, if_true, he, hdt.ne_noAddr, if_false, and_false,
    ← hinode', hrd, childAddr, Nat.zero_mod, Nat.zero_div, he', hda.ne_noAddr, hput]

theorem allocate_double {v : Vol} {a : UInt32} {inode : INode} {blk : Nat} {fs : SuperBlock}
    (he : balloc v = (a, afterAlloc v fs a)) (ha : DataBlock a) (hblk : blk < 16384) :
    allocateDataBlockAddr v inode (UInt32.ofNat ((blk + 139) * 512)) =
      storeDouble (afterAlloc v fs a) inode blk a := by
  unfold allocateDataBlockAddr
  rw [toNat_ofNat_mul (by omega), he]
  dsimp only
  rw [if_neg ha.ne_noAddr, if_neg (by omega), if_neg (by omega), if_pos (by omega),
    show blk + 139 - (128 + 11) = blk by omega]

theorem misled_next {t : UInt32} {v : Vol} {l : List UInt32} {inode : INode} {blk : Nat}
    (h : Misled t v l inode) (hblk : 0 < blk) (hmax : blk < 16384)
    (hlen : (if blk % 128 = 0 then 2 else 1) ≤ l.length) :
    ∃ a v' l', allocateDataBlockAddr v inode (UInt32.ofNat ((blk + 139) * 512)) = (a, inode, v') ∧
      a ≠ noAddr ∧ Misled t v' l' inode ∧
      l.length = l'.length + if blk % 128 = 0 then 2 else 1 := by
  cases l with
  | nil => split at hlen <;> simp at hlen
  | cons a l =>
    obtain ⟨fs, he, hmis, hda, -, -⟩ := h.balloc
    obtain ⟨v', l', hs, hmis', hl⟩ := storeDouble_misled a hmis hblk fun hm => by
      rw [if_pos hm] at hlen
      rintro rfl
      simp at hlen
    refine ⟨a, v', l', by rw [allocate_double he hda hmax, hs], hda.ne_noAddr, hmis', ?_⟩
    rw [List.length_cons, hl]
    split <;> omega

theorem Misled.reads {t : UInt32} {v : Vol} {l : List UInt32} {inode : INode}
    (h : Misled t v l inode) :
    getDataBlockAddr v inode (UInt32.ofNat (139 * 512)) = 0 := by
  unfold getDataBlockAddr
  rw [toNat_ofNat_mul (by omega)]
  have h0 : (0 : UInt32).toNat < v.num := by rw [h.holds.formatted.num]; decide
  simp only [doubleAddr, h.root, Nat.reduceAdd, Nat.reduceMul, Nat.reduceLT, if_false, if_true,
    Nat.sub_self, Nat.zero_div, Nat.zero_mod]
  rw [diskRd_lt _ _ (h.area.lt_num h.holds.formatted), h.blank, word_zeroBlock, diskRd_lt _ _ h0,
    h.zero]

/-! All of it together, on the blank disk. -/

/-- Blocks `66, …, 66+n-1` are free and nothing has happened yet. -/
def blankVol (n : Nat) : Vol := { freeRange fullVol n with trace := [] }

def blankInode : INode := ⟨1, 0, getIc zeroBlock 0⟩

theorem blankVol_blank {n : Nat} (hn : n ≤ 1982) : Blank n (blankVol n) := by
  obtain ⟨⟨hf, hl⟩, hh, hb⟩ := blank_freeRange hn
  exact ⟨⟨hf.of_header rfl fun _ _ => rfl, hl⟩, hh, hb⟩

theorem blank_misled {n : Nat} (hn : n = 1982) : ∃ as inode v,
    allocateIndices 140 (blankVol n) blankInode = (as, inode, v) ∧
    noAddr ∉ as ∧ as.length = 140 ∧ as.getD 139 0 ≠ 0 ∧
    Misled (UInt32.ofNat 1906) v ((rangeStack n).drop 143) inode := by
  obtain ⟨⟨hf, hl⟩, -, hblank⟩ := blankVol_blank (Nat.le_of_eq hn)
  rcases hcalls : allocateIndices 139 (blankVol n) blankInode with ⟨as, inode₁, v₁⟩
  have hacct := accounted_none hf hl
  have hneed : blocksForRange 0 139 = 140 := blocksForRange_zero 139
  rcases allocateIndices_grew (by decide) hacct (by omega) hcalls with
    ⟨hshort, -⟩ | ⟨own₁, l₁, hlen, hok, has, hg⟩
  · rw [length_rangeStack, hneed] at hshort
    omega
  have hl₁ : l₁ = (rangeStack n).drop 140 := by
    obtain ⟨ts, hts, -⟩ := hg.taken
    have : ts.length = 140 := by
      have := congrArg List.length hts
      simp only [List.length_append] at this
      omega
    rw [hts, ← this, List.drop_left]
  have hholds : Holds v₁ l₁ := ⟨hg.acct.formatted, hg.acct.free⟩
  rw [rangeStack_drop (by omega), rangeStack_drop (by omega), rangeStack_drop (by omega),
    show 66 + (n - 1 - 140) = 1907 by omega, show 66 + (n - 1 - (140 + 1)) = 1906 by omega] at hl₁
  rw [hl₁] at hholds
  obtain ⟨fs, he, hh, hda, -⟩ := hholds.balloc
  -- blocks nobody owns are as they were on the blank disk
  have hstill : ∀ x : UInt32, x ≠ 1 → x ≠ inodeBlock 1 → own₁ x = none →
      (∀ j < n, j % 64 = 63 → x.toNat ≠ 66 + j) →
      (afterAlloc v₁ fs (UInt32.ofNat 1907)).disk x = zeroBlock := fun x h1 hb hn hj => by
    rw [afterAlloc_disk_ne _ _ _ h1, hg.frame x h1 hb (by simp [hn])]
    exact hblank x h1 hj
  have hino₁ : inode₁.iNumber.toNat < 512 := by rw [hg.number]; decide
  have hfree : own₁ (UInt32.ofNat 1906) = none := by
    cases ho : own₁ (UInt32.ofNat 1906) with
    | none => rfl
    | some o => exact absurd (by simp [hl₁]) (hg.acct.owned _ _ ho).2
  have hzero : own₁ 0 = none := by
    cases ho : own₁ 0 with
    | none => rfl
    | some o => exact absurd rfl (hg.acct.owned _ _ ho).1.ne_zero
  obtain ⟨v₂, inode₂, hs, hmis⟩ := storeDouble_first (UInt32.ofNat 1907) hh hino₁
    (hstill _ (by decide) (by decide) hfree (by simp; omega))
    (by rw [hstill 0 (by decide) (by decide) hzero (by simp; omega), word_zeroBlock])
  have hlen139 : as.length = 139 := by rw [has]; simp
  refine ⟨as ++ [UInt32.ofNat 1907], inode₂, v₂, ?_, ?_, by simp [hlen139], ?_, hmis⟩
  · unfold allocateIndices
    rw [hcalls]
    dsimp only
    rw [show (139 : Nat) * 512 = (0 + 139) * 512 by omega, allocate_double he hda (by omega), hs]
  · simp only [List.mem_append, List.mem_singleton, not_or]
    exact ⟨hok, by decide⟩
  · rw [List.getD_eq_getElem?_getD, List.getElem?_append_right (by omega), hlen139]
    decide

theorem blank_misled_from {n : Nat} (hn : n = 1982) (m : Nat) (hm : m ≤ 1825) :
    ∃ as inode v l, allocateIndices (140 + m) (blankVol n) blankInode = (as, inode, v) ∧
      noAddr ∉ as ∧ as.length = 140 + m ∧ as.getD 139 0 ≠ 0 ∧
      Misled (UInt32.ofNat 1906) v l inode ∧ l.length + m + m / 128 = 1839 := by
  induction m with
  | zero =>
    obtain ⟨as, inode, v, he, hok, hlen, h139, hmis⟩ := blank_misled hn
    exact ⟨as, inode, v, _, he, hok, hlen, h139, hmis, by simp [length_rangeStack, hn]⟩
  | succ m ih =>
    obtain ⟨as, inode, v, l, he, hok, hlen, h139, hmis, hleft⟩ := ih (by omega)
    obtain ⟨a, v', l', he', hne, hmis', hlen'⟩ := misled_next hmis (show 0 < m + 1 by omega)
      (by omega) (by split <;> omega)
    refine ⟨as ++ [a], inode, v', l', ?_, ?_, by simp [hlen]; omega, ?_, hmis', ?_⟩
    · rw [show 140 + (m + 1) = (140 + m) + 1 by omega, allocateIndices, he]
      dsimp only
      rw [show 140 + m = m + 1 + 139 by omega, he']
    · simp [hok, hne.symm]
    · rwa [List.getD_eq_getElem?_getD, List.getElem?_append_left (by omega),
        ← List.getD_eq_getElem?_getD]
    · split at hlen' <;> omega

theorem writerReader_disagree {b : Nat} (hb : 139 ≤ b) (hmax : b ≤ 1964) : ¬WriterReaderAgree b := by
  intro h
  obtain ⟨n, hn⟩ : ∃ n, n = 1982 := ⟨_, rfl⟩
  obtain ⟨as, inode, v, l, he, hok, -, h139, hmis, -⟩ := blank_misled_from hn (b - 139) (by omega)
  rw [show 140 + (b - 139) = b + 1 by omega] at he
  have hblank := blankVol_blank (Nat.le_of_eq hn)
  have hagree := h (blankVol n) _ blankInode hblank.holds.formatted hblank.holds.free
    (by decide) rfl as inode v he (fun a ha hn => hok (hn ▸ ha))
  have := hagree.1 139 hb
  rw [hmis.reads] at this
  exact h139 this.symm

/-- **The writer and the reader agree exactly below the double indirect
range.** A disk of 1982 data blocks can hold indices up to 1964, and on those
agreement for every inode, free list and stale bytes means staying below index
`NDADDR + 128`. -/
theorem writerReader_agree_iff (b : Nat) (hb : b ≤ 1964) : WriterReaderAgree b ↔ b < 139 := by
  constructor
  · intro h
    by_contra hge
    exact writerReader_disagree (by omega) hb h
  · exact writerReader_agree_single

/-- The last block behind the first index block. -/
theorem writerReader_agree_iff_last : 138 ≤ 1964 ∧ (WriterReaderAgree 138 ↔ 138 < 139) :=
  ⟨by decide, writerReader_agree_iff 138 (by decide)⟩

theorem writerReader_disagree_first : ¬WriterReaderAgree 139 :=
  writerReader_disagree (by decide) (by decide)

end ArmKernel.Fs
