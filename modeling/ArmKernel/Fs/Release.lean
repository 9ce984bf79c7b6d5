import ArmKernel.Fs.WriterReader
import Mathlib.Order.Interval.Finset.Nat

/-! Deleting a file. `freeDataBlocks` releases each index block right after the
first data block below it and goes on reading through it. That works unless
the release found the superblock's list full, because then the list was
written over the index block. -/
namespace ArmKernel.Fs

open Lib Lib.Bytes Lib.Unrolled SuperBlock

/-! The blocks of a file. A disk of 1982 data blocks ends before the triple
indirect range, so that range has no places here. -/

inductive Place where
  | data (i : Nat) | single | double | node (m : Nat)
deriving DecidableEq

def placeAddr (d : Image) (ic : ICommon) : Place → UInt32
  | .data i =>
    if i < 11 then ic.db i
    else if i < 139 then word (d (ic.ib 0)) (i - 11)
    else word (d (word (d (ic.ib 1)) ((i - 139) / 128))) ((i - 139) % 128)
  | .single => ic.ib 0
  | .double => ic.ib 1
  | .node m => word (d (ic.ib 1)) m

def Place.In (n : Nat) : Place → Prop
  | .data i => i < n
  | .single => 11 < n
  | .double => 139 < n
  | .node m => 139 + 128 * m < n

structure WellMapped (d : Image) (ic : ICommon) (n : Nat) (l : List UInt32) : Prop where
  area : ∀ p, Place.In n p → DataBlock (placeAddr d ic p)
  used : ∀ p, Place.In n p → placeAddr d ic p ∉ l
  inj : ∀ p q, Place.In n p → Place.In n q → placeAddr d ic p = placeAddr d ic q → p = q

theorem WellMapped.le {d : Image} {ic : ICommon} {n : Nat} {l : List UInt32}
    (h : WellMapped d ic n l) : n ≤ 1982 := by
  have hmaps : ∀ i ∈ Finset.range n,
      (placeAddr d ic (.data i)).toNat ∈ Finset.Ico 66 2048 := fun i hi =>
    Finset.mem_Ico.mpr (h.area (.data i) (Finset.mem_range.mp hi))
  have hinj : Set.InjOn (fun i => (placeAddr d ic (.data i)).toNat) (Finset.range n) := by
    intro i hi j hj he
    have := h.inj (.data i) (.data j) (Finset.mem_range.mp hi) (Finset.mem_range.mp hj)
      (UInt32.toNat_inj.mp he)
    simpa using this
  simpa using Finset.card_le_card_of_injOn _ hmaps hinj

/-! The order of release. -/

def roundPlaces (blk : Nat) : List Place :=
  if blk < 11 then [.data blk]
  else if blk < 139 then if blk = 11 then [.single, .data blk] else [.data blk]
  else if blk = 139 then [.double, .node 0, .data blk]
  else if (blk - 139) % 128 = 0 then [.node ((blk - 139) / 128), .data blk]
  else [.data blk]

def releasedBefore : Nat → List Place
  | 0 => []
  | blk+1 => roundPlaces blk ++ releasedBefore blk

theorem length_releasedBefore (blk : Nat) : (releasedBefore blk).length =
    blk + (if 11 < blk then 1 else 0) + if 139 < blk then 1 + (blk - 139 + 127) / 128 else 0 := by
  induction blk with
  | zero => rfl
  | succ blk ih =>
    rw [releasedBefore, List.length_append, ih]
    unfold roundPlaces
    split
    · rw [List.length_singleton, if_neg (by omega), if_neg (by omega), if_neg (by omega),
        if_neg (by omega)]
      omega
    · split
      · split
        · simp only [List.length_cons, List.length_nil]
          rw [if_neg (by omega), if_neg (by omega), if_pos (by omega), if_neg (by omega)]
          omega
        · rw [List.length_singleton, if_pos (by omega), if_neg (by omega), if_pos (by omega),
            if_neg (by omega)]
          omega
      · rw [if_pos (show 11 < blk by omega), if_pos (show 11 < blk + 1 by omega),
          if_pos (show 139 < blk + 1 by omega)]
        split
        · simp only [List.length_cons, List.length_nil]
          rw [if_neg (by omega)]
          omega
        · rw [if_pos (show 139 < blk by omega)]
          split
          · simp only [List.length_cons, List.length_nil]
            omega
          · simp only [List.length_cons, List.length_nil]
            omega

theorem mem_roundPlaces {blk : Nat} {p : Place} (h : p ∈ roundPlaces blk) : p = .data blk ∨
    (p = .single ∧ blk = 11) ∨ (p = .double ∧ blk = 139) ∨ ∃ m, p = .node m ∧ blk = 139 + 128*m := by
  unfold roundPlaces at h
  split at h
  · simp at h
    exact .inl h
  · split at h
    · split at h
      · next h11 =>
        simp at h
        rcases h with h | h
        · exact .inr (.inl ⟨h, h11⟩)
        · exact .inl h
      · simp at h
        exact .inl h
    · split at h
      · next h139 =>
        simp at h
        rcases h with h | h | h
        · exact .inr (.inr (.inl ⟨h, h139⟩))
        · exact .inr (.inr (.inr ⟨0, h, by omega⟩))
        · exact .inl h
      · split at h
        · next hm =>
          simp at h
          rcases h with h | h
          · exact .inr (.inr (.inr ⟨_, h, by omega⟩))
          · exact .inl h
        · simp at h
          exact .inl h

theorem mem_releasedBefore {blk : Nat} {p : Place} (h : p ∈ releasedBefore blk) :
    Place.In blk p := by
  induction blk with
  | zero => simp [releasedBefore] at h
  | succ blk ih =>
    rw [releasedBefore, List.mem_append] at h
    rcases h with h | h
    · rcases mem_roundPlaces h with rfl | ⟨rfl, hb⟩ | ⟨rfl, hb⟩ | ⟨m, rfl, hb⟩ <;>
        simp only [Place.In] <;> omega
    · have := ih h
      cases p <;> simp only [Place.In] at this ⊢ <;> omega

theorem Place.In.mono {m n : Nat} {p : Place} (h : Place.In m p) (hmn : m ≤ n) : Place.In n p := by
  cases p <;> simp only [Place.In] at h ⊢ <;> omega

/-! The state between two releases. -/

def frees : List Event → List UInt32
  | [] => []
  | .free a :: es => a :: frees es
  | _ :: es => frees es

section

variable (d₀ : Image) (ic : ICommon) (h₀ : Nat) (l₀ : List UInt32) (n : Nat)

/-- `done` has been released, last first, from a volume with disk `d₀`, list
`l₀` and head `h₀`. An index block still holds its words if the head was below
63 when it was released. -/
structure Released (done : List Place) (v : Vol) : Prop where
  formatted : Formatted v
  free : FreeList v.disk v.fs (done.map (placeAddr d₀ ic) ++ l₀)
  head : (fsFdbhead v.fs).toNat = (h₀ + done.length) % 64
  trace : frees v.trace = done.map (placeAddr d₀ ic)
  places : ∀ p ∈ done, Place.In n p
  synced : done ≠ [] → Synced v
  frame : ∀ x, x ≠ 1 → (∀ p ∈ done, placeAddr d₀ ic p ≠ x) → v.disk x = d₀ x
  kept : ∀ post p pre, done = post ++ p :: pre → (h₀ + pre.length) % 64 ≠ 63 →
    v.disk (placeAddr d₀ ic p) = d₀ (placeAddr d₀ ic p)

end

theorem frees_diskWr (v : Vol) (a : UInt32) (x : Block) (n : Nat) :
    frees (diskWr v a x n).trace = frees v.trace := by
  unfold diskWr
  split
  · rfl
  · unfold Vol.refuse
    dsimp only
    split <;> rfl

theorem frees_bfree (v : Vol) (a : UInt32) : frees (bfree v a).2.trace = a :: frees v.trace := by
  unfold bfree
  dsimp only
  split
  · exact frees_diskWr ..
  · exact (frees_diskWr ..).trans (frees_diskWr ..)

variable {d₀ : Image} {ic : ICommon} {h₀ : Nat} {l₀ : List UInt32} {n : Nat}

theorem Released.push {done : List Place} {v : Vol} (hw : WellMapped d₀ ic n l₀)
    (h : Released d₀ ic h₀ l₀ n done v) {p : Place} (hp : Place.In n p) (hnew : p ∉ done) :
    Released d₀ ic h₀ l₀ n (p :: done) (bfree v (placeAddr d₀ ic p)).2 := by
  have ha := hw.area p hp
  have hne : ∀ q ∈ done, placeAddr d₀ ic q ≠ placeAddr d₀ ic p := fun q hq he =>
    hnew (hw.inj q p (h.places q hq) hp he ▸ hq)
  have hnot : placeAddr d₀ ic p ∉ done.map (placeAddr d₀ ic) ++ l₀ := by
    rw [List.mem_append, List.mem_map]
    rintro (⟨q, hq, he⟩ | hl)
    · exact hne q hq he
    · exact hw.used p hp hl
  have hpush := bfree_pushed h.formatted ha h.free.head
  refine ⟨hpush.formatted h.formatted, bfree_freeList h.formatted h.free ha hnot, ?_, ?_, ?_,
    fun _ => hpush.synced, fun x hx hxp => ?_, fun post q pre hsplit hhead => ?_⟩
  · rw [hpush.head, h.head, List.length_cons]
    omega
  · rw [frees_bfree, h.trace, List.map_cons]
  · intro q hq
    rcases List.mem_cons.mp hq with rfl | hq
    · exact hp
    · exact h.places q hq
  · rw [hpush.frame x hx (hxp p List.mem_cons_self).symm]
    exact h.frame x hx fun q hq => hxp q (List.mem_cons_of_mem _ hq)
  · cases post with
    | nil =>
      obtain ⟨rfl, rfl⟩ := List.cons.inj hsplit
      rw [hpush.kept (by rw [h.head]; exact hhead)]
      exact h.frame _ ha.ne_one hne
    | cons r post =>
      obtain ⟨rfl, rfl⟩ := List.cons.inj hsplit
      have hq : q ∈ post ++ q :: pre := by simp
      rw [hpush.frame _ (hw.area q (h.places q hq)).ne_one (hne q hq)]
      exact h.kept post q pre rfl hhead

theorem Released.intact {done : List Place} {v : Vol} (hw : WellMapped d₀ ic n l₀)
    (h : Released d₀ ic h₀ l₀ n done v) {p : Place} (hp : Place.In n p)
    (hk : p ∉ done ∨ ∃ post pre, done = post ++ p :: pre ∧ (h₀ + pre.length) % 64 ≠ 63) :
    v.disk (placeAddr d₀ ic p) = d₀ (placeAddr d₀ ic p) := by
  rcases hk with hn | ⟨post, pre, hsplit, hh⟩
  · exact h.frame _ (hw.area p hp).ne_one fun q hq he =>
      hn (hw.inj q p (h.places q hq) hp he ▸ hq)
  · exact h.kept post p pre hsplit hh

/-! Reading through the index blocks. -/

theorem releaseAddr_direct {v : Vol} {inode : INode} {blk : Nat} (h : blk < 11) :
    getDataBlockAddr v inode (UInt32.ofNat (blk * 512)) = inode.iIc.db blk := by
  unfold getDataBlockAddr
  rw [toNat_ofNat_mul (by omega)]
  exact if_pos h

theorem releaseAddr_single {v : Vol} {inode : INode} {blk : Nat} (hf : Formatted v)
    (ha : DataBlock (inode.iIc.ib 0)) (h11 : 11 ≤ blk) (h : blk < 139) :
    getDataBlockAddr v inode (UInt32.ofNat (blk * 512)) =
      word (v.disk (inode.iIc.ib 0)) (blk - 11) := by
  unfold getDataBlockAddr
  rw [toNat_ofNat_mul (by omega)]
  dsimp only
  rw [if_neg (by omega), if_pos (by omega), singleAddr, diskRd_lt _ _ (ha.lt_num hf)]

theorem releaseAddr_double {v : Vol} {inode : INode} {blk : Nat} (hf : Formatted v)
    (ha : DataBlock (inode.iIc.ib 1)) (h139 : 139 ≤ blk) (h : blk < 16523)
    (hn : (word (v.disk (inode.iIc.ib 1)) ((blk - 139) / 128)).toNat < 2048) :
    getDataBlockAddr v inode (UInt32.ofNat (blk * 512)) =
      word (v.disk (word (v.disk (inode.iIc.ib 1)) ((blk - 139) / 128))) ((blk - 139) % 128) := by
  unfold getDataBlockAddr
  rw [toNat_ofNat_mul (by omega)]
  dsimp only
  rw [if_neg (by omega), if_neg (by omega), if_pos (by omega), doubleAddr,
    diskRd_lt _ _ (ha.lt_num hf), show blk - (128 + 11) = blk - 139 by omega,
    diskRd_lt v _ (by rw [hf.num]; exact hn)]

/-! Where the index blocks stand in the order of release. -/

theorem releasedBefore_suffix {b blk : Nat} (h : b ≤ blk) :
    ∃ post, releasedBefore blk = post ++ releasedBefore b := by
  induction blk with
  | zero => exact ⟨[], by rw [show b = 0 by omega]; rfl⟩
  | succ blk ih =>
    rcases Nat.lt_or_ge blk b with hlt | hle
    · exact ⟨[], by rw [show b = blk + 1 by omega]; rfl⟩
    · obtain ⟨post, hp⟩ := ih hle
      exact ⟨roundPlaces blk ++ post, by rw [releasedBefore, hp, List.append_assoc]⟩

theorem single_split {blk : Nat} (h : 11 < blk) :
    ∃ post pre, releasedBefore blk = post ++ .single :: pre ∧ pre.length = 12 := by
  obtain ⟨post, hp⟩ := releasedBefore_suffix (b := 11 + 1) h
  refine ⟨post, .data 11 :: releasedBefore 11, hp, ?_⟩
  rw [List.length_cons, length_releasedBefore]
  rfl

theorem releasedBefore_140 :
    releasedBefore (139 + 1) = .double :: .node 0 :: .data 139 :: releasedBefore 139 := rfl

theorem double_split {blk : Nat} (h : 139 < blk) :
    ∃ post pre, releasedBefore blk = post ++ .double :: pre ∧ pre.length = 142 := by
  obtain ⟨post, hp⟩ := releasedBefore_suffix (b := 139 + 1) h
  refine ⟨post, .node 0 :: .data 139 :: releasedBefore 139, by rw [hp, releasedBefore_140], ?_⟩
  rw [List.length_cons, List.length_cons, length_releasedBefore]
  rfl

theorem releasedBefore_node {m : Nat} (hm : 0 < m) : releasedBefore (139 + 128*m + 1) =
    .node m :: .data (139 + 128*m) :: releasedBefore (139 + 128*m) := by
  rw [releasedBefore, roundPlaces, if_neg (by omega), if_neg (by omega), if_neg (by omega),
    if_pos (by omega), show (139 + 128*m - 139) / 128 = m by omega]
  rfl

theorem length_releasedBefore_node {m : Nat} (hm : 0 < m) :
    (releasedBefore (139 + 128*m)).length = 141 + 129*m := by
  rw [length_releasedBefore, if_pos (by omega), if_pos (by omega)]
  omega

theorem node_split {blk m : Nat} (h : 139 + 128*m < blk) :
    ∃ post pre, releasedBefore blk = post ++ .node m :: pre ∧
      pre.length = if m = 0 then 141 else 142 + 129*m := by
  obtain ⟨post, hp⟩ := releasedBefore_suffix (b := 139 + 128*m + 1) h
  by_cases hm : m = 0
  · subst hm
    refine ⟨post ++ [.double], .data 139 :: releasedBefore 139, ?_, ?_⟩
    · rw [hp, show 139 + 128*0 + 1 = 139 + 1 by omega, releasedBefore_140]
      simp
    · rw [List.length_cons, length_releasedBefore]
      rfl
  · refine ⟨post, .data (139 + 128*m) :: releasedBefore (139 + 128*m), ?_, ?_⟩
    · rw [hp, releasedBefore_node (by omega)]
    · rw [List.length_cons, length_releasedBefore_node (by omega), if_neg hm]
      omega

/-! One round. -/

/-- A file of `n` blocks is read through an index block that the list, with
head `h` at the start, was written over. -/
def ReadsOverwritten (h n : Nat) : Prop :=
  (h = 51 ∧ 13 ≤ n) ∨ (h = 50 ∧ 141 ≤ n) ∨ (h ≤ 49 ∧ 141 + 128 * (49 - h) ≤ n)

instance (h n : Nat) : Decidable (ReadsOverwritten h n) := inferInstanceAs (Decidable (_ ∨ _))

section

variable {v : Vol} {inode : INode} {blk : Nat}

theorem Released.single_intact (hw : WellMapped d₀ ic n l₀)
    (h : Released d₀ ic h₀ l₀ n (releasedBefore blk) v) (h11 : 11 ≤ blk) (hblk : blk < n)
    (hok : 11 < blk → h₀ ≠ 51) (h63 : h₀ ≤ 63) : v.disk (ic.ib 0) = d₀ (ic.ib 0) := by
  refine h.intact hw (p := .single) (by simp only [Place.In]; omega) ?_
  by_cases hb : blk = 11
  · left
    intro hm
    have := mem_releasedBefore hm
    simp only [Place.In] at this
    omega
  · obtain ⟨post, pre, hs, hl⟩ := single_split (show 11 < blk by omega)
    have := hok (by omega)
    exact .inr ⟨post, pre, hs, by omega⟩

theorem Released.double_intact (hw : WellMapped d₀ ic n l₀)
    (h : Released d₀ ic h₀ l₀ n (releasedBefore blk) v) (h139 : 139 ≤ blk) (hblk : blk < n)
    (hok : 139 < blk → h₀ ≠ 49) (h63 : h₀ ≤ 63) : v.disk (ic.ib 1) = d₀ (ic.ib 1) := by
  refine h.intact hw (p := .double) (by simp only [Place.In]; omega) ?_
  by_cases hb : blk = 139
  · left
    intro hm
    have := mem_releasedBefore hm
    simp only [Place.In] at this
    omega
  · obtain ⟨post, pre, hs, hl⟩ := double_split (show 139 < blk by omega)
    have := hok (by omega)
    exact .inr ⟨post, pre, hs, by omega⟩

theorem Released.node_intact {m : Nat} (hw : WellMapped d₀ ic n l₀)
    (h : Released d₀ ic h₀ l₀ n (releasedBefore blk) v) (hm : 139 + 128*m ≤ blk) (hblk : blk < n)
    (hok : 139 + 128*m < blk → if m = 0 then h₀ ≠ 50 else h₀ + m ≠ 49) (h63 : h₀ ≤ 63) :
    v.disk (placeAddr d₀ ic (.node m)) = d₀ (placeAddr d₀ ic (.node m)) := by
  have hle := hw.le
  refine h.intact hw (p := .node m) (by simp only [Place.In]; omega) ?_
  by_cases hb : blk = 139 + 128*m
  · left
    intro hmem
    have := mem_releasedBefore hmem
    simp only [Place.In] at this
    omega
  · obtain ⟨post, pre, hs, hl⟩ := node_split (show 139 + 128*m < blk by omega)
    have hne := hok (by omega)
    refine .inr ⟨post, pre, hs, ?_⟩
    split at hl
    · next h0 =>
      rw [if_pos h0] at hne
      omega
    · next h0 =>
      rw [if_neg h0] at hne
      omega

theorem Released.addr (hw : WellMapped d₀ ic n l₀)
    (h : Released d₀ ic h₀ l₀ n (releasedBefore blk) v) (hic : inode.iIc = ic) (hblk : blk < n)
    (hok : ¬ReadsOverwritten h₀ (blk + 1)) (h63 : h₀ ≤ 63) :
    getDataBlockAddr v inode (UInt32.ofNat (blk * 512)) = placeAddr d₀ ic (.data blk) := by
  subst hic
  have hle := hw.le
  unfold ReadsOverwritten at hok
  by_cases h11 : blk < 11
  · rw [releaseAddr_direct h11]
    exact (if_pos h11).symm
  by_cases h139 : blk < 139
  · have hsingle := hw.area .single (by simp only [Place.In]; omega)
    have hi := h.single_intact hw (by omega) hblk (by omega) h63
    rw [releaseAddr_single h.formatted hsingle (by omega) h139, hi]
    simp [placeAddr, h11, h139]
  · have hdouble := hw.area .double (by simp only [Place.In]; omega)
    have hi := h.double_intact hw (by omega) hblk (by omega) h63
    have hnode := hw.area (.node ((blk - 139) / 128)) (by simp only [Place.In]; omega)
    have hin := h.node_intact (m := (blk - 139) / 128) hw (by omega) hblk
      (by intro hlt; split <;> omega) h63
    rw [releaseAddr_double h.formatted hdouble (by omega) (by omega)
      (by rw [hi]; exact hnode.2), hi]
    simp only [placeAddr] at hin
    rw [hin]
    simp [placeAddr, h11, h139]

theorem not_mem_releasedBefore {p : Place} (h : ¬Place.In blk p) : p ∉ releasedBefore blk :=
  fun hm => h (mem_releasedBefore hm)

theorem Released.freeDouble (hw : WellMapped d₀ ic n l₀)
    (h : Released d₀ ic h₀ l₀ n (.data blk :: releasedBefore blk) v) (hic : inode.iIc = ic)
    (h139 : 139 ≤ blk) (hblk : blk < n) (hdouble : v.disk (ic.ib 1) = d₀ (ic.ib 1)) :
    Released d₀ ic h₀ l₀ n (releasedBefore (blk + 1)) (freeDouble v inode (blk - 139)) := by
  subst hic
  have hda : DataBlock (inode.iIc.ib 1) := hw.area .double (by simp only [Place.In]; omega)
  have hrd : diskRd v (inode.iIc.ib 1) v.stkBlk = d₀ (inode.iIc.ib 1) := by
    rw [diskRd_lt _ _ (hda.lt_num h.formatted), hdouble]
  unfold Fs.freeDouble
  rw [hrd]
  dsimp only
  by_cases hm : (blk - 139) % 128 = 0
  · rw [if_pos hm]
    have hin : Place.In n (.node ((blk - 139) / 128)) := by
      simp only [Place.In]
      omega
    have hnode := h.push hw hin (by
      rw [List.mem_cons, not_or]
      exact ⟨by simp, not_mem_releasedBefore (by simp only [Place.In]; omega)⟩)
    by_cases h0 : blk = 139
    · have hdbl := hnode.push hw (p := .double) (by simp only [Place.In]; omega) (by
        rw [List.mem_cons, List.mem_cons, not_or, not_or]
        exact ⟨by simp, by simp, not_mem_releasedBefore (by simp only [Place.In]; omega)⟩)
      rw [if_pos (by omega)]
      subst h0
      exact hdbl
    · rw [if_neg (by omega), releasedBefore, roundPlaces, if_neg (by omega), if_neg (by omega),
        if_neg h0, if_pos hm]
      exact hnode
  · rw [if_neg hm, if_neg (by omega), releasedBefore, roundPlaces, if_neg (by omega),
      if_neg (by omega), if_neg (by omega), if_neg hm]
    exact h

theorem Released.round (hw : WellMapped d₀ ic n l₀)
    (h : Released d₀ ic h₀ l₀ n (releasedBefore blk) v) (hic : inode.iIc = ic) (hblk : blk < n)
    (hok : ¬ReadsOverwritten h₀ (blk + 1)) (h63 : h₀ ≤ 63) :
    Released d₀ ic h₀ l₀ n (releasedBefore (blk + 1)) (freeDataBlock v inode blk) := by
  have hle := hw.le
  have haddr := h.addr hw hic hblk hok h63
  have hdata := h.push hw (p := .data blk) hblk
    (not_mem_releasedBefore (by simp only [Place.In]; omega))
  unfold freeDataBlock
  dsimp only
  rw [haddr]
  by_cases h11 : blk < 11
  · rw [if_pos h11, releasedBefore, roundPlaces, if_pos h11]
    exact hdata
  by_cases h139 : blk < 139
  · rw [if_neg h11, if_pos (by omega), releasedBefore, roundPlaces, if_neg h11, if_pos h139]
    by_cases hb : blk = 11
    · rw [if_pos hb, if_pos (show blk - 11 = 0 by omega), hic]
      exact hdata.push hw (p := .single) (by simp only [Place.In]; omega) (by
        rw [List.mem_cons, not_or]
        exact ⟨by simp, not_mem_releasedBefore (by simp only [Place.In]; omega)⟩)
    · rw [if_neg hb, if_neg (show ¬blk - 11 = 0 by omega)]
      exact hdata
  · rw [if_neg h11, if_neg (by omega), if_pos (by omega), show blk - (128 + 11) = blk - 139 by omega]
    unfold ReadsOverwritten at hok
    have hdouble := h.double_intact hw (by omega) hblk (by omega) h63
    have hne : ic.ib 1 ≠ placeAddr d₀ ic (.data blk) := fun he => by
      have := hw.inj .double (.data blk) (by simp only [Place.In]; omega) hblk he
      simp at this
    have hframe := (bfree_pushed h.formatted (hw.area (.data blk) hblk) h.free.head).frame (ic.ib 1)
      (hw.area .double (by simp only [Place.In]; omega)).ne_one hne
    exact hdata.freeDouble hw hic (by omega) hblk (hframe.trans hdouble)

end

/-! All rounds. -/

theorem freeLoop_succ (count blk : Nat) (v : Vol) (inode : INode) :
    freeLoop (count + 1) blk v inode = freeDataBlock (freeLoop count blk v inode) inode (blk + count) := by
  induction count generalizing blk v with
  | zero => rfl
  | succ count ih =>
    rw [freeLoop, ih, freeLoop, show blk + 1 + count = blk + (count + 1) by omega]

theorem released_start {v : Vol} {ic : ICommon} {l : List UInt32} (n : Nat) (hf : Formatted v)
    (hl : FreeList v.disk v.fs l) (ht : v.trace = []) :
    Released v.disk ic (fsFdbhead v.fs).toNat l n [] v where
  formatted := hf
  free := hl
  head := by
    have := hl.head
    simp
    omega
  trace := by rw [ht]; rfl
  places := by simp
  synced := fun h => absurd rfl h
  frame := fun _ _ _ => rfl
  kept := fun post p pre h => by simp at h

theorem ReadsOverwritten.mono {h m n : Nat} (hr : ReadsOverwritten h m) (hmn : m ≤ n) :
    ReadsOverwritten h n := by
  unfold ReadsOverwritten at hr ⊢
  omega

theorem released_rounds {v : Vol} {inode : INode} {l : List UInt32} {m : Nat}
    (hw : WellMapped v.disk inode.iIc n l) (hf : Formatted v) (hl : FreeList v.disk v.fs l)
    (ht : v.trace = []) (hm : m ≤ n) (hok : ¬ReadsOverwritten (fsFdbhead v.fs).toNat m) :
    Released v.disk inode.iIc (fsFdbhead v.fs).toNat l n (releasedBefore m)
      (freeLoop m 0 v inode) := by
  induction m with
  | zero => exact released_start n hf hl ht
  | succ m ih =>
    rw [freeLoop_succ, Nat.zero_add]
    have hprev := ih (by omega) fun hr => hok (hr.mono (by omega))
    exact hprev.round hw rfl (by omega) hok hl.head

/-! The round that reads through an overwritten block. -/

theorem Released.below {done : List Place} {v : Vol} (h : Released d₀ ic h₀ l₀ n done v)
    {p : Place} (hp : done[(h₀ + done.length) % 64]? = some p) {i : Nat} (h0 : 0 < i) (hi : i ≤ 63) :
    word (v.disk (placeAddr d₀ ic p)) i ∈ done.map (placeAddr d₀ ic) ++ l₀ := by
  have hst := h.free.stack
  unfold FreeStack at hst
  rw [h.head] at hst
  have hlt := (List.getElem?_eq_some_iff.mp hp).1
  obtain ⟨hne, hb⟩ := hst.bottom (by simp; omega)
  rw [List.getElem?_append_left (by simpa using hlt), List.getElem?_map, hp] at hb
  have hz : fsFdb v.fs 0 = placeAddr d₀ ic p := by simpa using hb.symm
  have := hst.below_mem hne h0 hi
  rwa [hz] at this

theorem Released.single_overwritten {v : Vol} {inode : INode} (hw : WellMapped d₀ ic n l₀)
    (h : Released d₀ ic 51 l₀ n (releasedBefore 12) v) (hic : inode.iIc = ic) (hn : 13 ≤ n) :
    getDataBlockAddr v inode (UInt32.ofNat (12 * 512)) ∈
      (releasedBefore 12).map (placeAddr d₀ ic) ++ l₀ := by
  subst hic
  have ha : DataBlock (inode.iIc.ib 0) := hw.area .single (by simp only [Place.In]; omega)
  rw [releaseAddr_single h.formatted ha (by omega) (by omega)]
  exact h.below (p := .single) rfl (by omega) (by omega)

theorem Released.node_overwritten {v : Vol} {inode : INode} {m : Nat} (hw : WellMapped d₀ ic n l₀)
    (h : Released d₀ ic h₀ l₀ n (releasedBefore (140 + 128*m)) v) (hic : inode.iIc = ic)
    (hn : 141 + 128*m ≤ n) (h49 : h₀ ≠ 49) (h63 : h₀ ≤ 63)
    (hp : (releasedBefore (140 + 128*m))[(h₀ + (releasedBefore (140 + 128*m)).length) % 64]? =
      some (.node m)) :
    getDataBlockAddr v inode (UInt32.ofNat ((140 + 128*m) * 512)) ∈
      (releasedBefore (140 + 128*m)).map (placeAddr d₀ ic) ++ l₀ := by
  subst hic
  have hle := hw.le
  have ha : DataBlock (inode.iIc.ib 1) := hw.area .double (by simp only [Place.In]; omega)
  have hnode := hw.area (.node m) (by simp only [Place.In]; omega)
  have hi := h.double_intact hw (by omega) (by omega) (fun _ => h49) h63
  have hq : (140 + 128*m - 139) / 128 = m := by omega
  have hr : (140 + 128*m - 139) % 128 = 1 := by omega
  rw [releaseAddr_double h.formatted ha (by omega) (by omega) (by rw [hi, hq]; exact hnode.2), hi,
    hq, hr]
  exact h.below hp (by omega) (by omega)

theorem Released.double_overwritten {v : Vol} {inode : INode} (hw : WellMapped d₀ ic n l₀)
    (h : Released d₀ ic 49 l₀ n (releasedBefore 140) v) (hic : inode.iIc = ic) (hn : 141 ≤ n) :
    getDataBlockAddr v inode (UInt32.ofNat (140 * 512)) ∈
        (releasedBefore 140).map (placeAddr d₀ ic) ++ l₀ ∨
      getDataBlockAddr v inode (UInt32.ofNat (140 * 512)) = 2048 := by
  subst hic
  have ha : DataBlock (inode.iIc.ib 1) := hw.area .double (by simp only [Place.In]; omega)
  have hlen : (releasedBefore 140).length = 143 := length_releasedBefore 140
  have hst := h.free.stack
  unfold FreeStack at hst
  rw [h.head, hlen] at hst
  have hhead : (49 + 143) % 64 = 0 := by omega
  rw [hhead] at hst
  obtain ⟨hne, hb⟩ := hst.bottom (by simp [hlen])
  obtain ⟨rest, hrest, hbelow⟩ := hst.refill hne
  have hz : fsFdb v.fs 0 = inode.iIc.ib 1 := by
    rw [releasedBefore_140] at hrest
    exact (List.cons.inj hrest).1.symm
  rw [hz] at hbelow
  have hsub : ∀ x ∈ rest, x ∈ (releasedBefore 140).map (placeAddr d₀ inode.iIc) ++ l₀ := fun x hx => by
    rw [hrest]
    exact List.mem_cons_of_mem _ hx
  by_cases hc : nodeWords v.disk (inode.iIc.ib 1) 0 = 1
  · right
    have hw1 : word (v.disk (inode.iIc.ib 1)) 0 = 1 := hc
    rw [releaseAddr_double h.formatted ha (by omega) (by omega)
      (by rw [show (140 - 139) / 128 = 0 by omega, hw1]; decide),
      show (140 - 139) / 128 = 0 by omega, show (140 - 139) % 128 = 1 by omega, hw1,
      h.synced (by rw [releasedBefore_140]; simp)]
    exact h.formatted.size
  · left
    have hmem := hsub _ (hbelow.below_mem hc (i := 1) (by omega) (by omega))
    have hcm := h.free.area _ (hsub _ (hbelow.head_mem hc))
    rw [releaseAddr_double h.formatted ha (by omega) (by omega)
      (by rw [show (140 - 139) / 128 = 0 by omega]; exact hcm.2)]
    exact hmem

theorem overwritten_round {v : Vol} {inode : INode} {l : List UInt32}
    (hw : WellMapped v.disk inode.iIc n l) (hf : Formatted v) (hl : FreeList v.disk v.fs l)
    (ht : v.trace = []) (hbad : ReadsOverwritten (fsFdbhead v.fs).toNat n) :
    ∃ m < n, Released v.disk inode.iIc (fsFdbhead v.fs).toNat l n (releasedBefore m)
        (freeLoop m 0 v inode) ∧
      (getDataBlockAddr (freeLoop m 0 v inode) inode (UInt32.ofNat (m * 512)) ∈
          (releasedBefore m).map (placeAddr v.disk inode.iIc) ++ l ∨
        getDataBlockAddr (freeLoop m 0 v inode) inode (UInt32.ofNat (m * 512)) = 2048) := by
  have h63 := hl.head
  have hle := hw.le
  have hrounds := fun m => released_rounds (m := m) hw hf hl ht
  generalize (fsFdbhead v.fs).toNat = h at hbad h63 hrounds ⊢
  rcases hbad with ⟨rfl, hn⟩ | ⟨rfl, hn⟩ | ⟨h49, hn⟩
  · have hr := hrounds 12 (by omega) (by decide)
    exact ⟨12, by omega, hr, .inl (hr.single_overwritten hw rfl hn)⟩
  · have hr := hrounds (140 + 128*0) (by omega) (by decide)
    refine ⟨140 + 128*0, by omega, hr, .inl (hr.node_overwritten hw rfl hn (by omega) h63 ?_)⟩
    rw [show (50 + (releasedBefore (140 + 128*0)).length) % 64 = 1 by
      rw [length_releasedBefore]; rfl]
    rfl
  · by_cases heq : h = 49
    · subst heq
      have hr := hrounds 140 (by omega) (by decide)
      exact ⟨140, by omega, hr, hr.double_overwritten hw rfl (by omega)⟩
    · have hr := hrounds (140 + 128*(49 - h)) (by omega) (by unfold ReadsOverwritten; omega)
      refine ⟨140 + 128*(49 - h), by omega, hr,
        .inl (hr.node_overwritten hw rfl (by omega) heq h63 ?_)⟩
      have hb := releasedBefore_node (m := 49 - h) (by omega)
      have hlen := length_releasedBefore_node (m := 49 - h) (by omega)
      rw [show 140 + 128*(49 - h) = 139 + 128*(49 - h) + 1 by omega, hb, List.length_cons,
        List.length_cons, hlen, show (h + (141 + 129*(49 - h) + 1 + 1)) % 64 = 0 by omega]
      rfl

/-! Releases only add to the trace. -/

theorem frees_suffix_bfree (v : Vol) (a : UInt32) (c : Prop) [Decidable c] :
    frees v.trace <:+ frees (if c then (bfree v a).2 else v).trace := by
  split
  · rw [frees_bfree]
    exact List.suffix_cons _ _
  · exact List.suffix_refl _

theorem frees_suffix_freeDouble (v : Vol) (inode : INode) (blk : Nat) :
    frees v.trace <:+ frees (freeDouble v inode blk).trace :=
  (frees_suffix_bfree ..).trans (frees_suffix_bfree ..)

theorem frees_suffix_freeTriple (v : Vol) (inode : INode) (blk : Nat) :
    frees v.trace <:+ frees (freeTriple v inode blk).trace :=
  ((frees_suffix_bfree ..).trans (frees_suffix_bfree ..)).trans (frees_suffix_bfree ..)

theorem frees_suffix_freeDataBlock (v : Vol) (inode : INode) (blk : Nat) :
    getDataBlockAddr v inode (UInt32.ofNat (blk * 512)) :: frees v.trace <:+
      frees (freeDataBlock v inode blk).trace := by
  rw [← frees_bfree]
  unfold freeDataBlock
  dsimp only
  split
  · exact List.suffix_refl _
  · split
    · exact frees_suffix_bfree ..
    · split
      · exact frees_suffix_freeDouble ..
      · split
        · exact frees_suffix_freeTriple ..
        · exact List.suffix_refl _

theorem frees_suffix_freeLoop (m count : Nat) (v : Vol) (inode : INode) :
    frees (freeLoop m 0 v inode).trace <:+ frees (freeLoop (m + count) 0 v inode).trace := by
  induction count with
  | zero => exact List.suffix_refl _
  | succ count ih =>
    rw [← Nat.add_assoc, freeLoop_succ]
    exact ih.trans ((List.suffix_cons _ _).trans (frees_suffix_freeDataBlock ..))

/-- What deletion passes to `bfree` is distinct, belongs to the file and was
not free, and the free list becomes just that on top of the old one. -/
structure NoDoubleFree (v : Vol) (inode : INode) (n : Nat) (l : List UInt32) (v' : Vol) : Prop where
  distinct : (frees v'.trace).Nodup
  own : ∀ a ∈ frees v'.trace, ∃ p, Place.In n p ∧ a = placeAddr v.disk inode.iIc p
  used : ∀ a ∈ frees v'.trace, a ∉ l
  list : FreeList v'.disk v'.fs (frees v'.trace ++ l)

theorem nodup_releasedBefore (blk : Nat) : (releasedBefore blk).Nodup := by
  induction blk with
  | zero => exact List.nodup_nil
  | succ blk ih =>
    rw [releasedBefore, List.nodup_append]
    refine ⟨?_, ih, fun p hp q hq he => ?_⟩
    · unfold roundPlaces
      split
      · simp
      · split
        · split <;> simp
        · split
          · simp
          · split <;> simp
    · subst he
      have hin := mem_releasedBefore hq
      rcases mem_roundPlaces hp with rfl | ⟨rfl, hb⟩ | ⟨rfl, hb⟩ | ⟨m, rfl, hb⟩ <;>
        simp only [Place.In] at hin <;> omega

theorem noDoubleFree_of_ok {v : Vol} {inode : INode} {l : List UInt32}
    (hw : WellMapped v.disk inode.iIc n l) (hf : Formatted v) (hl : FreeList v.disk v.fs l)
    (ht : v.trace = []) (hok : ¬ReadsOverwritten (fsFdbhead v.fs).toNat n) :
    NoDoubleFree v inode n l (freeLoop n 0 v inode) := by
  have hr := released_rounds hw hf hl ht (Nat.le_refl n) hok
  have hmem : ∀ a ∈ frees (freeLoop n 0 v inode).trace,
      ∃ p, Place.In n p ∧ a = placeAddr v.disk inode.iIc p := fun a ha => by
    rw [hr.trace] at ha
    obtain ⟨p, hp, rfl⟩ := List.mem_map.mp ha
    exact ⟨p, hr.places p hp, rfl⟩
  refine ⟨?_, hmem, fun a ha => ?_, ?_⟩
  · rw [hr.trace]
    refine List.Nodup.map_on (fun p hp q hq he => ?_) (nodup_releasedBefore n)
    exact hw.inj p q (hr.places p hp) (hr.places q hq) he
  · obtain ⟨p, hp, rfl⟩ := hmem a ha
    exact hw.used p hp
  · rw [hr.trace]
    exact hr.free

theorem doubleFree_of_overwritten {v : Vol} {inode : INode} {l : List UInt32}
    (hw : WellMapped v.disk inode.iIc n l) (hf : Formatted v) (hl : FreeList v.disk v.fs l)
    (ht : v.trace = []) (hbad : ReadsOverwritten (fsFdbhead v.fs).toNat n) :
    ¬NoDoubleFree v inode n l (freeLoop n 0 v inode) := by
  intro h
  obtain ⟨m, hm, hr, hx⟩ := overwritten_round hw hf hl ht hbad
  have hsuf : getDataBlockAddr (freeLoop m 0 v inode) inode (UInt32.ofNat (m * 512)) ::
      (releasedBefore m).map (placeAddr v.disk inode.iIc) <:+
        frees (freeLoop n 0 v inode).trace := by
    have h1 := frees_suffix_freeDataBlock (freeLoop m 0 v inode) inode m
    have h2 := frees_suffix_freeLoop (m + 1) (n - (m + 1)) v inode
    rw [hr.trace] at h1
    rw [freeLoop_succ, Nat.zero_add, show m + 1 + (n - (m + 1)) = n by omega] at h2
    exact h1.trans h2
  have hin := hsuf.subset List.mem_cons_self
  have hnd := h.distinct.sublist hsuf.sublist
  rcases hx with hx | hx
  · rcases List.mem_append.mp hx with hd | hd
    · exact (List.nodup_cons.mp hnd).1 hd
    · exact h.used _ hin hd
  · obtain ⟨p, hp, he⟩ := h.own _ hin
    have hlt : (placeAddr v.disk inode.iIc p).toNat < 2048 := (hw.area p hp).2
    rw [← he, hx] at hlt
    exact absurd hlt (by decide)

/-- **Deletion frees no block twice exactly when no index block it still reads
through was overwritten.** For a file of `n` blocks on a list with head `h`
this fails when `h` is 51 and the single index block is read again, when `h`
is 50 or 49 and the double range is read beyond its first block, and when the
node of the double range after whose first block the list is full is read
again. -/
theorem delete_frees_once_iff (v : Vol) (l : List UInt32) (inode : INode) (hf : Formatted v)
    (hl : FreeList v.disk v.fs l) (ht : v.trace = [])
    (hw : WellMapped v.disk inode.iIc ((inode.iIc.icSize.toNat + 511) / 512) l) :
    NoDoubleFree v inode ((inode.iIc.icSize.toNat + 511) / 512) l (freeDataBlocks v inode) ↔
      ¬ReadsOverwritten (fsFdbhead v.fs).toNat ((inode.iIc.icSize.toNat + 511) / 512) :=
  ⟨fun h hbad => doubleFree_of_overwritten hw hf hl ht hbad h,
    fun hok => noDoubleFree_of_ok hw hf hl ht hok⟩

/-! A file of thirteen blocks, the last two behind index block 300. -/

def thirteenIndex : Block := ofWords 512 fun i => UInt32.ofNat (211 + i)

def thirteenVol (v : Vol) : Vol :=
  { v with disk := Function.update v.disk 300 thirteenIndex, trace := [] }

def thirteenFile : INode := ⟨1, 0, ⟨Mode.ifreg.code, 6656,
  Vector.ofFn fun i => UInt32.ofNat (200 + i.val), Vector.replicate 3 300⟩⟩

theorem thirteen_data {v : Vol} {i : Nat} (hi : i < 13) :
    placeAddr (thirteenVol v).disk thirteenFile.iIc (.data i) = UInt32.ofNat (200 + i) := by
  by_cases h11 : i < 11
  · simp [placeAddr, h11, ICommon.db, thirteenFile]
  · have hib : thirteenFile.iIc.ib 0 = 300 := by decide
    have hd : (thirteenVol v).disk (thirteenFile.iIc.ib 0) = thirteenIndex := by
      rw [hib]
      exact Function.update_self 300 thirteenIndex v.disk
    simp only [placeAddr, if_neg h11, if_pos (show i < 139 by omega), hd]
    rw [thirteenIndex, word_ofWords _ (by omega), show 211 + (i - 11) = 200 + i by omega]

theorem thirteen_single (d : Image) : placeAddr d thirteenFile.iIc .single = 300 := by
  change thirteenFile.iIc.ib 0 = 300
  decide

theorem thirteen_place (v : Vol) {p : Place} (hp : Place.In 13 p) : (∃ i < 13, p = .data i ∧
    (placeAddr (thirteenVol v).disk thirteenFile.iIc p).toNat = 200 + i) ∨
    (p = .single ∧ (placeAddr (thirteenVol v).disk thirteenFile.iIc p).toNat = 300) := by
  cases p with
  | data i =>
    have hi : i < 13 := hp
    refine .inl ⟨i, hi, rfl, ?_⟩
    rw [thirteen_data hi, UInt32.toNat_ofNat', Nat.mod_eq_of_lt (by omega)]
  | single =>
    refine .inr ⟨rfl, ?_⟩
    rw [thirteen_single]
    rfl
  | double => exact absurd hp (by simp [Place.In])
  | node m => exact absurd hp (by simp only [Place.In]; omega)

theorem thirteen_wellMapped {v : Vol} {n : Nat} (hn : n ≤ 51) :
    WellMapped (thirteenVol v).disk thirteenFile.iIc 13 (rangeStack n) := by
  refine ⟨fun p hp => ?_, fun p hp => ?_, fun p q hp hq he => ?_⟩
  · unfold DataBlock
    rcases thirteen_place v hp with ⟨i, hi, -, ha⟩ | ⟨-, ha⟩ <;> omega
  · rw [mem_rangeStack (by omega)]
    rcases thirteen_place v hp with ⟨i, hi, -, ha⟩ | ⟨-, ha⟩ <;> omega
  · have heq := congrArg UInt32.toNat he
    rcases thirteen_place v hp with ⟨i, hi, rfl, ha⟩ | ⟨rfl, ha⟩ <;>
      rcases thirteen_place v hq with ⟨j, hj, rfl, hb⟩ | ⟨rfl, hb⟩
    · rw [show i = j by omega]
    · omega
    · omega
    · rfl

theorem thirteen_freeList {v : Vol} {n : Nat} (hn : n ≤ 51)
    (hl : FreeList v.disk v.fs (rangeStack n)) :
    FreeList (thirteenVol v).disk (thirteenVol v).fs (rangeStack n) := by
  refine hl.frame fun a ha => Function.update_of_ne ?_ _ _
  rintro rfl
  rw [mem_rangeStack (by omega)] at ha
  have h300 : (300 : UInt32).toNat = 300 := rfl
  omega

/-- The list is empty, so the head is 0. -/
theorem delete_frees_once_thirteen :
    NoDoubleFree (thirteenVol fullVol) thirteenFile 13 [] (freeDataBlocks (thirteenVol fullVol) thirteenFile) := by
  have hf : Formatted (thirteenVol fullVol) := fullVol_formatted.of_header rfl fun _ _ => rfl
  have hl : FreeList (thirteenVol fullVol).disk (thirteenVol fullVol).fs [] :=
    thirteen_freeList (n := 0) (by omega) fullVol_free
  have hw : WellMapped (thirteenVol fullVol).disk thirteenFile.iIc 13 [] := thirteen_wellMapped (n := 0) (by omega)
  refine (delete_frees_once_iff (thirteenVol fullVol) [] thirteenFile hf hl rfl hw).mpr ?_
  rw [show fsFdbhead (thirteenVol fullVol).fs = 0 from word_fullSb (by omega)]
  decide

theorem thirteen_doubleFree {v : Vol} {n : Nat} (hn : n ≤ 51) (hf : Formatted v)
    (hl : FreeList v.disk v.fs (rangeStack n)) (hh : (fsFdbhead v.fs).toNat = 51) :
    ¬NoDoubleFree (thirteenVol v) thirteenFile 13 (rangeStack n)
      (freeDataBlocks (thirteenVol v) thirteenFile) := by
  have hf' : Formatted (thirteenVol v) := hf.of_header rfl fun _ _ => rfl
  refine doubleFree_of_overwritten (thirteen_wellMapped hn) hf' (thirteen_freeList hn hl) rfl ?_
  rw [show fsFdbhead (thirteenVol v).fs = fsFdbhead v.fs from rfl, hh]
  decide

/-- Blocks 66 to 116 are free, so the head is 51: deleting the file frees a
block that is already on the list. -/
theorem delete_thirteen_blocks :
    WellMapped (thirteenVol (freeRange fullVol 51)).disk thirteenFile.iIc 13 (rangeStack 51) ∧
    FreeList (thirteenVol (freeRange fullVol 51)).disk (thirteenVol (freeRange fullVol 51)).fs
      (rangeStack 51) ∧
    ¬NoDoubleFree (thirteenVol (freeRange fullVol 51)) thirteenFile 13 (rangeStack 51)
      (freeDataBlocks (thirteenVol (freeRange fullVol 51)) thirteenFile) := by
  obtain ⟨⟨hf, hl⟩, hh, -⟩ := blank_freeRange (n := 51) (by omega)
  exact ⟨thirteen_wellMapped (Nat.le_refl 51), thirteen_freeList (Nat.le_refl 51) hl,
    thirteen_doubleFree (Nat.le_refl 51) hf hl hh⟩

end ArmKernel.Fs
