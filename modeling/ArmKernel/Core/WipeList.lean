import ArmKernel.Core.Format
import ArmKernel.Fs.Growth

/-! The free list `wipe` lays out: words in the superblock, thirty blocks that
chain on from it, and the words inside these. -/
namespace ArmKernel.Core

open Lib Lib.Bytes Lib.Unrolled Fs SuperBlock

theorem toNat_ofNat_block {n : Nat} (h : n < 2048) : (UInt32.ofNat n).toNat = n := by
  rw [UInt32.toNat_ofNat']
  exact Nat.mod_eq_of_lt (by omega)

/-! The free list. -/

theorem word_wipeChain (i : Nat) {w : Nat} (hw : w < 64) : word (wipeChain i) w =
    if w = 0 then if i = 29 then 1 else UInt32.ofNat (i + 1 + 66)
    else UInt32.ofNat (63*i + (w - 1) + (66 + 30)) := word_ofWords _ (by omega)

def Chained (d : Image) : Prop :=
  ∀ i < 30, ∀ w < 64, nodeWords d (UInt32.ofNat (i + 66)) w = word (wipeChain i) w

theorem wipeChain_written (v : Vol) (hnum : 2048 ≤ v.num) {m : Nat} (hm : m ≤ 30) :
    let u := (List.range m).foldl
      (fun v i => diskWr v (UInt32.ofNat (i + 66)) (wipeChain i) (64*4)) v
    u.fs = v.fs ∧ u.num = v.num ∧
      ∀ i < m, ∀ w < 64, nodeWords u.disk (UInt32.ofNat (i + 66)) w = word (wipeChain i) w := by
  induction m with
  | zero => exact ⟨rfl, rfl, fun i hi => absurd hi (by omega)⟩
  | succ m ih =>
    rw [List.range_succ, List.foldl_append, List.foldl_cons, List.foldl_nil]
    generalize (List.range m).foldl _ v = u at ih ⊢
    obtain ⟨hfs, hun, hw⟩ := ih (by omega)
    have hlt : (UInt32.ofNat (m + 66)).toNat < u.num := by
      rw [toNat_ofNat_block (by omega), hun]
      omega
    rw [diskWr_lt _ _ _ hlt]
    refine ⟨hfs, hun, fun i hi w hw64 => ?_⟩
    unfold nodeWords
    dsimp only
    by_cases him : i = m
    · rw [him, Function.update_self, word_overlay_lt _ _ (by omega)]
    · have hne : UInt32.ofNat (i + 66) ≠ UInt32.ofNat (m + 66) := by
        intro h
        have := congrArg UInt32.toNat h
        rw [toNat_ofNat_block (by omega), toNat_ofNat_block (by omega)] at this
        omega
      rw [Function.update_of_ne hne]
      exact hw i (by omega) w hw64

theorem chained_slot {d : Image} (hd : Chained d) {i j : Nat} (hi : i < 30) (h0 : 0 < j) (hj : j ≤ 63) :
    (nodeWords d (UInt32.ofNat (i + 66)) j).toNat = 63*i + (j - 1) + 96 := by
  rw [hd i hi j (by omega), word_wipeChain i (by omega), if_neg (by omega),
    toNat_ofNat_block (by omega)]

theorem chained_slots {d : Image} (hd : Chained d) {i : Nat} (hi : i < 30) :
    (slots (nodeWords d (UInt32.ofNat (i + 66))) 63).Nodup ∧
      ∀ a, a ∈ slots (nodeWords d (UInt32.ofNat (i + 66))) 63 ↔
        96 + 63*i ≤ a.toNat ∧ a.toNat < 96 + 63*(i+1) := by
  constructor
  · apply nodup_slots
    intro j k h0 hjk hk he
    have := congrArg UInt32.toNat he
    rw [chained_slot hd hi h0 (by omega), chained_slot hd hi (by omega) hk] at this
    omega
  · intro a
    constructor
    · intro ha
      obtain ⟨j, h0, hj, rfl⟩ := exists_of_mem_slots ha
      rw [chained_slot hd hi h0 hj]
      omega
    · intro ha
      have he : a = nodeWords d (UInt32.ofNat (i + 66)) (a.toNat - (95 + 63*i)) := by
        apply UInt32.toNat_inj.mp
        rw [chained_slot hd hi (by omega) (by omega)]
        omega
      rw [he]
      exact mem_slots (by omega) (by omega)

theorem chained_list {d : Image} (hd : Chained d) {m i : Nat} (hi : i + m = 29) :
    ∃ l, Chain 1 63 (nodeWords d) (nodeWords d (UInt32.ofNat (i + 66))) 63 l ∧ l.Nodup ∧
      ∀ a, a ∈ l ↔ (66 + i < a.toNat ∧ a.toNat < 96) ∨ (96 + 63*i ≤ a.toNat ∧ a.toNat < 1986) := by
  obtain ⟨hnodup, hmem⟩ := chained_slots hd (show i < 30 by omega)
  have hnext : nodeWords d (UInt32.ofNat (i + 66)) 0 =
      if i = 29 then 1 else UInt32.ofNat (i + 1 + 66) := by
    rw [hd i (by omega) 0 (by omega), word_wipeChain i (by omega), if_pos rfl]
  induction m generalizing i with
  | zero =>
    refine ⟨_, .last (by rw [hnext, if_pos (by omega)]), hnodup, fun a => ?_⟩
    rw [hmem a]
    omega
  | succ m ih =>
    rw [if_neg (by omega)] at hnext
    have hnat : (UInt32.ofNat (i + 1 + 66)).toNat = i + 67 := toNat_ofNat_block (by omega)
    obtain ⟨hnodup', hmem'⟩ := chained_slots hd (show i + 1 < 30 by omega)
    obtain ⟨l, hl, hln, hla⟩ := ih (by omega) hnodup' hmem' (by
      rw [hd (i+1) (by omega) 0 (by omega), word_wipeChain (i+1) (by omega), if_pos rfl])
    have hne : nodeWords d (UInt32.ofNat (i + 66)) 0 ≠ 1 := by
      rw [hnext]
      intro h1
      rw [h1] at hnat
      exact absurd hnat (by simp)
    rw [← hnext] at hl
    refine ⟨_, .link hne hl, ?_, fun a => ?_⟩
    · refine List.nodup_append'.mpr ⟨hnodup, List.nodup_cons.mpr ⟨fun h => ?_, hln⟩, fun a ha hb => ?_⟩
      · rw [hnext, hla] at h
        omega
      · rw [hmem] at ha
        rcases List.mem_cons.mp hb with rfl | hb
        · rw [hnext] at ha
          omega
        · rw [hla] at hb
          omega
    · have heq : a = UInt32.ofNat (i + 1 + 66) ↔ a.toNat = i + 67 := by
        rw [← UInt32.toNat_inj, hnat]
      rw [List.mem_append, List.mem_cons, hmem, hla, hnext, heq]
      omega

theorem word_wipeHeader (fs : SuperBlock) {i : Nat} (hi : i < 128) : word (wipeHeader fs) i =
    if i = 0 then 1 else if i = 1 then 2048 else if i = 2 then 2 else if i = 3 then 64*8
    else if i = 4 then 66 else if i = 5 then 1982 else if i = 6 then 1982 % 64 - 1
    else word fs i := word_ofWords _ (by omega)

theorem word_wipeFdb (fs : SuperBlock) {i : Nat} (hi : i < 128) : word (wipeFdb fs) i =
    if i = 7 then 66 else if 7 < i ∧ i < 7 + 62 then UInt32.ofNat (i - 7 + 1986) else word fs i :=
  word_ofWords _ (by omega)

theorem fsFdb_wipeFdb (fs : SuperBlock) {j : Nat} (h0 : 0 < j) (hj : j ≤ 61) :
    (fsFdb (wipeFdb fs) j).toNat = j + 1986 := by
  unfold fsFdb
  rw [word_wipeFdb fs (by omega), if_neg (by omega), if_pos (by omega), toNat_ofNat_block (by omega)]
  omega

theorem wipeFdb_slots (fs : SuperBlock) : (slots (fsFdb (wipeFdb fs)) 61).Nodup ∧
    ∀ a, a ∈ slots (fsFdb (wipeFdb fs)) 61 ↔ 1987 ≤ a.toNat ∧ a.toNat < 2048 := by
  constructor
  · apply nodup_slots
    intro i j h0 hij hj he
    have := congrArg UInt32.toNat he
    rw [fsFdb_wipeFdb fs h0 (by omega), fsFdb_wipeFdb fs (by omega) hj] at this
    omega
  · intro a
    constructor
    · intro ha
      obtain ⟨j, h0, hj, rfl⟩ := exists_of_mem_slots ha
      rw [fsFdb_wipeFdb fs h0 hj]
      omega
    · intro ha
      have he : a = fsFdb (wipeFdb fs) (a.toNat - 1986) := by
        apply UInt32.toNat_inj.mp
        rw [fsFdb_wipeFdb fs (by omega) (by omega)]
        omega
      rw [he]
      exact mem_slots (by omega) (by omega)

/-- The free list of a superblock over the thirty blocks: the whole data area
but for block 1986, which none of the three formulas reaches. -/
theorem wipeFdb_list {d : Image} (hd : Chained d) {fs : SuperBlock} (hhead : fsFdbhead fs = 61) :
    ∃ l, 60 ≤ l.length ∧ FreeList d (wipeFdb fs) (2047 :: l) ∧
      ∀ a, a ∈ 2047 :: l ↔ DataBlock a ∧ a ≠ 1986 := by
  obtain ⟨rest, hrest, hrn, hra⟩ := chained_list hd (show 0 + 29 = 29 by omega)
  obtain ⟨hnodup, hmem⟩ := wipeFdb_slots fs
  have hfirst : fsFdb (wipeFdb fs) 0 = 66 := by
    unfold fsFdb
    rw [word_wipeFdb fs (by omega), if_pos rfl]
  have htop : slots (fsFdb (wipeFdb fs)) 61 = 2047 :: slots (fsFdb (wipeFdb fs)) 60 := by
    have h61 : fsFdb (wipeFdb fs) 61 = 2047 :=
      UInt32.toNat_inj.mp (fsFdb_wipeFdb fs (by omega) (by omega))
    rw [slots, h61]
  have hh : fsFdbhead (wipeFdb fs) = 61 := by
    unfold fsFdbhead
    rw [word_wipeFdb fs (by omega), if_neg (by omega), if_neg (by omega)]
    exact hhead
  have hall : ∀ a, a ∈ slots (fsFdb (wipeFdb fs)) 61 ++ 66 :: rest ↔ DataBlock a ∧ a ≠ 1986 := by
    intro a
    have h66 : a = 66 ↔ a.toNat = 66 := by
      rw [← UInt32.toNat_inj]
      rfl
    have h1986 : a = 1986 ↔ a.toNat = 1986 := by
      rw [← UInt32.toNat_inj]
      rfl
    rw [List.mem_append, List.mem_cons, hmem, hra, h66, ne_eq, h1986, DataBlock]
    omega
  refine ⟨slots (fsFdb (wipeFdb fs)) 60 ++ 66 :: rest, ?_, ⟨?_, ?_, ?_, ?_⟩, ?_⟩
  · simp [length_slots]
  · rw [← List.cons_append, ← htop, ← hfirst]
    unfold FreeStack
    rw [hh]
    refine .link (by rw [hfirst]; decide) ?_
    rw [hfirst]
    exact hrest
  · rw [hh]
    decide
  · rw [← List.cons_append, ← htop]
    refine List.nodup_append'.mpr ⟨hnodup, List.nodup_cons.mpr ⟨fun h => ?_, hrn⟩, fun a ha hb => ?_⟩
    · exact absurd ((hra _).mp h) (by decide)
    · rw [hmem] at ha
      rcases List.mem_cons.mp hb with rfl | hb
      · exact absurd ha.1 (by decide)
      · rw [hra] at hb
        omega
  · rw [← List.cons_append, ← htop]
    exact fun a ha => ((hall a).mp ha).1
  · rw [← List.cons_append, ← htop]
    exact hall

theorem wipeFree_eq (v : Vol) (hnum : 2048 ≤ v.num) : ∃ u : Vol, wipeFree v =
      updateSb { u with fs := wipeFdb (wipeHeader v.fs) } ∧ u.num = v.num ∧ Chained u.disk := by
  obtain ⟨hfs, hun, hd⟩ := wipeChain_written { v with fs := wipeHeader v.fs } hnum (Nat.le_refl 30)
  unfold wipeFree
  dsimp only
  generalize List.foldl _ _ (List.range 30) = u at hfs hun hd ⊢
  exact ⟨u, by rw [hfs], hun, hd⟩

theorem fsFdbhead_wipeHeader (fs : SuperBlock) : fsFdbhead (wipeHeader fs) = 61 := by
  unfold fsFdbhead
  rw [word_wipeHeader _ (by omega)]
  rfl

theorem word_wiped (fs : SuperBlock) {i : Nat} (hi : i < 6) :
    word (wipeFdb (wipeHeader fs)) i = word (wipeHeader fs) i := by
  rw [word_wipeFdb _ (by omega), if_neg (by omega), if_neg (by omega)]

theorem wipeFree_accounted (v : Vol) (hnum : v.num = 2048) : ∃ l, 60 ≤ l.length ∧
    Accounted (fun _ => none) (wipeFree v) (2047 :: l) ∧ Synced (wipeFree v) := by
  obtain ⟨u, he, hun, hd⟩ := wipeFree_eq v (by omega)
  have hf : Formatted { u with fs := wipeFdb (wipeHeader v.fs) } := by
    refine ⟨hun.trans hnum, ?_, ?_, ?_, ?_, ?_⟩ <;>
      exact (word_wiped v.fs (by omega)).trans (word_wipeHeader v.fs (by omega))
  obtain ⟨l, hlen, hl, -⟩ := wipeFdb_list hd (fsFdbhead_wipeHeader v.fs)
  rw [he, updateSb_eq hf]
  refine ⟨l, hlen, ⟨hf.of_header rfl fun _ _ => rfl, hl.update_one _, fun a o ho => ?_⟩, ?_⟩
  · exact absurd ho (by simp)
  · simp [Synced]

/-! Which blocks are on it. -/

/-- The free list of `v` holds each block of the data area once and no other;
that it ends in block 1 is part of being a stack. -/
def AddsEveryBlock (v : Vol) : Prop :=
  ∃ l, FreeStack v.disk v.fs l ∧ l.Nodup ∧ ∀ a, a ∈ l ↔ DataBlock a

theorem wipeFree_list (v : Vol) (hnum : 2048 ≤ v.num) : ∃ l, FreeStack (wipeFree v).disk (wipeFree v).fs l ∧
    l.Nodup ∧ ∀ a, a ∈ l ↔ DataBlock a ∧ a ≠ 1986 := by
  obtain ⟨u, he, hun, hd⟩ := wipeFree_eq v hnum
  obtain ⟨l, -, hl, hall⟩ := wipeFdb_list hd (fsFdbhead_wipeHeader v.fs)
  have hsb : fsSblkno (wipeFdb (wipeHeader v.fs)) = 1 :=
    (word_wiped v.fs (by omega)).trans (word_wipeHeader v.fs (by omega))
  have hone : (1 : UInt32).toNat < u.num := by
    rw [hun]
    exact Nat.lt_of_lt_of_le (by decide) hnum
  rw [he, updateSb, hsb, diskWr_block { u with fs := wipeFdb (wipeHeader v.fs) } _ hone]
  exact ⟨_, (hl.update_one _).stack, hl.nodup, hall⟩

theorem not_addsEveryBlock {v : Vol} {l : List UInt32} (hl : FreeStack v.disk v.fs l)
    (h : (1986 : UInt32) ∉ l) : ¬AddsEveryBlock v := by
  rintro ⟨l', hl', -, hall⟩
  rw [hl'.unique hl] at hall
  exact h ((hall 1986).mpr (by decide))

/-- **Formatting loses a block.** Whatever was on the disk and in the
superblock, the list `wipe` builds has every block of the data area once but
for block 1986, so it is never complete. -/
theorem wipe_never_adds_every_block (v : Vol) (hnum : 2048 ≤ v.num) : ¬AddsEveryBlock (wipeFree v) ∧
    ∃ l, FreeStack (wipeFree v).disk (wipeFree v).fs l ∧ l.Nodup ∧
      ∀ a, a ∈ l ↔ DataBlock a ∧ a ≠ 1986 := by
  obtain ⟨l, hl, hn, hall⟩ := wipeFree_list v hnum
  exact ⟨not_addsEveryBlock hl fun h => ((hall 1986).mp h).2 rfl, l, hl, hn, hall⟩

theorem wipe_never_adds_every_block_full : ¬AddsEveryBlock (wipeFree fullVol) :=
  (wipe_never_adds_every_block fullVol (Nat.le_refl _)).1

theorem wipe_misses_block : ¬AddsEveryBlock (wipeFree fullVol) := by
  obtain ⟨l, hl, -, hall⟩ := wipeFree_list fullVol (Nat.le_refl _)
  exact not_addsEveryBlock hl fun h => ((hall 1986).mp h).2 rfl

end ArmKernel.Core
