import ArmKernel.Fs.SlotWrite
import ArmKernel.Fs.DirectoryRuns

/-! A directory that shrinks and grows again. `remove` lowers the size and
leaves the block map alone; the next `addInodeToDirectory` decides from the
size alone whether to take a block. -/
namespace ArmKernel.Fs

open Lib Lib.Bytes Lib.Run SuperBlock

/-- The block map refers to `x`, as a data block at any index or as its index
block. -/
def Referenced (d : Image) (ic : ICommon) (x : UInt32) : Prop :=
  (∃ j < 139, mapAddr d ic j = x) ∨ ic.ib 0 = x

/-- The blocks of `l₀` that are not on the list now are the directory's. -/
def NothingLost (l₀ : List UInt32) (v : Vol) (D : UInt32) : Prop :=
  ∃ l, FreeList v.disk v.fs l ∧ ∀ x ∈ l₀, x ∈ l ∨ Referenced v.disk (inodeAt v.disk D) x

def takesBlock (ic : ICommon) : Prop := ic.icSize.toNat / 32 % 16 = 0 ∧ 0 < ic.icSize.toNat

instance (ic : ICommon) : Decidable (takesBlock ic) := inferInstanceAs (Decidable (_ ∧ _))

/-- The volume, and the number of blocks the directory had when one was last
taken for it. -/
def regrowStep (D : UInt32) (s : Vol × Nat) (e : DirEvent) : Vol × Nat :=
  (dirStep D s.1 e, match e with
    | .add _ _ => if takesBlock (inodeAt s.1.disk D) then (inodeAt s.1.disk D).icSize.toNat / 512 + 1 else s.2
    | _ => s.2)

/-- Additions and removals, where a block is taken only for an index above all
those it has been taken for before. -/
def regrowOk (D : UInt32) (s : Vol × Nat) : DirEvent → Prop
  | .add _ _ => (inodeAt s.1.disk D).icSize.toNat < 139 * 512 ∧
      (takesBlock (inodeAt s.1.disk D) → s.2 ≤ (inodeAt s.1.disk D).icSize.toNat / 512)
  | .remove _ _ _ _ => True
  | .other _ => False

/-- A directory whose blocks are its own, of up to 139 blocks. -/
structure Mapped (own : Owners) (d : Image) (D : UInt32) : Prop where
  lt : D.toNat < 512
  dir : (inodeAt d D).icMode = Mode.ifdir.code
  aligned : (inodeAt d D).icSize.toNat % 32 = 0
  maps : Maps own d D (inodeAt d D) (max 1 (blockCount (inodeAt d D)))

/-- Each block of `l₀` is on the list `l` or in the first `m` blocks of the map,
whose index block is the directory's. -/
structure Kept (own : Owners) (l₀ l : List UInt32) (d : Image) (D : UInt32) (m : Nat) : Prop where
  small : m ≤ 139
  index : 11 < m → own ((inodeAt d D).ib 0) = some (D, .index)
  blocks : ∀ x ∈ l₀, x ∈ l ∨ (∃ j < m, mapAddr d (inodeAt d D) j = x) ∨ (11 < m ∧ (inodeAt d D).ib 0 = x)

theorem Kept.nothingLost {own : Owners} {l₀ l : List UInt32} {v : Vol} {D : UInt32} {m : Nat}
    (h : Kept own l₀ l v.disk D m) (hl : FreeList v.disk v.fs l) : NothingLost l₀ v D := by
  have hsmall := h.small
  refine ⟨l, hl, fun x hx => ?_⟩
  rcases h.blocks x hx with hfree | ⟨j, hj, hmap⟩ | ⟨-, hib⟩
  · exact .inl hfree
  · exact .inr (.inl ⟨j, by omega, hmap⟩)
  · exact .inr (.inr hib)

/-- The invariant of a run from a volume with the free list `l₀`. -/
def Holding (l₀ : List UInt32) (D : UInt32) (s : Vol × Nat) : Prop :=
  ∃ own l, Accounted own s.1 l ∧ Mapped own s.1.disk D ∧ Kept own l₀ l s.1.disk D s.2

section

variable {own : Owners} {v : Vol} {l l₀ : List UInt32} {D : UInt32} {m : Nat}

theorem Mapped.dirInode_eq (h : Mapped own v.disk D) (hf : Formatted v) :
    dirInode v D = ⟨D, 0, inodeAt v.disk D⟩ := by
  rw [dirInode, readInode_eq hf h.lt]

/-- One of the directory's blocks is written, then its inode with another
size. -/
def resized (v : Vol) (D : UInt32) (b : Nat) (x : Block) (size : UInt32) : Vol :=
  writeInode (v.put (mapAddr v.disk (inodeAt v.disk D) b) x) ⟨D, 0, { inodeAt v.disk D with icSize := size }⟩

theorem Mapped.inodeAt_resized (hd : Mapped own v.disk D) (ha : Accounted own v l) (b : Nat) (x : Block)
    (size : UInt32) :
    inodeAt (resized v D b x size).disk D = { inodeAt v.disk D with icSize := size } :=
  inodeAt_writeInode_self (ha.formatted_put _ x)
    (show (⟨D, 0, { inodeAt v.disk D with icSize := size }⟩ : INode).iNumber.toNat < 512 from hd.lt)

theorem Mapped.resized_disk (hd : Mapped own v.disk D) (ha : Accounted own v l) {b : Nat} (x : Block)
    (size : UInt32) {y : UInt32} (hy : y ≠ inodeBlock D) (hne : y ≠ mapAddr v.disk (inodeAt v.disk D) b) :
    (resized v D b x size).disk y = v.disk y := by
  have hnum : (⟨D, 0, { inodeAt v.disk D with icSize := size }⟩ : INode).iNumber.toNat < 512 := hd.lt
  unfold resized
  rw [writeInode_disk_ne (ha.formatted_put _ x) hnum hy, put_disk_ne _ _ hne]

theorem Mapped.resized (hd : Mapped own v.disk D) (ha : Accounted own v l) {b : Nat}
    (hb : b < max 1 (blockCount (inodeAt v.disk D))) (x : Block) {size : UInt32} (h32 : size.toNat % 32 = 0)
    (hle : max 1 ((size.toNat + 511) / 512) ≤ max 1 (blockCount (inodeAt v.disk D))) :
    Accounted own (resized v D b x size) l ∧ Mapped own (resized v D b x size).disk D := by
  have hlt := hd.lt
  have hown := hd.maps.data b hb
  have hput := ha.put x (ha.owned _ _ hown).2
  have hself := hd.inodeAt_resized ha b x size
  refine ⟨hput.writeInode hlt, hlt, ?_, ?_, ?_⟩
  · rw [hself]
    exact hd.dir
  · rw [hself]
    exact h32
  · rw [hself, blockCount_dir (show ({ inodeAt v.disk D with icSize := size } : ICommon).icMode = _ from hd.dir)]
    have hindex : ∀ q, own (mapAddr v.disk (inodeAt v.disk D) b) ≠ some (q, .index) := fun q => by simp [hown]
    exact (((hd.maps.put x hindex).resize (inodeAt v.disk D).icMode size).writeInode hput hlt).le hle

theorem Kept.resized (h : Kept own l₀ l v.disk D m) (ha : Accounted own v l) (hd : Mapped own v.disk D) {b : Nat}
    (hb : b < max 1 (blockCount (inodeAt v.disk D))) (x : Block) {size : UInt32} (h32 : size.toNat % 32 = 0)
    (hle : max 1 ((size.toNat + 511) / 512) ≤ max 1 (blockCount (inodeAt v.disk D))) :
    Holding l₀ D (resized v D b x size, m) := by
  have hself := hd.inodeAt_resized ha b x size
  obtain ⟨ha', hd'⟩ := hd.resized ha hb x h32 hle
  -- the index block is no data block
  have hmap : ∀ j < m, mapAddr (Fs.resized v D b x size).disk { inodeAt v.disk D with icSize := size } j =
      mapAddr v.disk (inodeAt v.disk D) j := by
    intro j hj
    refine mapAddr_congr fun h11 => ?_
    have hib := h.index (by omega)
    refine hd.resized_disk ha x size ((ha.owned _ _ hib).1.ne_inodeBlock hd.lt) fun heq => ?_
    have hown := hd.maps.data b hb
    rw [← heq] at hown
    have := hown.symm.trans hib
    simp at this
  refine ⟨own, l, ha', hd', h.small, fun h11 => ?_, fun y hy => ?_⟩
  · rw [hself]
    exact h.index h11
  · rw [hself]
    rcases h.blocks y hy with hl | ⟨j, hj, hjy⟩ | hib
    · exact .inl hl
    · exact .inr (.inl ⟨j, hj, (hmap j hj).trans hjy⟩)
    · exact .inr (.inr hib)

theorem addInodeToDirectory_plain (ha : Accounted own v l) (hd : Mapped own v.disk D)
    (hnot : ¬takesBlock (inodeAt v.disk D)) (ino : UInt32) (name : CStr) :
    ∃ x, (addInodeToDirectory v ⟨D, 0, inodeAt v.disk D⟩ ino name).2 =
      resized v D ((inodeAt v.disk D).icSize.toNat / 512) x ((inodeAt v.disk D).icSize + 32) := by
  have hcount := blockCount_dir hd.dir
  have h32 := hd.aligned
  have hpos : 0 < (inodeAt v.disk D).icSize ↔ 0 < (inodeAt v.disk D).icSize.toNat := UInt32.lt_iff_toNat_lt
  unfold takesBlock at hnot
  have hb : (inodeAt v.disk D).icSize.toNat / 512 < max 1 (blockCount (inodeAt v.disk D)) := by omega
  have hread : getDataBlockAddr v ⟨D, 0, inodeAt v.disk D⟩ (inodeAt v.disk D).icSize =
    mapAddr v.disk (inodeAt v.disk D) ((inodeAt v.disk D).icSize.toNat / 512) := hd.maps.reads ha hb
  have hlt := ((hd.maps.addr_dataBlock ha hb).lt_num ha.formatted)
  unfold addInodeToDirectory
  dsimp only
  rw [if_neg (by rw [hpos]; exact hnot)]
  simp only [getDataBlock, hread]
  rw [diskWr_put _ _ hlt]
  exact ⟨_, rfl⟩

theorem Kept.add (h : Kept own l₀ l v.disk D m) (ha : Accounted own v l) (hd : Mapped own v.disk D)
    {ino : UInt32} {name : CStr} (hok : regrowOk D (v, m) (.add ino name))
    (hf : ¬Failed (dirStep D v (.add ino name))) : Holding l₀ D (regrowStep D (v, m) (.add ino name)) := by
  have hcount := blockCount_dir hd.dir
  have h32 := hd.aligned
  obtain ⟨hsize, hm⟩ := hok
  dsimp only at hsize hm
  change ¬Failed (addInodeToDirectory v (dirInode v D) ino name).2 at hf
  unfold regrowStep
  change Holding l₀ D ((addInodeToDirectory v (dirInode v D) ino name).2, ite _ _ _)
  rw [hd.dirInode_eq ha.formatted] at hf ⊢
  by_cases ht : takesBlock (inodeAt v.disk D)
  · rw [if_pos ht]
    have hm := hm ht
    rcases addInodeToDirectory_entered ino name (show (⟨D, 0, inodeAt v.disk D⟩ : INode).iNumber.toNat < 512 from hd.lt)
      ha hd.maps hd.dir h32 hsize with ⟨-, -, hfail⟩ | ⟨own', l', hen⟩
    · exact absurd hfail hf
    generalize addInodeToDirectory v ⟨D, 0, inodeAt v.disk D⟩ ino name = r at hen hf
    obtain ⟨par', v'⟩ := r
    have hstored : inodeAt v'.disk D = par'.iIc := hen.stored
    have hmaps : Maps own' v'.disk D par'.iIc ((inodeAt v.disk D).icSize.toNat / 512 + 1) := hen.maps
    have hkept : ∀ b < max 1 (blockCount (inodeAt v.disk D)), mapAddr v'.disk par'.iIc b =
      mapAddr v.disk (inodeAt v.disk D) b := hen.kept
    have hnew : par'.iIc.icSize.toNat = (inodeAt v.disk D).icSize.toNat + 32 := hen.size
    have hmode : par'.iIc.icMode = Mode.ifdir.code := hen.mode.trans hd.dir
    have hplaced : Placed l l' { inodeAt v.disk D with icSize := (inodeAt v.disk D).icSize + 32 } par'.iIc
      ((inodeAt v.disk D).icSize.toNat / 512) _ := hen.placed ht
    unfold takesBlock at ht
    refine ⟨own', l', hen.acct, ⟨hd.lt, ?_, ?_, ?_⟩, by dsimp only; omega, fun h11 => ?_, fun x hx => ?_⟩
    · rw [hstored]
      exact hmode
    · rw [hstored, hnew]
      omega
    · rw [hstored, blockCount_dir hmode, hnew]
      exact hmaps.le (by omega)
    · rw [hstored]
      exact hmaps.index h11
    · dsimp only
      rw [hstored]
      rcases h.blocks x hx with hl | ⟨j, hj, hjx⟩ | ⟨h11, hib⟩
      · -- on the list before: still there, or taken for this index
        rcases hplaced.taken hl with hl' | hix | ⟨h11, hib⟩
        · exact .inl hl'
        · exact .inr (.inl ⟨_, Nat.lt_succ_self _, hix⟩)
        · exact .inr (.inr ⟨by omega, hib⟩)
      · exact .inr (.inl ⟨j, by omega, (hkept j (by omega)).trans hjx⟩)
      · have hsame : par'.iIc.ib 0 = (inodeAt v.disk D).ib 0 := hplaced.index (by omega)
        exact .inr (.inr ⟨by omega, hsame.trans hib⟩)
  · obtain ⟨x, hx⟩ := addInodeToDirectory_plain ha hd ht ino name
    rw [if_neg ht, hx]
    unfold takesBlock at ht
    have hsum : ((inodeAt v.disk D).icSize + 32).toNat = (inodeAt v.disk D).icSize.toNat + 32 := by
      rw [UInt32.toNat_add, show (32 : UInt32).toNat = 32 from rfl, Nat.mod_eq_of_lt (by omega)]
    exact h.resized ha hd (by omega) _ (by omega) (by omega)

theorem remove_found (ha : Accounted own v l) (hd : Mapped own v.disk D) (cwd : UInt32) (ai : ActiveInodes)
    (child : DirEnt) (name : CStr) :
    ((Fs.remove v cwd ai child ⟨D, 0, inodeAt v.disk D⟩ name).ino = noAddr ∧
      (Fs.remove v cwd ai child ⟨D, 0, inodeAt v.disk D⟩ name).vol = v) ∨
    ∃ b < blockCount (inodeAt v.disk D), ∃ x size, size.toNat + 32 = (inodeAt v.disk D).icSize.toNat ∧
      (Fs.remove v cwd ai child ⟨D, 0, inodeAt v.disk D⟩ name).vol = resized v D b x size := by
  unfold Fs.remove
  dsimp only
  split
  · next addr dir j hscan =>
    obtain ⟨e, he, rfl, rfl, rfl, -⟩ := scanDir_entry ha (hd.maps.le (Nat.le_max_right _ _)) hd.dir hscan
    have hb := div_lt_blockCount_of_entry hd.dir he
    unfold entryCount at he
    dsimp only at he hb ⊢
    have hsize : ((inodeAt v.disk D).icSize - 32).toNat + 32 = (inodeAt v.disk D).icSize.toNat := by
      rw [UInt32.toNat_sub_of_le _ _ (UInt32.le_iff_toNat_le.mpr (by simp; omega)),
        show (32 : UInt32).toNat = 32 from rfl]
      omega
    rw [diskWr_put _ _ ((hd.maps.addr_dataBlock ha (lt_of_lt_of_le hb (Nat.le_max_right _ _))).lt_num ha.formatted)]
    exact .inr ⟨e / 16, hb, _, _, hsize, rfl⟩
  · exact .inl ⟨rfl, rfl⟩

theorem Kept.remove (h : Kept own l₀ l v.disk D m) (ha : Accounted own v l) (hd : Mapped own v.disk D)
    (cwd : UInt32) (ai : ActiveInodes) (child : DirEnt) (name : CStr) :
    Holding l₀ D (regrowStep D (v, m) (.remove cwd ai child name)) := by
  have hcount := blockCount_dir hd.dir
  have h32 := hd.aligned
  change Holding l₀ D ((Fs.remove v cwd ai child (dirInode v D) name).vol, m)
  rw [hd.dirInode_eq ha.formatted]
  rcases remove_found ha hd cwd ai child name with ⟨-, hv⟩ | ⟨b, hb, x, size, hsize, hv⟩
  · rw [hv]
    exact ⟨own, l, ha, hd, h⟩
  · rw [hv]
    exact h.resized ha hd (by omega) x (by omega) (by omega)

theorem later_regrowStep {s : Vol × Nat} {e : DirEvent} (hok : regrowOk D s e) :
    Later s.1 (regrowStep D s e).1 := by
  refine later_dirStep_call fun w hw => ?_
  rw [hw] at hok
  exact absurd hok id

theorem later_regrowRun {s : Vol × Nat} {events : List DirEvent}
    (hok : Along (regrowStep D) (regrowOk D) s events) : Later s.1 (run (regrowStep D) s events).1 := by
  induction events generalizing s with
  | nil => exact .refl s.1
  | cons e rest ih => exact (later_regrowStep hok.1).trans (ih hok.2)

theorem Holding.step {s : Vol × Nat} {e : DirEvent} (h : Holding l₀ D s) (hok : regrowOk D s e)
    (hf : ¬Failed (regrowStep D s e).1) : Holding l₀ D (regrowStep D s e) := by
  obtain ⟨own, l, ha, hd, hk⟩ := h
  cases e with
  | add ino name => exact hk.add ha hd hok hf
  | remove cwd ai child name => exact hk.remove ha hd cwd ai child name
  | other w => exact absurd hok id

theorem Holding.run {s : Vol × Nat} {events : List DirEvent} (h : Holding l₀ D s)
    (hok : Along (regrowStep D) (regrowOk D) s events) (hf : ¬Failed (run (regrowStep D) s events).1) :
    Holding l₀ D (Run.run (regrowStep D) s events) := by
  induction events generalizing s with
  | nil => exact h
  | cons e rest ih =>
    have hmid : ¬Failed (regrowStep D s e).1 := fun hfail => hf (hfail.later (later_regrowRun hok.2))
    exact ih (h.step hok.1 hmid) hok.2 hf

theorem run_regrowStep (s : Vol × Nat) (events : List DirEvent) :
    (run (regrowStep D) s events).1 = run (dirStep D) s.1 events := by
  induction events generalizing s with
  | nil => rfl
  | cons e rest ih => exact ih (regrowStep D s e)

end

/-- **A directory that shrinks and grows loses no block as long as it takes none
for an index it took one for before**: a run of additions and removals that
takes blocks for ever higher indices, within the direct and the single indirect
range, leaves every block it took in the map. -/
theorem regrow_loses_nothing {own : Owners} {v : Vol} {l : List UInt32} {D : UInt32} (ha : Accounted own v l)
    (hd : Mapped own v.disk D) {events : List DirEvent} (hok : Along (regrowStep D) (regrowOk D) (v, 0) events)
    (hf : ¬Failed (run (dirStep D) v events)) : NothingLost l (run (dirStep D) v events) D := by
  have h0 : Holding l D (v, 0) :=
    ⟨own, l, ha, hd, Nat.zero_le _, fun h11 => absurd h11 (Nat.not_lt_zero _), fun x hx => .inl hx⟩
  have hrun : (run (regrowStep D) (v, 0) events).1 = run (dirStep D) v events := run_regrowStep (v, 0) events
  obtain ⟨own', l', ha', -, hk⟩ := h0.run hok (by rw [hrun]; exact hf)
  rw [← hrun]
  exact hk.nothingLost ha'.free

/-! A directory that takes two blocks for one index. -/

theorem Placed.direct {a b : UInt32} {l l' : List UInt32} {ic ic' : ICommon} {i : Nat} (hi : i < 11)
    (h : Placed (a :: l) l' ic ic' i b) : b = a ∧ l' = l ∧ ic' = ic.setDb i a := by
  rcases h with ⟨-, hl, rfl⟩ | ⟨h11, -⟩ | ⟨h11, -⟩
  · obtain ⟨rfl, rfl⟩ := List.cons.inj hl
    exact ⟨rfl, rfl, rfl⟩
  · omega
  · omega

/-- With a free block and a direct address for it the entry gets its block. -/
structure TookDirect (own own' : Owners) (v v' : Vol) (l : List UInt32) (D a : UInt32) : Prop where
  acct : Accounted own' v' l
  mapped : Mapped own' v'.disk D
  ext : Ext own own'
  inode : inodeAt v'.disk D = { (inodeAt v.disk D).setDb ((inodeAt v.disk D).icSize.toNat / 512) a with
    icSize := (inodeAt v.disk D).icSize + 32 }
  frame : ∀ y, y ≠ 1 → y ≠ inodeBlock D → own' y ≠ some (D, .index) → y ≠ a → v'.disk y = v.disk y
  inodes : ∀ j, j.toNat < 512 → j ≠ D → inodeAt v'.disk j = inodeAt v.disk j
  works : ¬Failed v → ¬Failed v'

section

variable {own : Owners} {v : Vol} {l : List UInt32} {D a : UInt32}

theorem not_failed_add_direct (ha : Accounted own v (a :: l)) (par : INode) (h11 : par.iIc.icSize.toNat / 512 < 11)
    (ino : UInt32) (name : CStr) (hf : ¬Failed v) : ¬Failed (addInodeToDirectory v par ino name).2 := by
  obtain ⟨fs, -, he, -, hda, -, -⟩ := ha.balloc
  unfold addInodeToDirectory
  dsimp only
  split
  · have hcode : allocateDataBlockAddr v par par.iIc.icSize = (a, { par with
        iIc := par.iIc.setDb (par.iIc.icSize.toNat / 512) a }, writeInode (afterAlloc v fs a) { par with
          iIc := par.iIc.setDb (par.iIc.icSize.toNat / 512) a }) := by
      unfold allocateDataBlockAddr
      simp only [he, hda.ne_noAddr, if_false, h11, if_true]
    rw [hcode]
    exact not_failed_diskWr (not_failed_diskWr (not_failed_diskWr (not_failed_afterAlloc hf fs a) _ _ _) _ _ _) _ _ _
  · exact not_failed_diskWr (not_failed_diskWr hf _ _ _) _ _ _

theorem Mapped.takes (hd : Mapped own v.disk D) (ha : Accounted own v (a :: l)) (ht : takesBlock (inodeAt v.disk D))
    (h11 : (inodeAt v.disk D).icSize.toNat / 512 < 11) (ino : UInt32) (name : CStr) :
    ∃ own', TookDirect own own' v (dirStep D v (.add ino name)) l D a := by
  have hcount := blockCount_dir hd.dir
  have h32 := hd.aligned
  have hworks := not_failed_add_direct ha ⟨D, 0, inodeAt v.disk D⟩ h11 ino name
  change ∃ own', TookDirect own own' v (addInodeToDirectory v (dirInode v D) ino name).2 l D a
  rw [hd.dirInode_eq ha.formatted]
  rcases addInodeToDirectory_entered ino name (show (⟨D, 0, inodeAt v.disk D⟩ : INode).iNumber.toNat < 512 from hd.lt)
    ha hd.maps hd.dir h32 (by dsimp only; omega) with ⟨hl, -, -⟩ | ⟨own', l', hen⟩
  · have hfor : blocksFor ((inodeAt v.disk D).icSize.toNat / 512) = 1 := by
      unfold blocksFor
      rw [if_neg (by omega)]
    dsimp only at hl
    rw [hfor, List.length_cons] at hl
    omega
  generalize addInodeToDirectory v ⟨D, 0, inodeAt v.disk D⟩ ino name = r at hen hworks ⊢
  obtain ⟨par', v'⟩ := r
  obtain ⟨haddr, rfl, hic⟩ := (hen.placed ht).direct h11
  have hstored : inodeAt v'.disk D = par'.iIc := hen.stored
  have hmode : par'.iIc.icMode = Mode.ifdir.code := hen.mode.trans hd.dir
  have hnew : par'.iIc.icSize.toNat = (inodeAt v.disk D).icSize.toNat + 32 := hen.size
  unfold takesBlock at ht
  refine ⟨own', hen.acct, ⟨hd.lt, ?_, ?_, ?_⟩, hen.ext, ?_, fun y h1 hb hx hy => ?_, hen.inodes, hworks⟩
  · rw [hstored]
    exact hmode
  · rw [hstored, hnew]
    omega
  · rw [hstored, blockCount_dir hmode, hnew]
    exact hen.maps.le (by dsimp only; omega)
  · rw [hstored, hic]
    rfl
  · exact hen.frame y h1 hb hx (by rw [haddr]; exact hy)

theorem zero_ne_inodeBlock {D : UInt32} (hD : D.toNat < 512) : (0 : UInt32) ≠ inodeBlock D := by
  intro h
  have := congrArg UInt32.toNat h
  rw [inodeBlock_toNat hD, show (0 : UInt32).toNat = 0 from rfl] at this
  omega

theorem not_dataBlock_zero : ¬DataBlock 0 := fun h => absurd h.1 (by decide)

theorem Accounted.ne_zero {o : UInt32 × Role} {x : UInt32} (ha : Accounted own v l) (hx : own x = some o) : 0 ≠ x := by
  rintro rfl
  exact not_dataBlock_zero (ha.owned _ _ hx).1

theorem TookDirect.disk_zero {own' : Owners} {v' : Vol} (h : TookDirect own own' v v' l D a) (ha : DataBlock a) :
    v'.disk 0 = v.disk 0 := by
  refine h.frame 0 (by decide) (zero_ne_inodeBlock h.mapped.lt) (fun ho => h.acct.ne_zero ho rfl) ?_
  rintro rfl
  exact not_dataBlock_zero ha

/-- The removal that finds its entry keeps the map and lowers the size. -/
structure Shrank (own : Owners) (v v' : Vol) (l : List UInt32) (D : UInt32) : Prop where
  acct : Accounted own v' l
  mapped : Mapped own v'.disk D
  size : (inodeAt v'.disk D).icSize.toNat + 32 = (inodeAt v.disk D).icSize.toNat
  map : inodeAt v'.disk D = { inodeAt v.disk D with icSize := (inodeAt v'.disk D).icSize }
  zero : v'.disk 0 = v.disk 0
  works : ¬Failed v → ¬Failed v'

theorem Mapped.shrinks (hd : Mapped own v.disk D) (ha : Accounted own v l) {cwd : UInt32} {ai : ActiveInodes}
    {child : DirEnt} {s : CStr} (hfound : (Fs.remove v cwd ai child (dirInode v D) s).ino ≠ noAddr) :
    Shrank own v (dirStep D v (.remove cwd ai child s)) l D := by
  have hcount := blockCount_dir hd.dir
  have h32 := hd.aligned
  change Shrank own v (Fs.remove v cwd ai child (dirInode v D) s).vol l D
  rw [hd.dirInode_eq ha.formatted] at hfound ⊢
  rcases remove_found ha hd cwd ai child s with ⟨hno, -⟩ | ⟨b, hb, x, size, hsize, hv⟩
  · exact absurd hno hfound
  have hb' : b < max 1 (blockCount (inodeAt v.disk D)) := by omega
  obtain ⟨ha', hd'⟩ := hd.resized ha hb' x (show size.toNat % 32 = 0 by omega) (by omega)
  have hic := hd.inodeAt_resized ha b x size
  have hworks : ¬Failed v → ¬Failed (Fs.remove v cwd ai child ⟨D, 0, inodeAt v.disk D⟩ s).vol :=
    not_failed_remove cwd ai child _ s
  rw [hv] at hworks ⊢
  refine ⟨ha', hd', ?_, ?_, ?_, hworks⟩
  · rw [hic]
    exact hsize
  · rw [hic]
  · exact hd.resized_disk ha x size (zero_ne_inodeBlock hd.lt) (ha.ne_zero (hd.maps.data b hb'))

theorem Referenced.of_setDb {d d' : Image} {ic ic' : ICommon} {i : Nat} {x y : UInt32} (hne : x ≠ y)
    (hdb : ∀ j < 11, ic'.db j = if j = i then y else ic.db j) (hib : ic'.ib 0 = ic.ib 0)
    (hd : d' (ic.ib 0) = d (ic.ib 0)) (h : Referenced d' ic' x) : Referenced d ic x := by
  rcases h with ⟨j, hj, hmap⟩ | hx
  · refine .inl ⟨j, hj, ?_⟩
    unfold mapAddr at hmap ⊢
    by_cases h11 : j < 11
    · rw [if_pos h11, hdb j h11] at hmap
      split at hmap
      · exact absurd hmap.symm hne
      · rw [if_pos h11]
        exact hmap
    · rw [if_neg h11, hib, hd] at hmap
      rw [if_neg h11]
      exact hmap
  · exact .inr (hib.symm.trans hx)

theorem Mapped.loses (hd : Mapped own v.disk D) {b : UInt32} (ha : Accounted own v (a :: b :: l))
    (ht : takesBlock (inodeAt v.disk D)) (h11 : (inodeAt v.disk D).icSize.toNat / 512 < 11)
    (hib : (inodeAt v.disk D).ib 0 = 0) (hnot : ¬Referenced v.disk (inodeAt v.disk D) a) {ino cwd : UInt32}
    {name s : CStr} {ai : ActiveInodes} {child : DirEnt} (ino' : UInt32) (name' : CStr)
    (hfound : (Fs.remove (dirStep D v (.add ino name)) cwd ai child (dirInode (dirStep D v (.add ino name)) D) s).ino ≠
      noAddr) :
    (¬Failed v → ¬Failed (run (dirStep D) v [.add ino name, .remove cwd ai child s, .add ino' name'])) ∧
    ¬NothingLost (a :: b :: l) (run (dirStep D) v [.add ino name, .remove cwd ai child s, .add ino' name']) D := by
  have hnodup := List.nodup_cons.mp ha.free.nodup
  obtain ⟨own₁, h₁⟩ := hd.takes ha ht h11 ino name
  simp only [run_cons, run_nil]
  generalize dirStep D v (.add ino name) = v₁ at hfound h₁ ⊢
  have h₂ := h₁.mapped.shrinks h₁.acct hfound
  generalize dirStep D v₁ (.remove cwd ai child s) = v₂ at h₂ ⊢
  -- the size is what it was before, so the index is too
  have hsize : (inodeAt v₂.disk D).icSize.toNat = (inodeAt v.disk D).icSize.toNat := by
    have h := h₂.size
    rw [h₁.inode] at h
    change _ = ((inodeAt v.disk D).icSize + 32).toNat at h
    rw [UInt32.toNat_add, show (32 : UInt32).toNat = 32 from rfl, Nat.mod_eq_of_lt (by omega)] at h
    omega
  obtain ⟨own₃, h₃⟩ := h₂.mapped.takes h₂.acct (by unfold takesBlock at ht ⊢; rwa [hsize]) (by omega) ino' name'
  generalize dirStep D v₂ (.add ino' name') = v₃ at h₃ ⊢
  have hzero : v₃.disk 0 = v.disk 0 := by
    rw [h₃.disk_zero (ha.free.area b (by simp)), h₂.zero, h₁.disk_zero (ha.free.area a (by simp))]
  refine ⟨fun hf => h₃.works (h₂.works (h₁.works hf)), ?_⟩
  rintro ⟨l', hl', hall⟩
  obtain rfl := hl'.unique h₃.acct.free
  obtain hmem | href := hall a List.mem_cons_self
  · exact absurd (List.mem_cons_of_mem _ hmem) hnodup.1
  refine hnot (href.of_setDb (i := (inodeAt v.disk D).icSize.toNat / 512)
    (fun hab => hnodup.1 (hab ▸ List.mem_cons_self)) (fun j hj => ?_) ?_ (by rw [hib, hzero]))
  · rw [h₃.inode, hsize]
    change (ICommon.setDb _ _ _).db j = _
    split
    · next he => rw [he, ICommon.db_setDb_self _ _ h11]
    · next hne =>
      rw [ICommon.db_setDb_ne _ _ hne, h₂.map, h₁.inode]
      exact ICommon.db_setDb_ne _ _ hne
  · rw [h₃.inode, h₂.map, h₁.inode]
    rfl

theorem remove_finds (ha : Accounted own v l) (hd : Mapped own v.disk D) {cwd : UInt32} {ai : ActiveInodes}
    (child : DirEnt) {s : CStr} {e : Nat} (he : e < scanLimit (entryCount (inodeAt v.disk D)))
    (hmatch : nameMatch s (entryBlock v.disk (inodeAt v.disk D) e) (e % 16) = true)
    (hrem : removable v cwd ai (dirEntry v.disk (inodeAt v.disk D) e) ≠ noAddr) :
    (Fs.remove v cwd ai child (dirInode v D) s).ino ≠ noAddr := by
  have hmaps := hd.maps.le (Nat.le_max_right _ _)
  rw [hd.dirInode_eq ha.formatted]
  unfold Fs.remove
  dsimp only
  split
  · next addr dir j hscan =>
    obtain ⟨-, -, -, -, -, hp⟩ := scanDir_entry ha hmaps hd.dir hscan
    rw [Bool.and_eq_true, bne_iff_ne] at hp
    exact (removable_ne hp.2).1
  · next hscan =>
    rw [scanDir_plan ha hmaps hd.dir, Option.map_eq_none_iff, List.find?_eq_none] at hscan
    have := hscan e (List.mem_range.mpr he)
    rw [Bool.and_eq_true, bne_iff_ne] at this
    exact absurd ⟨hmatch, hrem⟩ this

end

/-! Sixteen entries in one block. -/

theorem getDir_foldl (f : Nat → DirEnt) {n k : Nat} (hn : n ≤ 16) (hk : k < n) :
    getDir ((List.range n).foldl (fun b k => setDir b k (f k)) zeroBlock) k = f k := by
  induction n with
  | zero => omega
  | succ n ih =>
    rw [List.range_succ, List.foldl_append, List.foldl_cons, List.foldl_nil]
    by_cases he : k = n
    · rw [he, getDir_setDir_self _ _ (by omega)]
    · rw [getDir_setDir_ne _ _ (by omega) he, ih (by omega) (by omega)]

theorem getIc_foldl (f : Nat → ICommon) {n k : Nat} (hn : n ≤ 8) (hk : k < n) :
    getIc ((List.range n).foldl (fun b k => setIc b k (f k)) zeroBlock) k = f k := by
  induction n with
  | zero => omega
  | succ n ih =>
    rw [List.range_succ, List.foldl_append, List.foldl_cons, List.foldl_nil]
    by_cases he : k = n
    · rw [he, getIc_setIc_self _ _ (by omega)]
    · rw [getIc_setIc_ne _ _ (by omega) he, ih (by omega) (by omega)]

/-- The root directory itself, and `a` to `o` for the inodes 1 to 15. -/
def sixteenEntry (k : Nat) : DirEnt :=
  ⟨UInt32.ofNat k, 1, Vector.replicate 26 (if k = 0 then dot else UInt8.ofNat (96 + k))⟩

def sixteenIc (k : Nat) : ICommon :=
  if k = 0 then ⟨Mode.ifdir.code, 512, Vector.replicate 11 70, Vector.replicate 3 0⟩
  else ⟨Mode.ifreg.code, 0, Vector.replicate 11 (80 + UInt32.ofNat k), Vector.replicate 3 0⟩

/-- The volume `v` with a root directory whose one block is full. -/
def sixteenVol (v : Vol) : Vol := { v with
  disk := fun a =>
    if a = 2 then (List.range 8).foldl (fun b k => setIc b k (sixteenIc k)) zeroBlock
    else if a = 3 then (List.range 8).foldl (fun b k => setIc b k (sixteenIc (8 + k))) zeroBlock
    else if a = 70 then (List.range 16).foldl (fun b k => setDir b k (sixteenEntry k)) zeroBlock
    else v.disk a
  trace := [] }

def sixteenOwn : Owners := Function.update (fun _ => none) 70 (some (0, .data 0))

section

variable {v : Vol}

theorem sixteenVol_inode {k : UInt32} (hk : k.toNat < 8) : inodeAt (sixteenVol v).disk k = sixteenIc k.toNat := by
  have hblock : inodeBlock k = 2 := by
    unfold inodeBlock
    rw [show k.toNat / 8 = 0 by omega]
    rfl
  have hic := getIc_foldl sixteenIc (le_refl 8) hk
  unfold inodeAt
  rw [hblock, show k.toNat % 8 = k.toNat by omega]
  exact hic

theorem sixteenVol_accounted (h : Blank 2 v) : Accounted sixteenOwn (sixteenVol v) [67, 66] := by
  obtain ⟨⟨hf, hl⟩, -, -⟩ := h
  refine ⟨hf.of_header rfl fun _ _ => rfl, hl.frame fun a ha => ?_, fun a o ho => ?_⟩
  · rw [mem_rangeStack (by omega)] at ha
    have hne : ∀ b : UInt32, b.toNat < 66 ∨ 68 ≤ b.toNat → a ≠ b := by
      rintro b hb rfl
      omega
    change (if a = 2 then _ else if a = 3 then _ else if a = 70 then _ else v.disk a) = _
    rw [if_neg (hne 2 (by decide)), if_neg (hne 3 (by decide)), if_neg (hne 70 (by decide))]
  · by_cases ha : a = 70
    · rw [ha]
      exact ⟨⟨by decide, by decide⟩, by decide⟩
    · rw [sixteenOwn, Function.update_of_ne ha] at ho
      cases ho

theorem sixteenVol_mapped : Mapped sixteenOwn (sixteenVol v).disk 0 := by
  have hic : inodeAt (sixteenVol v).disk 0 = sixteenIc 0 := sixteenVol_inode (by decide)
  refine ⟨by decide, ?_, ?_, ?_⟩ <;> rw [hic]
  · rfl
  · decide
  · refine ⟨by decide, fun i hi => ?_, fun h11 => absurd h11 (by decide)⟩
    have hi0 : i = 0 := by
      have : max 1 (blockCount (sixteenIc 0)) = 1 := by decide
      omega
    rw [hi0]
    exact Function.update_self _ _ _

theorem sixteenVol_entry {v' : Vol} {ic : ICommon} (hic : ic.db 0 = 70) (hd : v'.disk 70 = (sixteenVol v).disk 70) :
    dirEntry v'.disk ic 1 = sixteenEntry 1 := by
  have hblock : mapAddr v'.disk ic (1 / 16) = 70 := hic
  unfold dirEntry
  rw [hblock, hd]
  exact getDir_foldl sixteenEntry (le_refl 16) (by omega)

theorem sixteenVol_unreferenced (h : Blank 2 v) :
    ¬Referenced (sixteenVol v).disk (inodeAt (sixteenVol v).disk 0) 67 := by
  have hzero : (sixteenVol v).disk 0 = zeroBlock := h.blank 0 (by decide) fun j hj hmod => by omega
  rw [show inodeAt (sixteenVol v).disk 0 = sixteenIc 0 from sixteenVol_inode (by decide)]
  rintro (⟨j, -, hmap⟩ | hib)
  · unfold mapAddr at hmap
    split at hmap
    · next h11 =>
      have hdb : (sixteenIc 0).db j = 70 := by simp [sixteenIc, ICommon.db, h11]
      rw [hdb] at hmap
      exact absurd hmap (by decide)
    · rw [show (sixteenIc 0).ib 0 = 0 from rfl, hzero, word_zeroBlock] at hmap
      exact absurd hmap (by decide)
  · exact absurd (show (0 : UInt32) = 67 from hib) (by decide)

theorem inAit_blank (ino : UInt32) : inAit (fun _ => blankInode) ino = false := by
  have hmode : (blankInode.iIc.icMode != Mode.ifzero.code) = false := by
    rw [bne_eq_false_iff_eq]
    exact word_zeroBlock _
  unfold inAit
  simp [hmode]

theorem sixteenVol_found (h : Blank 2 v) (ino : UInt32) (name : CStr) :
    (Fs.remove (dirStep 0 (sixteenVol v) (.add ino name)) 0 (fun _ => blankInode) (sixteenEntry 0)
      (dirInode (dirStep 0 (sixteenVol v) (.add ino name)) 0) [97]).ino ≠ noAddr := by
  have hic : inodeAt (sixteenVol v).disk 0 = sixteenIc 0 := sixteenVol_inode (by decide)
  have hone : inodeAt (sixteenVol v).disk 1 = sixteenIc 1 := sixteenVol_inode (by decide)
  obtain ⟨own', ht⟩ := sixteenVol_mapped.takes (sixteenVol_accounted h) (by rw [hic]; decide) (by rw [hic]; decide) ino name
  generalize dirStep 0 (sixteenVol v) (.add ino name) = v' at ht ⊢
  have hic' := ht.inode
  rw [hic] at hic'
  have hdb : (inodeAt v'.disk 0).db 0 = 70 := by rw [hic']; rfl
  have hown : own' 70 = some (0, .data 0) := ht.ext _ _ (Function.update_self _ _ _)
  have hentry := sixteenVol_entry hdb (ht.frame 70 (by decide) (by decide) (by simp [hown]) (by decide))
  have his : (dirEntry v'.disk (inodeAt v'.disk 0) 1).Is 1 [97] := by
    rw [hentry]
    exact ⟨rfl, rfl, by decide⟩
  refine remove_finds ht.acct ht.mapped _ (e := 1) ?_ ?_ ?_
  · rw [hic']
    decide
  · exact (nameMatch_iff his ⟨by decide, by decide, by decide⟩ (by decide)).mpr (.inl rfl)
  · have hmode : (readInode v' ⟨0, 0, v'.stkIc⟩ 1).iIc.icMode = Mode.ifreg.code := by
      rw [readInode_eq ht.acct.formatted (by decide), ht.inodes 1 (by decide) (by decide), hone]
      rfl
    rw [hentry]
    unfold removable
    rw [if_neg (by decide), inAit_blank, if_neg Bool.false_ne_true]
    dsimp only
    rw [if_neg fun hdir => absurd (hmode.symm.trans hdir.1) (by decide)]
    decide

theorem sixteenVol_loses (h : Blank 2 v) :
    ¬Failed (run (dirStep 0) (sixteenVol v) [.add 16 [112], .remove 0 (fun _ => blankInode) (sixteenEntry 0) [97],
      .add 16 [97]]) ∧
    ¬NothingLost [67, 66] (run (dirStep 0) (sixteenVol v) [.add 16 [112],
      .remove 0 (fun _ => blankInode) (sixteenEntry 0) [97], .add 16 [97]]) 0 := by
  have hic : inodeAt (sixteenVol v).disk 0 = sixteenIc 0 := sixteenVol_inode (by decide)
  obtain ⟨hworks, hlost⟩ := sixteenVol_mapped.loses (sixteenVol_accounted h) (by rw [hic]; decide)
    (by rw [hic]; decide) (by rw [hic]; rfl) (sixteenVol_unreferenced h) 16 [97]
    (sixteenVol_found h 16 [112])
  exact ⟨hworks (not_failed_of_trace rfl), hlost⟩

theorem sixteenVol_works (h : Blank 2 v) : ¬Failed (run (dirStep 0) (sixteenVol v) [.add 16 [112],
    .remove 0 (fun _ => blankInode) (sixteenEntry 0) [97]]) := by
  intro hf
  refine (sixteenVol_loses h).1 (hf.later ?_)
  exact later_addInodeToDirectory ..

end

/-- A second block is taken, and stays in the map when an entry goes. -/
theorem regrow_loses_nothing_sixteen : NothingLost [67, 66] (run (dirStep 0) (sixteenVol (freeRange fullVol 2))
    [.add 16 [112], .remove 0 (fun _ => blankInode) (sixteenEntry 0) [97]]) 0 := by
  have h := blank_freeRange (n := 2) (by omega)
  have hic : inodeAt (sixteenVol (freeRange fullVol 2)).disk 0 = sixteenIc 0 := sixteenVol_inode (by decide)
  refine regrow_loses_nothing (sixteenVol_accounted h) sixteenVol_mapped ⟨⟨?_, fun _ => Nat.zero_le _⟩, trivial, trivial⟩
    (sixteenVol_works h)
  rw [hic]
  decide

/-- Seventeen entries, sixteen, and seventeen again: two blocks are taken for
the second index, and the first of them is lost. -/
theorem regrow_loses_block :
    Accounted sixteenOwn (sixteenVol (freeRange fullVol 2)) [67, 66] ∧
    Mapped sixteenOwn (sixteenVol (freeRange fullVol 2)).disk 0 ∧
    (Fs.remove (dirStep 0 (sixteenVol (freeRange fullVol 2)) (.add 16 [112])) 0 (fun _ => blankInode)
      (sixteenEntry 0) (dirInode (dirStep 0 (sixteenVol (freeRange fullVol 2)) (.add 16 [112])) 0) [97]).ino ≠ noAddr ∧
    ¬Failed (run (dirStep 0) (sixteenVol (freeRange fullVol 2)) [.add 16 [112],
      .remove 0 (fun _ => blankInode) (sixteenEntry 0) [97], .add 16 [97]]) ∧
    ¬NothingLost [67, 66] (run (dirStep 0) (sixteenVol (freeRange fullVol 2)) [.add 16 [112],
      .remove 0 (fun _ => blankInode) (sixteenEntry 0) [97], .add 16 [97]]) 0 := by
  have h := blank_freeRange (n := 2) (by omega)
  exact ⟨sixteenVol_accounted h, sixteenVol_mapped, sixteenVol_found h 16 [112], sixteenVol_loses h⟩

end ArmKernel.Fs
