import ArmKernel.Fs.Removal

/-! Trees in which everything can be reached from the root. Creating, removing
and moving a file keep this; moving is a removal and a creation of the same
inode. -/
namespace ArmKernel.Fs

open Lib Lib.Bytes SuperBlock

/-- Inodes that are found from the root through entries other than `.` and
`..`. -/
inductive Shape.Reach (S : Shape) : UInt32 → Prop
  | root : S.Reach rootDir
  | entry {D : UInt32} {j : Nat} (hD : S.Reach D) (hp : S.Proper D j) : S.Reach (S.entry D j).dIno

/-- Every directory but the root is found, its `.` names itself, and its `..`
names the one directory its own entry is in. -/
def Shape.ParentLinks (S : Shape) : Prop :=
  ∀ D, S.Dir D → D ≠ rootDir → S.Reach D ∧ 2 ≤ S.count D ∧ (S.entry D 0).Is D [dot] ∧
    ∃ p, (S.entry D 1).Is p [dot, dot] ∧ (∃ j, S.Proper p j ∧ (S.entry p j).dIno = D) ∧
      ∀ q j, S.Proper q j → (S.entry q j).dIno = D → q = p

structure Rooted (S : Shape) : Prop where
  tree : Tree S
  reach : ∀ i, S.Live i → S.Reach i

section

variable {S S' : Shape} {p q i m : UInt32} {j : Nat} {c : UInt8} {name : CStr}

theorem Rooted.parentLinks (h : Rooted S) : S.ParentLinks := by
  intro D hD hne
  obtain ⟨h2, h0, p, j, h1, hp, he⟩ := h.tree.dots D hD hne
  refine ⟨h.reach D hD.live, h2, h0, p, h1, ⟨j, hp, he⟩, fun q i hq hi => ?_⟩
  exact (h.tree.once _ _ _ _ hq hp (hi.trans he.symm)).1

theorem Rooted.grow (h : Rooted S) (hg : S.Grown S' p i m (c :: name)) (hc : c ≠ dot)
    (hm : m = Mode.ifdir.code ∨ m = Mode.ifreg.code) : Rooted S' := by
  have hreach : ∀ k, S.Reach k → S'.Reach k := by
    intro k hk
    induction hk with
    | root => exact .root
    | @entry D j hD hp ih =>
      obtain ⟨hp', he⟩ := hg.proper hp
      rw [← he]
      exact .entry ih hp'
  refine ⟨h.tree.grow hg hc hm, fun k hk => ?_⟩
  by_cases hki : k = i
  · rw [hki, ← hg.new.ino]
    exact .entry (hreach p (h.reach p hg.parent.live)) (hg.new_proper hc)
  · rw [Shape.Live, hg.mode, if_neg hki] at hk
    exact hreach k (h.reach k hk)

theorem Rooted.cut (h : Rooted S) (hc : S.Cut S' p j) (hj : (S.entry p j).initial ≠ dot)
    (hpc : p ≠ (S.entry p j).dIno) (hempty : S.Dir (S.entry p j).dIno → S.count (S.entry p j).dIno ≤ 2) :
    Rooted S' := by
  have hcroot := (h.tree.names p j hc.entryOf).2
  have hreach : ∀ i, S.Reach i → i ≠ (S.entry p j).dIno → S'.Reach i := by
    intro i hi
    induction hi with
    | root => exact fun _ => .root
    | @entry D k hD hp ih =>
      intro hne
      have hDc : D ≠ (S.entry p j).dIno := by
        rintro rfl
        exact h.tree.not_proper hcroot (hempty hp.dir) hp
      have hkept : ¬(D = p ∧ k = j) := by
        rintro ⟨rfl, rfl⟩
        exact hne rfl
      obtain ⟨k', hp', he⟩ := hc.moved hp hDc hkept
      rw [← he]
      exact .entry (ih hDc) hp'
  refine ⟨h.tree.cut hc hj hpc hempty, fun i hi => ?_⟩
  obtain ⟨hlive, hne⟩ := hc.live.mp hi
  exact hreach i (h.reach i hlive) hne

/-! A regular file goes to another directory. -/

/-- The entry `j` of directory `p` becomes the last one of directory `q`, under
a name of its own. -/
structure Shape.Moved (S S' : Shape) (p : UInt32) (j : Nat) (q : UInt32) (name : CStr) : Prop where
  entryOf : S.Proper p j
  regular : S.mode (S.entry p j).dIno = Mode.ifreg.code
  target : S.Dir q
  ne : q ≠ p
  mode : ∀ i, S'.mode i = S.mode i
  count : ∀ D, S.Dir D → S'.count D =
    if D = p then S.count D - 1 else S.count D + if D = q then 1 else 0
  entry : ∀ D i, S.Dir D → i < (if D = p then S.count D - 1 else S.count D) →
    S'.entry D i = S.entry D (if D = p then swapIndex (S.count p) j i else i)
  new : (S'.entry q (S.count q)).Is (S.entry p j).dIno name

structure Shape.Shifted (S S' : Shape) (p : UInt32) (j : Nat) (q : UInt32) (name : CStr) : Prop where
  mode : ∀ i, S'.mode i = S.mode i
  count : ∀ D, S.Dir D → S'.count D =
    if D = p then S.count D - 1 else S.count D + if D = q then 1 else 0
  entry : ∀ D i, S.Dir D → i < (if D = p then S.count D - 1 else S.count D) →
    S'.entry D i = S.entry D (if D = p then swapIndex (S.count p) j i else i)
  new : (S'.entry q (S.count q)).Is (S.entry p j).dIno name

def Shape.without (S : Shape) (p : UInt32) (j : Nat) : Shape where
  mode := fun i => if i = (S.entry p j).dIno then Mode.ifzero.code else S.mode i
  count := fun D => if D = p then S.count D - 1 else S.count D
  entry := fun D i => S.entry D (if D = p then swapIndex (S.count p) j i else i)

theorem Shape.cut_without (hp : S.Proper p j) : S.Cut (S.without p j) p j :=
  ⟨hp, fun _ => rfl, fun _ _ => rfl, fun _ _ _ _ => rfl⟩

theorem Shape.Moved.not_dir (h : S.Moved S' p j q name) {D : UInt32} (hD : S.Dir D) : D ≠ (S.entry p j).dIno := by
  rintro rfl
  rw [Shape.Dir, h.regular] at hD
  exact absurd hD (by decide)

theorem Shape.Moved.grown (h : S.Moved S' p j q name) :
    (S.without p j).Grown S' q (S.entry p j).dIno Mode.ifreg.code name := by
  have hcut := Shape.cut_without h.entryOf
  have hcount : (S.without p j).count q = S.count q := if_neg h.ne
  refine ⟨hcut.dir.mpr ⟨h.target, h.not_dir h.target⟩, ?_, fun i => ?_, fun D hD => ?_, fun D i hD hi => ?_, ?_,
    fun hm => absurd hm (by decide)⟩
  · rw [hcut.live]
    exact fun hlive => hlive.2 rfl
  · rw [h.mode]
    change S.mode i = if _ then _ else if _ then _ else _
    split
    · next hi => rw [hi, h.regular]
    · rfl
  · rw [h.count D (hcut.dir.mp hD).1]
    change _ = (if D = p then _ else _) + _
    split
    · next hDp => rw [if_neg (by rw [hDp]; exact h.ne.symm), Nat.add_zero]
    · rfl
  · exact h.entry D i (hcut.dir.mp hD).1 hi
  · rw [hcount]
    exact h.new

theorem Tree.move (h : Tree S) (hm : S.Moved S' p j q (c :: name)) (hj : (S.entry p j).initial ≠ dot)
    (hc : c ≠ dot) : Tree S' := by
  have hcut := h.cut (Shape.cut_without hm.entryOf) hj (hm.not_dir hm.entryOf.dir)
    fun hD => absurd rfl (hm.not_dir hD)
  exact hcut.grow hm.grown hc (.inr rfl)

theorem Rooted.move (h : Rooted S) (hm : S.Moved S' p j q (c :: name)) (hj : (S.entry p j).initial ≠ dot)
    (hc : c ≠ dot) : Rooted S' := by
  have hcut := h.cut (Shape.cut_without hm.entryOf) hj (hm.not_dir hm.entryOf.dir)
    fun hD => absurd rfl (hm.not_dir hD)
  exact hcut.grow hm.grown hc (.inr rfl)

end

/-! The same on disk. -/

section

variable {own own' : Owners} {v v₁ v₂ : Vol} {l l' : List UInt32} {p q : UInt32} {e : Nat} {name : CStr}

theorem shape_shifted (h : Consistent own v l) (hp : (shape v.disk).Proper p e)
    (hq : (shape v.disk).Dir q) (hne : q ≠ p) (hu : Unlisted own v v₁ l p e)
    (ha : Appended own own' v₁ v₂ l l' q (dirEntry v.disk (inodeAt v.disk p) e).dIno name) :
    (shape v.disk).Shifted (shape v₂.disk) p e q name := by
  obtain ⟨hplt, hpmode⟩ := mode_of_dir hp.dir
  obtain ⟨hqlt, hqmode⟩ := mode_of_dir hq
  have hqsame : inodeAt v₁.disk q = inodeAt v.disk q := hu.inodes q hqlt hne
  have hpsame : inodeAt v₂.disk p = inodeAt v₁.disk p := ha.inodes p hplt hne.symm
  have hother : ∀ j, j.toNat < 512 → j ≠ p → j ≠ q → inodeAt v₂.disk j = inodeAt v.disk j :=
    fun j hj h1 h2 => by rw [ha.inodes j hj h2, hu.inodes j hj h1]
  -- the entries of a directory other than the destination, after the addition
  have hkept : ∀ D ic i, D ≠ q → Maps own v₁.disk D ic (blockCount ic) →
      ic.icMode = Mode.ifdir.code → i < entryCount ic → dirEntry v₂.disk ic i = dirEntry v₁.disk ic i := by
    intro D ic i hDq hm hmode hi
    refine dirEntry_frame hm (div_lt_blockCount_of_entry hmode hi) fun x r hx => ?_
    refine ha.frame x (hu.good.acct.owned _ _ hx).1 fun r' => ?_
    rw [ha.ext _ _ hx]
    simp [hDq]
  refine ⟨fun i => ?_, fun D hD => ?_, fun D i hD hi => ?_, ?_⟩
  · by_cases hi : i.toNat < 512
    · rw [shape_mode hi, shape_mode hi]
      by_cases hip : i = p
      · rw [hip, hpsame, hu.mode]
      · by_cases hiq : i = q
        · rw [hiq, ha.mode, hqsame]
        · rw [hother i hi hip hiq]
    · simp [shape, hi]
  · change entryCount (inodeAt v₂.disk D) = if D = p then entryCount (inodeAt v.disk D) - 1
      else entryCount (inodeAt v.disk D) + if D = q then 1 else 0
    split
    · next hDp => rw [hDp, hpsame, hu.entryCount]
    · next hDp =>
      split
      · next hDq =>
        rw [hDq]
        unfold entryCount
        rw [ha.size, hqsame]
        omega
      · next hDq => rw [hother D (mode_of_dir hD).1 hDp hDq, Nat.add_zero]
  · obtain ⟨hDlt, hDmode⟩ := mode_of_dir hD
    change i < (if D = p then entryCount (inodeAt v.disk D) - 1 else entryCount (inodeAt v.disk D)) at hi
    change dirEntry v₂.disk (inodeAt v₂.disk D) i = dirEntry v.disk (inodeAt v.disk D) _
    by_cases hDp : D = p
    · subst hDp
      rw [if_pos rfl] at hi ⊢
      have hmode₁ : (inodeAt v₁.disk D).icMode = Mode.ifdir.code := hu.mode.trans hDmode
      have hcount₁ : i < entryCount (inodeAt v₁.disk D) := by
        rw [hu.entryCount]
        exact hi
      rw [hpsame, hkept D _ i hne.symm (hu.good.maps D hDlt (by rw [hmode₁]; decide)) hmode₁ hcount₁]
      exact hu.entry i hi
    · rw [if_neg hDp] at hi ⊢
      have hframe : dirEntry v₁.disk (inodeAt v.disk D) i = dirEntry v.disk (inodeAt v.disk D) i :=
        dirEntry_frame (h.navigable.maps hD.live) (div_lt_blockCount_of_entry hDmode hi) fun x r hx =>
          hu.frame x D r hx hDp
      by_cases hDq : D = q
      · subst hDq
        rw [ha.old i (by rw [hqsame]; exact hi), hqsame, hframe]
      · have hsame₁ : inodeAt v₁.disk D = inodeAt v.disk D := hu.inodes D hDlt hDp
        have hm₁ := hu.good.maps D hDlt (by rw [hsame₁, hDmode]; decide)
        rw [hsame₁] at hm₁
        rw [hother D hDlt hDp hDq, hkept D _ i hDq hm₁ hDmode hi, hframe]
  · change (dirEntry v₂.disk (inodeAt v₂.disk q) (entryCount (inodeAt v.disk q))).Is _ name
    rw [← hqsame]
    exact ha.new

theorem shape_moved (h : Consistent own v l) (hp : (shape v.disk).Proper p e)
    (hreg : (shape v.disk).mode (dirEntry v.disk (inodeAt v.disk p) e).dIno = Mode.ifreg.code)
    (hq : (shape v.disk).Dir q) (hne : q ≠ p) (hu : Unlisted own v v₁ l p e)
    (ha : Appended own own' v₁ v₂ l l' q (dirEntry v.disk (inodeAt v.disk p) e).dIno name) :
    (shape v.disk).Moved (shape v₂.disk) p e q name := by
  have hs := shape_shifted h hp hq hne hu ha
  exact ⟨hp, hreg, hq, hne, hs.mode, hs.count, hs.entry, hs.new⟩

end

end ArmKernel.Fs
