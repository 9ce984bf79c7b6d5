import ArmKernel.Fs.Append
import Mathlib.Order.Interval.Finset.Nat

/-! The directory tree, apart from where it is stored. A shape gives the mode,
the number of entries and the entries of every inode; creating, adding and
removing are relations between shapes, and each keeps the tree. -/
namespace ArmKernel.Fs

open Lib Lib.Bytes

structure Shape where
  mode : UInt32 → UInt32
  count : UInt32 → Nat
  entry : UInt32 → Nat → DirEnt

namespace Shape

def Live (S : Shape) (i : UInt32) : Prop := S.mode i ≠ Mode.ifzero.code

def Dir (S : Shape) (i : UInt32) : Prop := S.mode i = Mode.ifdir.code

theorem Dir.live {S : Shape} {i : UInt32} (h : S.Dir i) : S.Live i := by
  unfold Live
  rw [show S.mode i = _ from h]
  decide

end Shape

def DirEnt.Dots (e : DirEnt) : Prop :=
  (e.dNamlen = 1 ∧ e.dName[0]? = some dot) ∨
    (e.dNamlen = 2 ∧ e.dName[0]? = some dot ∧ e.dName[1]? = some dot)

theorem DirEnt.initial_eq (e : DirEnt) : e.dName[0]? = some e.initial := by
  simp [DirEnt.initial]

theorem DirEnt.Dots.initial {e : DirEnt} (h : e.Dots) : e.initial = dot := by
  have h0 : e.dName[0]? = some dot := by
    rcases h with h | h
    · exact h.2
    · exact h.2.1
  rw [e.initial_eq] at h0
  simpa using h0

theorem DirEnt.Dots.namlen {e : DirEnt} (h : e.Dots) : e.dNamlen ≠ 0 := by
  rcases h with h | h
  · rw [h.1]
    decide
  · rw [h.1]
    decide

theorem DirEnt.Is.initial {e : DirEnt} {ino : UInt32} {c : UInt8} {name : CStr}
    (h : e.Is ino (c :: name)) : e.initial = c := by
  have := h.name 0 (by simp)
  rw [e.initial_eq] at this
  simpa using this

theorem DirEnt.Is.dots_one {e : DirEnt} {ino : UInt32} (h : e.Is ino [dot]) : e.Dots :=
  .inl ⟨h.namlen, by simpa using h.name 0 (by simp)⟩

theorem DirEnt.Is.dots_two {e : DirEnt} {ino : UInt32} (h : e.Is ino [dot, dot]) : e.Dots :=
  .inr ⟨h.namlen, by simpa using h.name 0 (by simp), by simpa using h.name 1 (by simp)⟩

structure Shape.Proper (S : Shape) (D : UInt32) (j : Nat) : Prop where
  dir : S.Dir D
  lt : j < S.count D
  proper : ¬(S.entry D j).Dots

structure Tree (S : Shape) : Prop where
  kinds : ∀ i, S.Live i → S.Dir i ∨ S.mode i = Mode.ifreg.code
  root : S.Dir rootDir
  rootDot : 1 ≤ S.count rootDir ∧ (S.entry rootDir 0).Is rootDir [dot]
  names : ∀ D j, S.Proper D j → S.Live (S.entry D j).dIno ∧ (S.entry D j).dIno ≠ rootDir
  named : ∀ i, S.Live i → i ≠ rootDir → ∃ D j, S.Proper D j ∧ (S.entry D j).dIno = i
  once : ∀ D j D' j', S.Proper D j → S.Proper D' j' →
    (S.entry D j).dIno = (S.entry D' j').dIno → D = D' ∧ j = j'
  dots : ∀ D, S.Dir D → D ≠ rootDir → 2 ≤ S.count D ∧ (S.entry D 0).Is D [dot] ∧
    ∃ p j, (S.entry D 1).Is p [dot, dot] ∧ S.Proper p j ∧ (S.entry p j).dIno = D
  plain : ∀ D j, S.Dir D → j < S.count D → (S.entry D j).initial = dot →
    j < 2 ∧ (D = rootDir → j = 0)

section

variable {S S' : Shape} {p i : UInt32} {name : CStr}

theorem Tree.dots_of_initial (h : Tree S) {D : UInt32} {j : Nat} (hD : S.Dir D) (hj : j < S.count D)
    (hi : (S.entry D j).initial = dot) : (S.entry D j).Dots := by
  obtain ⟨hj2, hroot⟩ := h.plain D j hD hj hi
  by_cases hr : D = rootDir
  · rw [hroot hr, hr]
    exact h.rootDot.2.dots_one
  · obtain ⟨-, h0, q, k, h1, -⟩ := h.dots D hD hr
    match j, hj2 with
    | 0, _ => exact h0.dots_one
    | 1, _ => exact h1.dots_two

theorem Tree.entry_live (h : Tree S) {D : UInt32} {j : Nat} (hD : S.Dir D) (hj : j < S.count D) :
    S.Live (S.entry D j).dIno := by
  by_cases hdots : (S.entry D j).Dots
  · obtain ⟨hj2, hroot⟩ := h.plain D j hD hj hdots.initial
    by_cases hr : D = rootDir
    · rw [hroot hr, hr, h.rootDot.2.ino]
      exact h.root.live
    · obtain ⟨-, h0, q, k, h1, hq, -⟩ := h.dots D hD hr
      match j, hj2 with
      | 0, _ =>
        rw [h0.ino]
        exact hD.live
      | 1, _ =>
        rw [h1.ino]
        exact hq.dir.live
  · exact (h.names D j ⟨hD, hj, hdots⟩).1

def Shape.Lists (S : Shape) (i : UInt32) : Prop := ∃ D, S.Dir D ∧ ∃ j < S.count D, (S.entry D j).dIno = i

theorem Tree.lists_iff (h : Tree S) (i : UInt32) : S.Lists i ↔ S.Live i := by
  constructor
  · rintro ⟨D, hD, j, hj, rfl⟩
    exact h.entry_live hD hj
  · intro hi
    by_cases hr : i = rootDir
    · rw [hr]
      exact ⟨rootDir, h.root, 0, h.rootDot.1, h.rootDot.2.ino⟩
    · obtain ⟨D, j, hp, he⟩ := h.named i hi hr
      exact ⟨D, hp.dir, j, hp.lt, he⟩

theorem Tree.entry_inj (h : Tree S) {D : UInt32} {j j' : Nat} (hD : S.Dir D) (hj : j < S.count D)
    (hj' : j' < S.count D) (he : S.entry D j = S.entry D j') : j = j' := by
  by_cases hdots : (S.entry D j).Dots
  · obtain ⟨hlt, hroot⟩ := h.plain D j hD hj hdots.initial
    obtain ⟨hlt', hroot'⟩ := h.plain D j' hD hj' (he ▸ hdots.initial)
    by_cases hr : D = rootDir
    · rw [hroot hr, hroot' hr]
    · obtain ⟨-, h0, q, k, h1, -⟩ := h.dots D hD hr
      have hne : S.entry D 0 ≠ S.entry D 1 := fun h01 => by
        have hlen := h1.namlen
        rw [← h01, h0.namlen] at hlen
        exact absurd hlen (by decide)
      match j, j', hlt, hlt' with
      | 0, 0, _, _ => rfl
      | 0, 1, _, _ => exact absurd he hne
      | 1, 0, _, _ => exact absurd he.symm hne
      | 1, 1, _, _ => rfl
  · exact (h.once D j D j' ⟨hD, hj, hdots⟩ ⟨hD, hj', he ▸ hdots⟩ (by rw [he])).2

theorem Tree.not_all_kept (h : Tree S) {D : UInt32} {n : Nat} (hD : S.Dir D) (hn : n < S.count D)
    (g : Nat → DirEnt) : ¬∀ e < S.count D, ∃ e' < n, g e' = S.entry D e := by
  intro hkept
  choose f hlt hf using fun e : Fin (S.count D) => hkept e e.isLt
  have hinj : Function.Injective fun e => (⟨f e, hlt e⟩ : Fin n) := by
    intro e e' hee
    have hfe : f e = f e' := congrArg Fin.val hee
    exact Fin.ext (h.entry_inj hD e.isLt e'.isLt ((hf e).symm.trans (hfe ▸ hf e')))
  have hcard := Fintype.card_le_of_injective _ hinj
  rw [Fintype.card_fin, Fintype.card_fin] at hcard
  omega

theorem Tree.not_proper (h : Tree S) {D : UInt32} {j : Nat} (hr : D ≠ rootDir)
    (hcount : S.count D ≤ 2) : ¬S.Proper D j := by
  rintro ⟨hD, hj, hdots⟩
  obtain ⟨-, h0, q, k, h1, -⟩ := h.dots D hD hr
  match j, (show j < 2 by omega) with
  | 0, _ => exact hdots h0.dots_one
  | 1, _ => exact hdots h1.dots_two

theorem Tree.count_le (h : Tree S) {F : Finset Nat} (hF : ∀ i, S.Live i → i.toNat ∈ F) {D : UInt32}
    (hD : S.Dir D) : S.count D ≤ F.card + 2 := by
  have hproper : ∀ j ∈ Finset.Ico 2 (S.count D), S.Proper D j := fun j hj => by
    obtain ⟨h2, hj⟩ := Finset.mem_Ico.mp hj
    refine ⟨hD, hj, fun hd => ?_⟩
    have := (h.plain D j hD hj hd.initial).1
    omega
  have hmaps : ∀ j ∈ Finset.Ico 2 (S.count D), (S.entry D j).dIno.toNat ∈ F :=
    fun j hj => hF _ (h.names D j (hproper j hj)).1
  have hinj : Set.InjOn (fun j => (S.entry D j).dIno.toNat) (Finset.Ico 2 (S.count D)) :=
    fun j hj k hk he =>
      (h.once D j D k (hproper j hj) (hproper k hk) (UInt32.toNat_inj.mp he)).2
  have hcard := Finset.card_le_card_of_injOn _ hmaps hinj
  rw [Nat.card_Ico] at hcard
  omega

/-! The same tree. -/

structure Shape.Same (S S' : Shape) : Prop where
  mode : ∀ i, S'.mode i = S.mode i
  count : ∀ D, S.Dir D → S'.count D = S.count D
  entry : ∀ D j, S.Dir D → j < S.count D → S'.entry D j = S.entry D j

theorem Shape.Same.live (h : Same S S') : S'.Live i ↔ S.Live i := by rw [Live, h.mode, Live]

theorem Shape.Same.dir (h : Same S S') : S'.Dir i ↔ S.Dir i := by rw [Dir, h.mode, Dir]

theorem Shape.Same.proper (h : Same S S') {D : UInt32} {j : Nat} : S'.Proper D j ↔ S.Proper D j := by
  constructor
  · rintro ⟨hD, hj, hp⟩
    rw [h.dir] at hD
    rw [h.count D hD] at hj
    rw [h.entry D j hD hj] at hp
    exact ⟨hD, hj, hp⟩
  · rintro ⟨hD, hj, hp⟩
    exact ⟨h.dir.mpr hD, by rwa [h.count D hD], by rwa [h.entry D j hD hj]⟩

theorem Tree.same (h : Tree S) (hs : S.Same S') : Tree S' := by
  have hentry : ∀ {D j}, S.Proper D j → S'.entry D j = S.entry D j := fun hp =>
    hs.entry _ _ hp.dir hp.lt
  refine ⟨fun i hi => ?_, hs.dir.mpr h.root, ?_, fun D j hp => ?_, fun i hi hr => ?_,
    fun D j D' j' hp hp' he => ?_, fun D hD hr => ?_, fun D j hD hj hi => ?_⟩
  · rw [hs.dir, hs.mode]
    exact h.kinds i (hs.live.mp hi)
  · rw [hs.count _ h.root, hs.entry _ _ h.root h.rootDot.1]
    exact h.rootDot
  · rw [hs.proper] at hp
    rw [hentry hp, hs.live]
    exact h.names D j hp
  · obtain ⟨D, j, hp, he⟩ := h.named i (hs.live.mp hi) hr
    exact ⟨D, j, hs.proper.mpr hp, by rw [hentry hp, he]⟩
  · rw [hs.proper] at hp hp'
    rw [hentry hp, hentry hp'] at he
    exact h.once D j D' j' hp hp' he
  · rw [hs.dir] at hD
    obtain ⟨h2, h0, q, k, h1, hq, hqe⟩ := h.dots D hD hr
    rw [hs.count D hD, hs.entry D 0 hD (by omega), hs.entry D 1 hD (by omega)]
    exact ⟨h2, h0, q, k, h1, hs.proper.mpr hq, by rw [hentry hq, hqe]⟩
  · rw [hs.dir] at hD
    rw [hs.count D hD] at hj
    rw [hs.entry D j hD hj] at hi
    exact h.plain D j hD hj hi

/-! A new inode and its entry. -/

/-- Inode `i` comes to life with mode `m` and is added to directory `p`. -/
structure Shape.Grown (S S' : Shape) (p i m : UInt32) (name : CStr) : Prop where
  parent : S.Dir p
  dead : ¬S.Live i
  mode : ∀ j, S'.mode j = if j = i then m else S.mode j
  count : ∀ D, S.Dir D → S'.count D = S.count D + if D = p then 1 else 0
  old : ∀ D j, S.Dir D → j < S.count D → S'.entry D j = S.entry D j
  new : (S'.entry p (S.count p)).Is i name
  empty : m = Mode.ifdir.code → S'.count i = 2 ∧ (S'.entry i 0).Is i [dot] ∧
    (S'.entry i 1).Is p [dot, dot]

variable {m : UInt32} {c : UInt8}

theorem Shape.Grown.ne (hg : Grown S S' p i m name) {D : UInt32} (hD : S.Live D) : D ≠ i := by
  rintro rfl
  exact hg.dead hD

theorem Shape.Grown.dir (hg : Grown S S' p i m name) {D : UInt32} (hD : S.Dir D) : S'.Dir D := by
  unfold Dir
  rw [hg.mode, if_neg (hg.ne hD.live)]
  exact hD

theorem Shape.Grown.proper (hg : Grown S S' p i m name) {D : UInt32} {j : Nat} (hp : S.Proper D j) :
    S'.Proper D j ∧ S'.entry D j = S.entry D j := by
  have he := hg.old D j hp.dir hp.lt
  refine ⟨⟨hg.dir hp.dir, ?_, by rw [he]; exact hp.proper⟩, he⟩
  have := hp.lt
  rw [hg.count D hp.dir]
  omega

theorem Shape.Grown.cases (hg : Grown S S' p i m (c :: name)) {D : UInt32} {j : Nat}
    (hp : S'.Proper D j) : (D = p ∧ j = S.count p) ∨ S.Proper D j := by
  obtain ⟨hD, hj, hnd⟩ := hp
  by_cases hDi : D = i
  · subst hDi
    have hm : m = Mode.ifdir.code := by
      rw [Dir, hg.mode, if_pos rfl] at hD
      exact hD
    obtain ⟨h2, h0, h1⟩ := hg.empty hm
    match j, (show j < 2 by omega) with
    | 0, _ => exact absurd h0.dots_one hnd
    | 1, _ => exact absurd h1.dots_two hnd
  · have hD' : S.Dir D := by
      rw [Dir, hg.mode, if_neg hDi] at hD
      exact hD
    by_cases hlt : j < S.count D
    · rw [hg.old D j hD' hlt] at hnd
      exact .inr ⟨hD', hlt, hnd⟩
    · rw [hg.count D hD'] at hj
      split at hj
      · next hDp =>
        subst hDp
        exact .inl ⟨rfl, by omega⟩
      · omega

theorem Shape.Grown.new_proper (hg : Grown S S' p i m (c :: name)) (hc : c ≠ dot) :
    S'.Proper p (S.count p) := by
  refine ⟨hg.dir hg.parent, ?_, fun hd => hc ?_⟩
  · rw [hg.count p hg.parent, if_pos rfl]
    omega
  · rw [← hg.new.initial, hd.initial]

theorem Tree.grow (h : Tree S) (hg : S.Grown S' p i m (c :: name)) (hc : c ≠ dot)
    (hm : m = Mode.ifdir.code ∨ m = Mode.ifreg.code) : Tree S' := by
  have hlive : ∀ D, S.Live D → S'.Live D := fun D hD => by
    unfold Shape.Live
    rw [hg.mode, if_neg (hg.ne hD)]
    exact hD
  have hinew : S'.Live i := by
    unfold Shape.Live
    rw [hg.mode, if_pos rfl]
    rcases hm with rfl | rfl <;> decide
  have hir : i ≠ rootDir := (hg.ne h.root.live).symm
  refine ⟨fun k hk => ?_, hg.dir h.root, ?_, fun D j hp => ?_, fun k hk hr => ?_,
    fun D j D' j' hp hp' he => ?_, fun D hD hr => ?_, fun D j hD hj hi => ?_⟩
  · by_cases hki : k = i
    · rw [Shape.Dir, hg.mode, if_pos hki]
      exact hm
    · rw [Shape.Live, hg.mode, if_neg hki] at hk
      rw [Shape.Dir, hg.mode, if_neg hki]
      exact h.kinds k hk
  · rw [hg.old _ _ h.root h.rootDot.1, hg.count _ h.root]
    exact ⟨le_trans h.rootDot.1 (Nat.le_add_right _ _), h.rootDot.2⟩
  · rcases hg.cases hp with ⟨rfl, rfl⟩ | hp
    · rw [hg.new.ino]
      exact ⟨hinew, hir⟩
    · rw [(hg.proper hp).2]
      exact ⟨hlive _ (h.names D j hp).1, (h.names D j hp).2⟩
  · by_cases hki : k = i
    · exact ⟨p, S.count p, hg.new_proper hc, by rw [hg.new.ino, hki]⟩
    · rw [Shape.Live, hg.mode, if_neg hki] at hk
      obtain ⟨D, j, hp, he⟩ := h.named k hk hr
      exact ⟨D, j, (hg.proper hp).1, by rw [(hg.proper hp).2, he]⟩
  · -- the new entry is the only one for the new inode
    have hnew : ∀ {D j}, S.Proper D j → (S.entry D j).dIno ≠ i := fun hp =>
      hg.ne (h.names _ _ hp).1
    rcases hg.cases hp with ⟨rfl, rfl⟩ | hp <;> rcases hg.cases hp' with ⟨rfl, rfl⟩ | hp'
    · exact ⟨rfl, rfl⟩
    · rw [hg.new.ino, (hg.proper hp').2] at he
      exact absurd he.symm (hnew hp')
    · rw [hg.new.ino, (hg.proper hp).2] at he
      exact absurd he (hnew hp)
    · rw [(hg.proper hp).2, (hg.proper hp').2] at he
      exact h.once D j D' j' hp hp' he
  · by_cases hDi : D = i
    · subst hDi
      rw [Shape.Dir, hg.mode, if_pos rfl] at hD
      obtain ⟨h2, h0, h1⟩ := hg.empty hD
      exact ⟨by omega, h0, p, S.count p, h1, hg.new_proper hc, hg.new.ino⟩
    · rw [Shape.Dir, hg.mode, if_neg hDi] at hD
      obtain ⟨h2, h0, q, k, h1, hq, hqe⟩ := h.dots D hD hr
      rw [hg.old D 0 hD (by omega), hg.old D 1 hD (by omega), hg.count D hD]
      exact ⟨by omega, h0, q, k, h1, (hg.proper hq).1, by rw [(hg.proper hq).2, hqe]⟩
  · by_cases hDi : D = i
    · subst hDi
      rw [Shape.Dir, hg.mode, if_pos rfl] at hD
      exact ⟨by have := (hg.empty hD).1; omega, fun hr => absurd hr hir⟩
    · rw [Shape.Dir, hg.mode, if_neg hDi] at hD
      by_cases hlt : j < S.count D
      · rw [hg.old D j hD hlt] at hi
        exact h.plain D j hD hlt hi
      · rw [hg.count D hD] at hj
        split at hj
        · next hDp =>
          subst hDp
          rw [show j = S.count D by omega, hg.new.initial] at hi
          exact absurd hi hc
        · omega

/-! Removal of an entry and its inode. -/

/-- Where entry `i` of `n - 1` stood before entry `j` of `n` was removed. -/
def swapIndex (n j i : Nat) : Nat := if i = j then n - 1 else i

/-- Entry `j` of directory `p` and the inode it names are gone, and the last
entry has taken its slot. -/
structure Shape.Cut (S S' : Shape) (p : UInt32) (j : Nat) : Prop where
  entryOf : S.Proper p j
  mode : ∀ i, S'.mode i = if i = (S.entry p j).dIno then Mode.ifzero.code else S.mode i
  count : ∀ D, S'.Dir D → S'.count D = if D = p then S.count D - 1 else S.count D
  entry : ∀ D i, S'.Dir D → i < S'.count D →
    S'.entry D i = S.entry D (if D = p then swapIndex (S.count p) j i else i)

variable {j : Nat}

theorem Shape.Cut.dir (hc : Cut S S' p j) {D : UInt32} :
    S'.Dir D ↔ S.Dir D ∧ D ≠ (S.entry p j).dIno := by
  unfold Dir
  rw [hc.mode]
  split
  · next h => simp [h, show Mode.ifzero.code ≠ Mode.ifdir.code by decide]
  · next h => simp [h]

theorem Shape.Cut.live (hc : Cut S S' p j) {i : UInt32} :
    S'.Live i ↔ S.Live i ∧ i ≠ (S.entry p j).dIno := by
  unfold Live
  rw [hc.mode]
  split
  · next h => simp [h]
  · next h => simp [h]

theorem Shape.Cut.proper (hc : Cut S S' p j) {D : UInt32} {i : Nat} (hp : S'.Proper D i) :
    ∃ k, S.Proper D k ∧ S'.entry D i = S.entry D k ∧ ¬(D = p ∧ k = j) ∧
      k = if D = p then swapIndex (S.count p) j i else i := by
  obtain ⟨hD, hi, hnd⟩ := hp
  have he := hc.entry D i hD hi
  rw [hc.count D hD] at hi
  rw [he] at hnd
  refine ⟨_, ⟨(hc.dir.mp hD).1, ?_, hnd⟩, he, ?_, rfl⟩
  · split
    · next h =>
      subst h
      rw [if_pos rfl] at hi
      unfold swapIndex
      split <;> omega
    · next h => rwa [if_neg h] at hi
  · rintro ⟨rfl, hk⟩
    rw [if_pos rfl] at hi hk
    unfold swapIndex at hk
    split at hk <;> omega

theorem Shape.Cut.moved (hc : Cut S S' p j) {D : UInt32} {k : Nat} (hp : S.Proper D k)
    (hD : D ≠ (S.entry p j).dIno) (hk : ¬(D = p ∧ k = j)) :
    ∃ i, S'.Proper D i ∧ S'.entry D i = S.entry D k := by
  have hD' : S'.Dir D := hc.dir.mpr ⟨hp.dir, hD⟩
  have hlt := hp.lt
  have hj := hc.entryOf.lt
  by_cases hDp : D = p
  · subst hDp
    have hkj : k ≠ j := fun h => hk ⟨rfl, h⟩
    have hcount := hc.count D hD'
    rw [if_pos rfl] at hcount
    by_cases hlast : k = S.count D - 1
    · have he := hc.entry D j hD' (by omega)
      rw [if_pos rfl, swapIndex, if_pos rfl, ← hlast] at he
      exact ⟨j, ⟨hD', by omega, by rw [he]; exact hp.proper⟩, he⟩
    · have he := hc.entry D k hD' (by omega)
      rw [if_pos rfl, swapIndex, if_neg hkj] at he
      exact ⟨k, ⟨hD', by omega, by rw [he]; exact hp.proper⟩, he⟩
  · have hcount := hc.count D hD'
    rw [if_neg hDp] at hcount
    have he := hc.entry D k hD' (by omega)
    rw [if_neg hDp] at he
    exact ⟨k, ⟨hD', by omega, by rw [he]; exact hp.proper⟩, he⟩

theorem Shape.Cut.front (hc : Cut S S' p j) (h : Tree S) (hj : (S.entry p j).initial ≠ dot) {D : UInt32}
    (hD : S'.Dir D) {i : Nat} (hi : i < if D = rootDir then 1 else 2) :
    i < S'.count D ∧ S'.entry D i = S.entry D i := by
  have hSD := (hc.dir.mp hD).1
  have hdots : ∀ k < if D = rootDir then 1 else 2, k < S.count D ∧ (S.entry D k).Dots := fun k hk => by
    by_cases hr : D = rootDir
    · subst hr
      rw [if_pos rfl] at hk
      rw [show k = 0 by omega]
      exact ⟨h.rootDot.1, h.rootDot.2.dots_one⟩
    · rw [if_neg hr] at hk
      obtain ⟨h2, h0, q, k', h1, -⟩ := h.dots D hSD hr
      match k, hk with
      | 0, _ => exact ⟨by omega, h0.dots_one⟩
      | 1, _ => exact ⟨by omega, h1.dots_two⟩
  have hbelow : D = p → ∀ k < if D = rootDir then 1 else 2, k ≠ j := by
    rintro rfl k hk rfl
    exact hj (hdots k hk).2.initial
  have hlt := (hdots i hi).1
  have hcount : i < S'.count D := by
    rw [hc.count D hD]
    split
    · next hDp =>
      have hjlt := hc.entryOf.lt
      rw [← hDp] at hjlt
      -- the removed entry lies behind all of them
      have hbehind : (if D = rootDir then 1 else 2) ≤ j := by
        by_contra hlt'
        exact hbelow hDp j (by omega) rfl
      omega
    · exact hlt
  refine ⟨hcount, ?_⟩
  rw [hc.entry D i hD hcount]
  split
  · next hDp => rw [swapIndex, if_neg (hbelow hDp i hi)]
  · rfl

theorem Tree.cut (h : Tree S) (hc : S.Cut S' p j) (hj : (S.entry p j).initial ≠ dot)
    (hpc : p ≠ (S.entry p j).dIno) (hempty : S.Dir (S.entry p j).dIno → S.count (S.entry p j).dIno ≤ 2) :
    Tree S' := by
  obtain ⟨hclive, hcroot⟩ := h.names p j hc.entryOf
  -- the removed inode has no proper entries of its own
  have hno : ∀ D k, S.Proper D k → D ≠ (S.entry p j).dIno := fun D k hp he => by
    subst he
    exact h.not_proper hcroot (hempty hp.dir) hp
  have hname : ∀ {D k}, S.Proper D k → ¬(D = p ∧ k = j) → (S.entry D k).dIno ≠ (S.entry p j).dIno :=
    fun hp hne he => hne (h.once _ _ _ _ hp hc.entryOf he)
  refine ⟨fun i hi => ?_, hc.dir.mpr ⟨h.root, hcroot.symm⟩, ?_, fun D i hp => ?_, fun i hi hr => ?_,
    fun D i D' i' hp hp' he => ?_, fun D hD hr => ?_, fun D i hD hi hdot => ?_⟩
  · obtain ⟨hi, hne⟩ := hc.live.mp hi
    rw [hc.dir, hc.mode, if_neg hne]
    rcases h.kinds i hi with hd | hreg
    · exact .inl ⟨hd, hne⟩
    · exact .inr hreg
  · obtain ⟨h1, he⟩ := hc.front h hj (hc.dir.mpr ⟨h.root, hcroot.symm⟩) (i := 0) (by simp)
    rw [he]
    exact ⟨h1, h.rootDot.2⟩
  · obtain ⟨k, hk, he, hne, -⟩ := hc.proper hp
    rw [he, hc.live]
    exact ⟨⟨(h.names D k hk).1, hname hk hne⟩, (h.names D k hk).2⟩
  · obtain ⟨hi, hne⟩ := hc.live.mp hi
    obtain ⟨D, k, hk, he⟩ := h.named i hi hr
    have hmoved : ¬(D = p ∧ k = j) := by
      rintro ⟨rfl, rfl⟩
      exact hne he.symm
    obtain ⟨i', hp', he'⟩ := hc.moved hk (hno D k hk) hmoved
    exact ⟨D, i', hp', by rw [he', he]⟩
  · obtain ⟨k, hk, hek, hne, hki⟩ := hc.proper hp
    obtain ⟨k', hk', hek', hne', hki'⟩ := hc.proper hp'
    rw [hek, hek'] at he
    obtain ⟨rfl, rfl⟩ := h.once D k D' k' hk hk' he
    refine ⟨rfl, ?_⟩
    rw [hki'] at hki
    split at hki
    · next hDp =>
      subst hDp
      have h1 := hp.lt
      have h2 := hp'.lt
      rw [hc.count D hp.dir, if_pos rfl] at h1 h2
      have hj := hc.entryOf.lt
      unfold swapIndex at hki
      split at hki <;> split at hki <;> omega
    · exact hki.symm
  · have hSD := (hc.dir.mp hD).1
    obtain ⟨-, h0, q, k, h1, hq, hqe⟩ := h.dots D hSD hr
    obtain ⟨hlt0, he0⟩ := hc.front h hj hD (i := 0) (by simp [hr])
    obtain ⟨hlt1, he1⟩ := hc.front h hj hD (i := 1) (by simp [hr])
    have hmoved : ¬(q = p ∧ k = j) := by
      rintro ⟨rfl, rfl⟩
      exact (hc.dir.mp hD).2 hqe.symm
    obtain ⟨i', hp', he'⟩ := hc.moved hq (hno q k hq) hmoved
    rw [he0, he1]
    exact ⟨by omega, h0, q, i', h1, hp', by rw [he', hqe]⟩
  · have hSD := (hc.dir.mp hD).1
    have hlt := hi
    rw [hc.entry D i hD hi] at hdot
    rw [hc.count D hD] at hlt
    have hj' := hc.entryOf.lt
    split at hdot
    · next hDp =>
      subst hDp
      rw [if_pos rfl] at hlt
      have hin := h.plain D _ hSD (by unfold swapIndex; split <;> omega) hdot
      unfold swapIndex at hin hdot
      split at hin
      · next hij =>
        -- the last entry has index at least that of the removed one
        rw [if_pos hij] at hdot
        exact ⟨by omega, fun hr => by have := hin.2 hr; omega⟩
      · exact hin
    · next hDp =>
      rw [if_neg hDp] at hlt
      exact h.plain D i hSD hlt hdot

end

end ArmKernel.Fs
