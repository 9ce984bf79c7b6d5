import ArmKernel.Fs.Paths

/-! Directories apart from the tree: the entries of a directory inode, stored or
a copy of it, name inodes in use, whatever their names are. This survives the
writing back of an old copy. -/
namespace ArmKernel.Fs

open Lib Lib.Bytes SuperBlock

def liveSet (d : Image) : Finset Nat :=
  (Finset.range 512).filter fun n => (inodeAt d (UInt32.ofNat n)).icMode ≠ Mode.ifzero.code

theorem mem_liveSet {d : Image} {i : UInt32} : i.toNat ∈ liveSet d ↔ (shape d).Live i := by
  unfold liveSet
  rw [Finset.mem_filter, Finset.mem_range, UInt32.ofNat_toNat]
  constructor
  · rintro ⟨hlt, hmode⟩
    rwa [Shape.Live, shape_mode hlt]
  · intro hi
    have hlt := lt_of_live hi
    rw [Shape.Live, shape_mode hlt] at hi
    exact ⟨hlt, hi⟩

theorem card_liveSet_le (d : Image) : (liveSet d).card ≤ 512 := by
  have := Finset.card_filter_le (Finset.range 512)
    fun n => (inodeAt d (UInt32.ofNat n)).icMode ≠ Mode.ifzero.code
  rwa [Finset.card_range] at this

theorem liveSet_congr {d d' : Image}
    (h : ∀ i, i.toNat < 512 → (inodeAt d' i).icMode = (inodeAt d i).icMode) : liveSet d' = liveSet d := by
  unfold liveSet
  refine Finset.filter_congr fun n hn => ?_
  have hlt := Finset.mem_range.mp hn
  rw [h _ (by rw [UInt32.toNat_ofNat', Nat.mod_eq_of_lt (by omega)]; exact hlt)]

theorem shape_dir_congr {d d' : Image}
    (h : ∀ i, i.toNat < 512 → (inodeAt d' i).icMode = (inodeAt d i).icMode) {D : UInt32} :
    (shape d').Dir D ↔ (shape d).Dir D := by
  constructor
  · intro hD
    obtain ⟨hlt, hmode⟩ := mode_of_dir hD
    exact dir_of_mode hlt ((h D hlt).symm.trans hmode)
  · intro hD
    obtain ⟨hlt, hmode⟩ := mode_of_dir hD
    exact dir_of_mode hlt ((h D hlt).trans hmode)

theorem card_liveSet_grown {d d' : Image} {p i m : UInt32} {name : CStr}
    (hg : (shape d).Grown (shape d') p i m name) (hi : (shape d').Live i) :
    (liveSet d').card = (liveSet d).card + 1 := by
  have hnot : i.toNat ∉ liveSet d := fun hmem => hg.dead (mem_liveSet.mp hmem)
  have hset : liveSet d' = insert i.toNat (liveSet d) := by
    ext n
    by_cases hn : n < 512
    · obtain ⟨j, rfl⟩ : ∃ j : UInt32, j.toNat = n :=
        ⟨UInt32.ofNat n, by rw [UInt32.toNat_ofNat', Nat.mod_eq_of_lt (by omega)]⟩
      rw [Finset.mem_insert, mem_liveSet, mem_liveSet, UInt32.toNat_inj]
      by_cases hji : j = i
      · simp [hji, hi]
      · rw [Shape.Live, hg.mode, if_neg hji]
        simp [hji, Shape.Live]
    · have hout : ∀ d, n ∉ liveSet d := fun d hmem =>
        hn (Finset.mem_range.mp (Finset.mem_filter.mp hmem).1)
      have hne : n ≠ i.toNat := by
        rintro rfl
        exact hn (lt_of_live hi)
      simp [hout, hne]
  rw [hset, Finset.card_insert_of_notMem hnot]

/-- The entries of a directory inode name inodes in use, and there are no more
of them than such inodes. -/
structure Listing (d : Image) (ic : ICommon) : Prop where
  aligned : ic.icSize.toNat % 32 = 0
  pos : 0 < ic.icSize.toNat
  bounded : entryCount ic ≤ (liveSet d).card + 2
  live : ∀ j < entryCount ic, (shape d).Live (dirEntry d ic j).dIno

section

variable {own own' : Owners} {v v' : Vol} {l l' : List UInt32} {par i D : UInt32} {ic ic' : ICommon}
  {name : CStr}

theorem Listing.roomy {d : Image} (h : Listing d ic) : Roomy ic := by
  have hle := h.bounded
  have hcard := card_liveSet_le d
  have hal := h.aligned
  unfold entryCount at hle
  exact ⟨h.aligned, h.pos, by omega⟩

theorem Listing.frame {d d' : Image} (h : Listing d ic) (hm : Maps own d D ic (blockCount ic))
    (hdir : ic.icMode = Mode.ifdir.code) (hd : ∀ x r, own x = some (D, r) → d' x = d x)
    (hmode : ∀ i, i.toNat < 512 → (inodeAt d' i).icMode = (inodeAt d i).icMode) : Listing d' ic := by
  have hset := liveSet_congr hmode
  refine ⟨h.aligned, h.pos, by rw [hset]; exact h.bounded, fun j hj => ?_⟩
  rw [dirEntry_frame hm (div_lt_blockCount_of_entry hdir hj) hd, ← mem_liveSet, hset, mem_liveSet]
  exact h.live j hj

theorem Listing.extend (h : Listing v.disk ic)
    (hm : Maps own v.disk D ic (blockCount ic)) (hdir : ic.icMode = Mode.ifdir.code)
    (hle : D = par → blockCount ic ≤ blockCount (inodeAt v.disk par))
    (he : Extended own own' v v' l l' par i ic' name) (hlive : (shape v'.disk).Live i) :
    Listing v'.disk ic := by
  have hcard := card_liveSet_grown he.grown hlive
  refine ⟨h.aligned, h.pos, by have := h.bounded; omega, fun j hj => ?_⟩
  have hblk := div_lt_blockCount_of_entry hdir hj
  have hown := hm.data _ hblk
  have hold := h.live j hj
  unfold dirEntry at hold ⊢
  rw [he.steady D ic _ hm hle _ hblk]
  rcases he.slot _ _ hown (by simp) (j % 16) (by omega) with hs | hs
  · rw [hs, Shape.Live, he.grown.mode, if_neg (he.grown.ne hold)]
    exact hold
  · rw [hs]
    exact hlive

theorem Listing.extend_dirs (hg : Good own v l)
    (h : ∀ D, (shape v.disk).Dir D → Listing v.disk (inodeAt v.disk D))
    (he : Extended own own' v v' l l' par i ic' name) (hlive : ic'.icMode ≠ Mode.ifzero.code)
    (hsize : ic'.icMode = Mode.ifdir.code → ic'.icSize.toNat % 32 = 0 ∧ 0 < ic'.icSize.toNat)
    (hD : (shape v'.disk).Dir D) : Listing v'.disk (inodeAt v'.disk D) := by
  have hgr := he.grown
  have hnew : (shape v'.disk).Live i := by
    rw [Shape.Live, hgr.mode, if_pos rfl]
    exact hlive
  have hcard := card_liveSet_grown hgr hnew
  have hkeeps : ∀ j, (shape v.disk).Live j → (shape v'.disk).Live j := fun j hj => by
    rw [Shape.Live, hgr.mode, if_neg (hgr.ne hj)]
    exact hj
  by_cases hDi : D = i
  · -- the new directory: itself and its parent
    rw [hDi] at hD ⊢
    have hmode := (mode_of_dir hD).2
    rw [he.self] at hmode
    obtain ⟨h2, h0, h1⟩ := hgr.empty hmode
    have hcount : entryCount (inodeAt v'.disk i) = 2 := h2
    refine ⟨by rw [he.self]; exact (hsize hmode).1, by rw [he.self]; exact (hsize hmode).2, by omega,
      fun j hj => ?_⟩
    obtain rfl | rfl : j = 0 ∨ j = 1 := by omega
    · change (shape v'.disk).Live ((shape v'.disk).entry i 0).dIno
      rw [h0.ino]
      exact hnew
    · change (shape v'.disk).Live ((shape v'.disk).entry i 1).dIno
      rw [h1.ino]
      exact hkeeps par hgr.parent.live
  · have hSD : (shape v.disk).Dir D := by
      rw [Shape.Dir, hgr.mode, if_neg hDi] at hD
      exact hD
    obtain ⟨hlt, hmode⟩ := mode_of_dir hSD
    have hold := h D hSD
    by_cases hDp : D = par
    · subst hDp
      have hcount := hgr.count D hSD
      rw [if_pos rfl] at hcount
      change entryCount (inodeAt v'.disk D) = entryCount (inodeAt v.disk D) + 1 at hcount
      have hal := hold.aligned
      have hb := hold.bounded
      refine ⟨by rw [he.size]; omega, by rw [he.size]; omega, by omega, fun j hj => ?_⟩
      by_cases hlast : j < entryCount (inodeAt v.disk D)
      · have hentry : dirEntry v'.disk (inodeAt v'.disk D) j = dirEntry v.disk (inodeAt v.disk D) j :=
          hgr.old D j hSD hlast
        rw [hentry]
        exact hkeeps _ (hold.live j hlast)
      · rw [show j = entryCount (inodeAt v.disk D) by omega]
        change (shape v'.disk).Live ((shape v'.disk).entry D ((shape v.disk).count D)).dIno
        rw [hgr.new.ino]
        exact hnew
    · rw [he.inodes D hlt hDp hDi]
      exact hold.extend (hg.maps D hlt (by rw [hmode]; decide)) hmode (fun h => absurd h hDp) he hnew

end

end ArmKernel.Fs
