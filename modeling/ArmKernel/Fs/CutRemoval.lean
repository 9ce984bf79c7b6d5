import ArmKernel.Fs.Cuts
import ArmKernel.Fs.Rooted

/-! The images of a removal. Its first write leaves the last entry of the
directory in two places; while blocks are given back, the inode they belonged
to stays on disk with no entry that leads to it. -/
namespace ArmKernel.Fs

open Lib Lib.Bytes SuperBlock

/-- The last entry of directory `p` stands in the place of entry `e` as well. -/
def Shape.doubled (S : Shape) (p : UInt32) (e : Nat) : Shape where
  mode := S.mode
  count := S.count
  entry := fun D i => if D = p ∧ i = e then S.entry p (S.count p - 1) else S.entry D i

section

variable {own : Owners} {v v₁ v' : Vol} {l l' : List UInt32} {p c : UInt32} {e : Nat}

theorem doubled_within (hg : Good own v l) (hp : (shape v.disk).Dir p) (he : e < entryCount (inodeAt v.disk p)) :
    ((shape v.disk).doubled p e).Within (shape (v.put (mapAddr v.disk (inodeAt v.disk p) (e / 16))
      (setDir (v.disk (mapAddr v.disk (inodeAt v.disk p) (e / 16))) (e % 16)
        (dirEntry v.disk (inodeAt v.disk p) (entryCount (inodeAt v.disk p) - 1)))).disk) := by
  obtain ⟨hplt, hpmode⟩ := mode_of_dir hp
  have hown := (hg.maps p hplt (by rw [hpmode]; decide)).data _ (div_lt_blockCount_of_entry hpmode he)
  have hda := (hg.acct.owned _ _ hown).1
  set addr := mapAddr v.disk (inodeAt v.disk p) (e / 16) with haddr
  set last := dirEntry v.disk (inodeAt v.disk p) (entryCount (inodeAt v.disk p) - 1) with hlast
  have hinode : ∀ i, i.toNat < 512 →
      inodeAt (v.put addr (setDir (v.disk addr) (e % 16) last)).disk i = inodeAt v.disk i := fun i hi =>
    inodeAt_put_ne _ (hda.ne_inodeBlock hi)
  refine ⟨fun i hi => ?_, fun D hD => ?_, fun D j hD hj => ?_⟩
  · have hlt : i.toNat < 512 := lt_of_live hi
    rw [shape_mode hlt, hinode i hlt]
    exact (shape_mode hlt).symm
  · change entryCount _ = entryCount _
    rw [hinode D (mode_of_dir hD).1]
  · obtain ⟨hDlt, hDmode⟩ := mode_of_dir hD
    have hm := hg.maps D hDlt (by rw [hDmode]; decide)
    have hblk := div_lt_blockCount_of_entry hDmode hj
    have hmap : mapAddr (v.put addr (setDir (v.disk addr) (e % 16) last)).disk (inodeAt v.disk D) (j / 16) =
        mapAddr v.disk (inodeAt v.disk D) (j / 16) := by
      refine mapAddr_congr fun h11 => put_disk_ne v _ ?_
      intro hix
      have howns := hm.index (by omega)
      rw [hix, hown] at howns
      simp at howns
    change dirEntry _ (inodeAt _ D) j = if D = p ∧ j = e then last else dirEntry v.disk (inodeAt v.disk D) j
    rw [hinode D hDlt]
    unfold dirEntry
    rw [hmap]
    by_cases hsame : mapAddr v.disk (inodeAt v.disk D) (j / 16) = addr
    · have howns := hm.data _ hblk
      rw [hsame, hown] at howns
      simp only [Option.some.injEq, Prod.mk.injEq, Role.data.injEq] at howns
      obtain ⟨rfl, hje⟩ := howns
      rw [hsame, put_disk_self]
      by_cases hj' : j = e
      · rw [if_pos ⟨rfl, hj'⟩, hj', getDir_setDir_self _ _ (by omega)]
      · rw [if_neg fun h => hj' h.2, getDir_setDir_ne _ _ (by omega) (by omega)]
    · rw [put_disk_ne v _ hsame, if_neg]
      rintro ⟨rfl, rfl⟩
      exact hsame rfl

theorem unlist_cuts {parent : INode} (hg : Good own v l) (hp : p.toNat < 512) (hnum : parent.iNumber = p)
    (hic : parent.iIc = inodeAt v.disk p) (hdir : parent.iIc.icMode = Mode.ifdir.code)
    (h32 : parent.iIc.icSize.toNat % 32 = 0) (he : e < entryCount parent.iIc) :
    let v' := writeInode (diskWr v (mapAddr v.disk parent.iIc (e / 16))
        (setDir (v.disk (mapAddr v.disk parent.iIc (e / 16))) (e % 16) (getLastDir v parent)) 512)
      { parent with iIc := { parent.iIc with icSize := parent.iIc.icSize - 32 } }
    Cuts (fun d => Spares own (· = p) v.disk ((shape v.disk).doubled p e) d ∨ d = v'.disk) v v' := by
  dsimp only
  have hpos : 0 < parent.iIc.icSize.toNat := by
    unfold entryCount at he
    omega
  have hm : Maps own v.disk p parent.iIc (blockCount parent.iIc) := by
    rw [hic] at hdir ⊢
    exact hg.maps p hp (by rw [hdir]; decide)
  have hown := hm.data _ (div_lt_blockCount_of_entry hdir he)
  obtain ⟨hda, hal⟩ := hg.acct.owned _ _ hown
  have hp' : (shape v.disk).Dir p := dir_of_mode hp (by rw [← hic]; exact hdir)
  have hwithin := doubled_within hg hp' (show e < entryCount (inodeAt v.disk p) by rw [← hic]; exact he)
  rw [getLastDir_eq hg.acct hm hdir h32 hpos, diskWr_put _ _ (hda.lt_num hg.acct.formatted)]
  rw [← hic] at hwithin
  have hg₁ := hg.put_data (setDir (v.disk (mapAddr v.disk parent.iIc (e / 16))) (e % 16)
    (dirEntry v.disk parent.iIc (entryCount parent.iIc - 1))) hda hal fun q => by simp [hown]
  apply (Cuts.put (.inl ⟨hg₁.survives hwithin, hg.intact_put _ hown rfl⟩)).trans
  exact .writeInode hg₁.acct.formatted (hnum ▸ hp) (.inr rfl)

theorem Unlisted.intact (hu : Unlisted own v v₁ l p e) :
    Intact own (· = p) v.disk v₁.disk := ⟨hu.inodes, hu.frame⟩

theorem without_within (hg : Good own v l) (hp : (shape v.disk).Dir p) (hu : Unlisted own v v₁ l p e) :
    ((shape v.disk).without p e).Within (shape v₁.disk) := by
  have hmode : ∀ i, (shape v₁.disk).mode i = (shape v.disk).mode i := fun i => by
    by_cases hi : i.toNat < 512
    · rw [shape_mode hi, shape_mode hi]
      by_cases hip : i = p
      · rw [hip, hu.mode]
      · rw [hu.inodes i hi hip]
    · simp [shape, hi]
  have hdir : ∀ D, ((shape v.disk).without p e).Dir D → (shape v.disk).Dir D := fun D hD => by
    change (if D = _ then Mode.ifzero.code else (shape v.disk).mode D) = Mode.ifdir.code at hD
    split at hD
    · exact absurd hD (by decide)
    · exact hD
  refine ⟨fun i hi => ?_, fun D hD => ?_, fun D j hD hj => ?_⟩
  · change (if i = _ then Mode.ifzero.code else (shape v.disk).mode i) ≠ Mode.ifzero.code at hi
    change _ = if i = _ then Mode.ifzero.code else (shape v.disk).mode i
    split at hi
    · exact absurd rfl hi
    · next hic => rw [if_neg hic, hmode]
  · change entryCount (inodeAt v₁.disk D) = if D = p then entryCount (inodeAt v.disk D) - 1
      else entryCount (inodeAt v.disk D)
    split
    · next hDp => rw [hDp, hu.entryCount]
    · next hDp => rw [hu.inodes D (mode_of_dir (hdir D hD)).1 hDp]
  · obtain ⟨hlt, hDmode⟩ := mode_of_dir (hdir D hD)
    change j < (if D = p then entryCount (inodeAt v.disk D) - 1 else entryCount (inodeAt v.disk D)) at hj
    change dirEntry v₁.disk (inodeAt v₁.disk D) j =
      dirEntry v.disk (inodeAt v.disk D) (if D = p then swapIndex (entryCount (inodeAt v.disk p)) e j else j)
    by_cases hDp : D = p
    · subst hDp
      rw [if_pos rfl] at hj ⊢
      exact hu.entry j hj
    · rw [if_neg hDp] at hj ⊢
      have hm := hg.maps D hlt (by rw [hDmode]; decide)
      rw [hu.inodes D hlt hDp]
      exact dirEntry_frame hm (div_lt_blockCount_of_entry hDmode hj) fun x r hx => hu.frame x D r hx hDp

/-! Giving the blocks back. -/

structure Dropping (own : Owners) (c : UInt32) (v : Vol) (l : List UInt32) (d : Image) : Prop where
  inodes : ∀ j, j.toNat < 512 → j ≠ c → inodeAt d j = inodeAt v.disk j
  frame : ∀ x i r, own x = some (i, r) → i ≠ c → d x = v.disk x
  free : ∃ l', FreeList d (d 1) l' ∧ ∀ x ∈ l', x ∈ l ∨ ∃ r, own x = some (c, r)

theorem Dropping.spares {d : Image} (hg : Good own v l) (h : Dropping own c v l d) (hb : Buried own v v' l' c) :
    Spares own (· = c) v.disk (shape v'.disk) d := by
  have hne : ∀ i, (shape v'.disk).Live i → i ≠ c := by
    rintro i hi rfl
    have hlt := lt_of_live hi
    rw [Shape.Live, shape_mode hlt] at hi
    exact hi hb.dead
  have hinode : ∀ i, (shape v'.disk).Live i → inodeAt d i = inodeAt v'.disk i := fun i hi => by
    rw [h.inodes i (lt_of_live hi) (hne i hi), hb.inodes i (lt_of_live hi) (hne i hi)]
  have hkept : ∀ i, (shape v'.disk).Live i → ∀ x r, own x = some (i, r) → d x = v'.disk x := fun i hi x r hx => by
    rw [h.frame x i r hx (hne i hi), hb.frame x i r hx (hne i hi)]
  refine ⟨⟨⟨fun i hi => ?_, fun D hD => ?_, fun D j hD hj => ?_⟩, ?_⟩, h.inodes, h.frame⟩
  · have hlt := lt_of_live hi
    rw [shape_mode hlt, shape_mode hlt, hinode i hi]
  · change entryCount _ = entryCount _
    rw [hinode D hD.live]
  · obtain ⟨hlt, hmode⟩ := mode_of_dir hD
    have hm := hb.good.maps D hlt (by rw [hmode]; decide)
    change dirEntry d (inodeAt d D) j = dirEntry v'.disk (inodeAt v'.disk D) j
    rw [hinode D hD.live]
    exact dirEntry_frame hm (div_lt_blockCount_of_entry hmode hj) fun x r hx =>
      hkept D hD.live x r (forget_some.mp hx).1
  · obtain ⟨l₁, hfree, hmem⟩ := h.free
    refine ⟨forget own c, l₁, hfree, fun x o ho => ?_, fun i hi => ?_⟩
    · obtain ⟨ho, hoc⟩ := forget_some.mp ho
      obtain ⟨hda, hal⟩ := hg.acct.owned x o ho
      refine ⟨hda, fun hx => ?_⟩
      rcases hmem x hx with hl | ⟨r, hr⟩
      · exact hal hl
      · rw [hr] at ho
        cases ho
        exact hoc rfl
    · have hlt := lt_of_live hi
      have hm := hb.good.maps i hlt (by rw [← shape_mode hlt]; exact hi)
      rw [hinode i hi]
      exact hm.frame (fun _ _ ho => ho) fun h11 => hkept i hi _ _ (forget_some.mp (hm.index h11)).1

theorem Freed.dropping {ic : ICommon} {n b : Nat} (hg : Good own v l) (hm : Maps own v.disk c ic n) (hn : n ≤ 11)
    (hb : b ≤ n) (h : Freed v v' l l' ic b) {d : Image}
    (hd : ∀ x, (∀ r, own x ≠ some (c, r)) → d x = v'.disk x) (hfree : ∀ x ∈ l', d x = v'.disk x) :
    Dropping own c v l d := by
  have hdb : ∀ j < b, own (ic.db j) = some (c, .data j) := fun j hj => by
    have hown := hm.data j (by omega)
    rwa [mapAddr, if_pos (by omega)] at hown
  have hkept : ∀ x, x ≠ 1 → (∀ r, own x ≠ some (c, r)) → d x = v.disk x := fun x h1 hx => by
    rw [hd x hx, h.frame x h1 fun j hj he => hx _ (he ▸ hdb j hj)]
  have hone : d 1 = v'.fs := by
    rw [hd 1 fun r hr => (hg.acct.owned _ _ hr).1.ne_one rfl]
    exact h.synced
  refine ⟨fun j hj _ => ?_, fun x i r hx hi => ?_, l', ?_, fun x hx => ?_⟩
  · unfold inodeAt
    rw [hkept _ (inodeBlock_ne_one hj) fun r hr => (hg.acct.owned _ _ hr).1.ne_inodeBlock hj rfl]
  · refine hkept x (hg.acct.owned _ _ hx).1.ne_one fun r' => ?_
    rw [hx]
    simp [hi]
  · rw [hone]
    exact h.free.frame hfree
  · rcases h.mem x hx with hl | ⟨j, hj, rfl⟩
    · exact .inl hl
    · exact .inr ⟨_, hdb j hj⟩

theorem bfree_cuts (v : Vol) (a : UInt32) :
    Cuts (fun d => d = (bfree v a).2.disk ∨ ∀ x, x ≠ a → d x = v.disk x) v (bfree v a).2 := by
  have hlog : Cuts (fun d => d = (bfree v a).2.disk ∨ ∀ x, x ≠ a → d x = v.disk x) v (v.log (.free a)) := .log v rfl
  apply hlog.trans
  unfold bfree
  dsimp only
  split
  · exact (Cuts.of_trace rfl).trans (.updateSb (.inl rfl))
  · refine (Cuts.diskWr (.inr fun x hx => ?_)).trans ((Cuts.of_trace rfl).trans (.updateSb (.inl rfl)))
    unfold diskWr
    split
    · exact Function.update_of_ne hx _ _
    · rfl

theorem freeLoop_cuts {inode : INode} {n b : Nat} (hg : Good own v l) (hm : Maps own v.disk c inode.iIc n)
    (hn : n ≤ 11) (hb : b ≤ n) : Cuts (Dropping own c v l) v (freeLoop b 0 v inode) := by
  induction b with
  | zero => exact .refl v
  | succ b ih =>
    have hcode : freeLoop (b+1) 0 v inode = (bfree (freeLoop b 0 v inode) (inode.iIc.db b)).2 := by
      rw [freeLoop_succ, Nat.zero_add, freeDataBlock, releaseAddr_direct (by omega)]
      exact if_pos (by omega)
    obtain ⟨l₁, hf₁⟩ := freeLoop_freed hg.acct hg.synced hm hn (show b ≤ n by omega)
    obtain ⟨l₂, hf₂⟩ := freeLoop_freed hg.acct hg.synced hm hn hb
    have hown := hm.data b (by omega)
    rw [mapAddr, if_pos (by omega)] at hown
    have hnew : inode.iIc.db b ∉ l₁ := fun hmem => by
      rcases hf₁.mem _ hmem with h | ⟨j, hj, he⟩
      · exact (hg.acct.owned _ _ hown).2 h
      · have hj' := hm.data j (by omega)
        rw [mapAddr, if_pos (by omega), ← he, hown] at hj'
        simp at hj'
        omega
    apply (ih (by omega)).trans
    rw [hcode] at hf₂ ⊢
    refine (bfree_cuts _ _).mono fun d hd => ?_
    rcases hd with rfl | hd
    · exact hf₂.dropping hg hm hn hb (fun _ _ => rfl) fun _ _ => rfl
    · refine hf₁.dropping hg hm hn (by omega) (fun x hx => hd x ?_) fun x hx => hd x ?_
      · rintro rfl
        exact hx _ hown
      · rintro rfl
        exact hnew hx

theorem bury_cuts (inode : INode) (hg : Good own v l) (hc : c.toNat < 512) (hnum : inode.iNumber = c)
    (hic : inode.iIc = inodeAt v.disk c) (hlive : (inodeAt v.disk c).icMode ≠ Mode.ifzero.code)
    (hsize : (inodeAt v.disk c).icSize.toNat ≤ 11 * 512) :
    let v' := writeInode (freeDataBlocks v inode) { inode with
      iIc := { inode.iIc with icMode := Mode.ifzero.code, icSize := 0 } }
    Cuts (Spares own (· = c) v.disk (shape v'.disk)) v v' ∧ Spares own (· = c) v.disk (shape v'.disk) v.disk := by
  obtain ⟨l', hb⟩ := bury inode hg hc hnum hic hlive hsize
  have hm := hg.maps c hc hlive
  rw [← hic] at hm hsize
  have hle : (inode.iIc.icSize.toNat + 511) / 512 ≤ blockCount inode.iIc := by
    unfold blockCount
    split <;> omega
  have hcuts := freeLoop_cuts hg (hm.le hle) (by omega) (Nat.le_refl _)
  obtain ⟨l₀, hf₀⟩ := freeLoop_freed hg.acct hg.synced (hm.le hle) (by omega) (Nat.zero_le _)
  obtain ⟨l₁, hf⟩ := freeLoop_freed hg.acct hg.synced (hm.le hle) (by omega) (Nat.le_refl _)
  have hstart := hf₀.dropping hg (hm.le hle) (by omega) (Nat.zero_le _) (fun _ _ => rfl) fun _ _ => rfl
  refine ⟨?_, hstart.spares hg hb⟩
  apply (hcuts.mono fun d hd => hd.spares hg hb).trans
  exact .writeInode hf.formatted (show inode.iNumber.toNat < 512 from hnum ▸ hc)
    ⟨hb.good.survives (.refl _), hb.inodes, hb.frame⟩

end

end ArmKernel.Fs
