import ArmKernel.Core.CreateDelete

/-! `path_to_ino2` beside `path_to_ino`: what is found is found by both, and
only a missing last component is created. The volume need not be consistent;
the free list and the blocks in use are apart, and the blocks of the directory
the file goes to are its own. -/
namespace ArmKernel.Core

open Lib Lib.Bytes Fs SuperBlock

/-- Blocks a new file in a directory needs: its first one, and those of the
directory's next block if the last is full. -/
def blocksToCreate (ic : ICommon) : Nat :=
  1 + if ic.icSize.toNat / 32 % 16 = 0 ∧ 0 < ic.icSize.toNat then blocksFor (ic.icSize.toNat / 512) else 0

/-- File `i` is new in directory `par` under `name`, and nothing else is. -/
structure FileAdded (own : Owners) (v v' : Vol) (l : List UInt32) (par i : UInt32) (name : CStr) : Prop where
  lowest : LowestFree v.disk i
  mode : (inodeAt v'.disk i).icMode = Mode.ifreg.code
  size : (inodeAt v'.disk i).icSize = 0
  free : ∃ taken l', l = taken ++ l' ∧ FreeList v'.disk v'.fs l' ∧ (inodeAt v'.disk i).db 0 ∈ taken
  parentMode : (inodeAt v'.disk par).icMode = Mode.ifdir.code
  parentSize : (inodeAt v'.disk par).icSize.toNat = (inodeAt v.disk par).icSize.toNat + 32
  old : ∀ j < (inodeAt v.disk par).icSize.toNat / 32,
    dirEntry v'.disk (inodeAt v'.disk par) j = dirEntry v.disk (inodeAt v.disk par) j
  new : (dirEntry v'.disk (inodeAt v'.disk par) ((inodeAt v.disk par).icSize.toNat / 32)).Is i name
  inodes : ∀ j, j.toNat < 512 → j ≠ par → j ≠ i → inodeAt v'.disk j = inodeAt v.disk j
  others : ∀ x j r, own x = some (j, r) → j ≠ par → v'.disk x = v.disk x

section

variable {own : Owners} {v : Vol} {l : List UInt32} {par : UInt32} {name : CStr}

/-- The new entry with all its bytes: those behind the name are what the slot
held. -/
def SlotWritten (v v' : Vol) (par i : UInt32) (name : CStr) : Prop :=
  let n := (inodeAt v.disk par).icSize.toNat
  dirEntry v'.disk (inodeAt v'.disk par) (n / 32) =
      getDir (enteredBlock (v.disk (mapAddr v'.disk (inodeAt v'.disk par) (n / 512))) (n / 32 % 16) i name) (n / 32 % 16) ∧
    ∀ b < max 1 (blockCount (inodeAt v.disk par)),
      mapAddr v'.disk (inodeAt v'.disk par) b = mapAddr v.disk (inodeAt v.disk par) b

theorem createFile_slot (ha : Accounted own v l) (hpar : OwnBlocks own v.disk par)
    (hfree : ∃ i : UInt32, i.toNat < 512 ∧ (inodeAt v.disk i).icMode = Mode.ifzero.code)
    (hroom : blocksToCreate (inodeAt v.disk par) ≤ l.length) (hlen : name.length ≤ 26) (inode : INode) :
    FileAdded own v (createFile v inode par name).2 l par (createFile v inode par name).1 name ∧
      SlotWritten v (createFile v inode par name).2 par (createFile v inode par name).1 name := by
  have hf := ha.formatted
  rcases getFreeInode_cases hf inode with ⟨-, hall⟩ | ⟨i, hi, hdead, he⟩
  · obtain ⟨i, hi, hdead⟩ := hfree
    exact absurd hdead (hall i hi)
  have hlow : LowestFree v.disk i := getFreeInode_lowest hf he
  have hpi : par ≠ i := by
    rintro rfl
    have := hpar.dir
    rw [hdead] at this
    exact absurd this (by decide)
  cases l with
  | nil =>
    unfold blocksToCreate at hroom
    simp at hroom
  | cons a l =>
    obtain ⟨fs, hh, hb, hal, hda, hnone, hn⟩ := ha.balloc
    set inode₁ : INode := { inode with
      iNumber := i
      iIc := { inode.iIc with icMode := Mode.ifreg.code, icSize := 0 }.setDb 0 a } with hinode₁
    have hino₁ : inode₁.iNumber.toNat < 512 := hi
    have hdb : inode₁.iIc.db 0 = a := ICommon.db_setDb_self _ _ (by omega)
    set v₁ := afterAlloc v fs a with hv₁
    set own₁ := Function.update own a (some (i, Role.data 0)) with hown₁
    have hext : Ext own own₁ := ext_claim _ hnone
    have ha₁ : Accounted own₁ v₁ l := hal.claim _ hda hn
    have ha₂ := ha₁.writeInode hino₁
    set v₂ := writeInode v₁ inode₁ with hv₂
    -- the directory is as it was
    have hf₁ := ha₁.formatted
    have hsame : inodeAt v₂.disk par = inodeAt v.disk par := by
      rw [inodeAt_writeInode_ne hf₁ hino₁ hpar.lt hpi, inodeAt_afterAlloc _ _ _ hpar.lt]
    have hmaps : Maps own₁ v₂.disk par (inodeAt v.disk par) (max 1 (blockCount (inodeAt v.disk par))) :=
      ((hpar.maps.alloc ha fs a).ext hext).writeInode ha₁ hino₁
    have hread := readInode_eq ha₂.formatted hpar.lt ⟨0, 0, v₂.stkIc⟩
    rw [hsame] at hread
    have hcode : createFile v inode par name =
        (i, (addInodeToDirectory v₂ ⟨par, 0, inodeAt v.disk par⟩ i name).2) := by
      simp only [createFile, he, hb]
      rw [← hread]
    rw [hcode]
    have hsmall := hpar.small
    rcases addInodeToDirectory_entered i name (show (⟨par, 0, inodeAt v.disk par⟩ : INode).iNumber.toNat < 512
      from hpar.lt) ha₂ hmaps hpar.dir hpar.aligned (by omega) with ⟨hshort, hfull, -⟩ | ⟨own', l', hen⟩
    · unfold blocksToCreate at hroom
      rw [if_pos hfull, List.length_cons] at hroom
      dsimp only at hshort
      omega
    -- blocks in use were not touched before
    have hframe₂ : ∀ x, DataBlock x → v₂.disk x = v.disk x := fun x hx => by
      rw [writeInode_disk_ne hf₁ hino₁ (hx.ne_inodeBlock hino₁), hv₁, afterAlloc_disk_ne _ _ _ hx.ne_one]
    have hself : inodeAt (addInodeToDirectory v₂ ⟨par, 0, inodeAt v.disk par⟩ i name).2.disk i = inode₁.iIc := by
      rw [hen.inodes i hi hpi.symm]
      exact inodeAt_writeInode_self hf₁ hino₁
    obtain ⟨ts, hts⟩ := hen.taken
    refine ⟨⟨hlow, by rw [hself]; rfl, by rw [hself]; rfl,
      ⟨a :: ts, l', by rw [hts]; rfl, hen.acct.free, by rw [hself, hdb]; exact List.mem_cons_self⟩,
      by rw [hen.stored]; exact hen.mode.trans hpar.dir, by rw [hen.stored]; exact hen.size, fun j hj => ?_, ?_,
      fun j hj h1 h2 => ?_, fun x j r hx hj => ?_⟩, ?_, fun b hb => ?_⟩
    · rw [hen.stored, hen.old hpar.lt hpar.dir hj]
      refine dirEntry_frame hpar.maps ?_ fun x r hx => hframe₂ x (ha.owned _ _ hx).1
      have := div_lt_blockCount_of_entry hpar.dir hj
      omega
    · rw [hen.stored]
      exact hen.new hlen
    · rw [hen.inodes j hj h1, inodeAt_writeInode_ne hf₁ hino₁ hj h2, inodeAt_afterAlloc _ _ _ hj]
    · have hd := (ha.owned _ _ hx).1
      have hx' := hen.ext _ _ (hext _ _ hx)
      rw [← hframe₂ x hd]
      refine hen.frame x hd.ne_one (hd.ne_inodeBlock hpar.lt) (by rw [hx']; simp [hj]) ?_
      rintro rfl
      have hslot := hen.slot_owner
      rw [hx'] at hslot
      simp [hj] at hslot
    · rw [hen.stored, ← hframe₂ _ (hen.acct.owned _ _ hen.slot_owner).1]
      exact hen.slot_entry
    · rw [hen.stored, hen.kept b hb]
      exact mapAddr_congr fun h11 => hframe₂ _ (ha.owned _ _ (hpar.maps.index (by omega))).1

theorem createFile_adds (ha : Accounted own v l) (hpar : OwnBlocks own v.disk par)
    (hfree : ∃ i : UInt32, i.toNat < 512 ∧ (inodeAt v.disk i).icMode = Mode.ifzero.code)
    (hroom : blocksToCreate (inodeAt v.disk par) ≤ l.length) (hlen : name.length ≤ 26) (inode : INode) :
    FileAdded own v (createFile v inode par name).2 l par (createFile v inode par name).1 name :=
  (createFile_slot ha hpar hfree hroom hlen inode).1

end

theorem walkPath_lost {v : Vol} {d : UInt32} {pre post : List CStr} {tok : CStr} (hpost : post ≠ [])
    (hfound : walkPath v d pre ≠ noAddr)
    (hmiss : nameToIno v tok (readInode v ⟨0, 0, v.stkIc⟩ (walkPath v d pre)) = noAddr) :
    walkPath v d (pre ++ tok :: post).dropLast = noAddr := by
  rw [List.dropLast_append_of_ne_nil (by simp), List.dropLast_cons_of_ne_nil hpost,
    show pre ++ tok :: post.dropLast = (pre ++ [tok]) ++ post.dropLast by simp, walkPath_append, walkPath_append,
    walkPath_single v tok hfound, hmiss, walkPath_noAddr]

/-- **Creating resolution extends plain resolution**, from any directory and on
any path: what `path_to_ino` finds is returned, a component that is missing
before the last one ends the walk, and a missing last one is created. -/
theorem path_to_ino2_extends (v : Vol) (path : CStr) (d : UInt32) (hd : d ≠ noAddr) :
    (pathToIno v path d ≠ noAddr → pathToIno2 v path d = (pathToIno v path d, v)) ∧
    (∀ pre tok post, tokens path = pre ++ tok :: post → post ≠ [] → walkPath v d pre ≠ noAddr →
      nameToIno v tok (readInode v ⟨0, 0, v.stkIc⟩ (walkPath v d pre)) = noAddr →
      pathToIno2 v path d = (noAddr, v)) ∧
    ∀ dirs name own l, tokens path = dirs ++ [name] → walkPath v d dirs ≠ noAddr →
      nameToIno v name (readInode v ⟨0, 0, v.stkIc⟩ (walkPath v d dirs)) = noAddr → Accounted own v l →
      ((∀ i : UInt32, i.toNat < 512 → (inodeAt v.disk i).icMode ≠ Mode.ifzero.code) →
        (pathToIno2 v path d).1 = 0xFFFFFFFE ∧ (pathToIno2 v path d).2.disk = v.disk ∧
        (pathToIno2 v path d).2.fs = v.fs) ∧
      ((∃ i : UInt32, i.toNat < 512 ∧ (inodeAt v.disk i).icMode = Mode.ifzero.code) →
        OwnBlocks own v.disk (walkPath v d dirs) →
        blocksToCreate (inodeAt v.disk (walkPath v d dirs)) ≤ l.length → name.length ≤ 25 →
        FileAdded own v (pathToIno2 v path d).2 l (walkPath v d dirs) (pathToIno2 v path d).1 name) := by
  have hcases := pathToIno2_walk v path hd
  refine ⟨fun hfound => ?_, fun pre tok post hpath hpost hfound hmiss => ?_,
    fun dirs name own l hpath hfound hmiss ha => ?_⟩
  · rcases hcases with ⟨-, he⟩ | ⟨hnone, -⟩ | ⟨hnone, -⟩
    · exact he
    · exact absurd hnone hfound
    · exact absurd hnone hfound
  · have hlost := walkPath_lost hpost hfound hmiss
    rw [← hpath] at hlost
    have hnone : pathToIno v path d = noAddr := by
      rw [pathToIno, hpath, show pre ++ tok :: post = (pre ++ [tok]) ++ post by simp, walkPath_append,
        walkPath_append, walkPath_single v tok hfound, hmiss, walkPath_noAddr]
    rcases hcases with ⟨hok, -⟩ | ⟨-, -, he⟩ | ⟨-, hpar, -⟩
    · exact absurd hnone hok
    · exact he
    · exact absurd hlost hpar
  · obtain ⟨inode, he⟩ := pathToIno2_creates hd hpath rfl hfound hmiss
    rw [he]
    refine ⟨fun hall => ?_, fun hfree hown hroom hlen => createFile_adds ha hown hfree hroom (by omega) inode⟩
    rcases getFreeInode_cases ha.formatted inode with ⟨hg, -⟩ | ⟨i, hi, hdead, -⟩
    · simp only [createFile, hg]
      exact ⟨trivial, rfl, rfl⟩
    · exact absurd hdead (hall i hi)

section

variable {v : Vol} {a : UInt32} {l : List UInt32}

theorem absent_blank (hl : Lists v rootDir [(rootDir, [dot])]) :
    nameToIno v [97] (readInode v ⟨0, 0, v.stkIc⟩ rootDir) = noAddr := (newName_rootKernel hl).absent

theorem Blank.free_inode (hb : Blank 64 a v l) :
    ∃ i : UInt32, i.toNat < 512 ∧ (inodeAt v.disk i).icMode = Mode.ifzero.code :=
  ⟨1, by decide, hb.cleared 1 (by decide) (by decide)⟩

theorem Blank.blocksToCreate (hb : Blank 64 a v l) : blocksToCreate (inodeAt v.disk rootDir) = 1 := by
  unfold Core.blocksToCreate
  rw [hb.size]
  decide

def oneFileRoot (v : Vol) : Kernel := rootKernel (createFile v blankInode rootDir [97]).2

theorem Blank.created (hb : Blank 64 a v l) (hl : 3 ≤ l.length) : ∃ own own' l' ic i v',
    createFile v blankInode rootDir [97] = (i, v') ∧ i.toNat < 512 ∧ ic.icMode = Mode.ifreg.code ∧
      l.length = l'.length + 1 ∧ Consistent own' v' l' ∧ Extended own own' v v' l l' rootDir i ic [97] := by
  have hcon := hb.consistent
  have hsound : Sound (fun _ => True) _ v l := ⟨hcon.good, fun _ _ _ => trivial⟩
  have hr : (inodeAt v.disk rootDir).icSize.toNat / 32 % 16 ≠ 0 := by rw [hb.size]; decide
  rcases createFile_extended (fun _ _ _ _ => trivial) hsound blankInode hcon.tree.root (hcon.roomy hcon.tree.root)
    (show ([97] : CStr).length ≤ 26 by decide) with ⟨-, hno⟩ | ⟨own', l', ic, hlt, hmode, -, hlen, hs, hext⟩
  · rcases hno with hnil | ⟨-, hfull⟩ | hall
    · rw [hnil] at hl
      exact absurd hl (by decide)
    · exact absurd hfull hr
    · obtain ⟨i, hi, hdead⟩ := hb.free_inode
      exact absurd hdead (by rw [← shape_mode hi]; exact hall i hi)
  · exact ⟨_, own', l', ic, _, _, rfl, hlt, hmode, hlen hr, hcon.extend hs.good hext (by decide) (.inr hmode)
      fun hd => absurd (hmode.symm.trans hd) (by decide), hext⟩

theorem Blank.free_left {own own' : Owners} {v' : Vol} {l' : List UInt32} {i : UInt32} {ic : ICommon} {name : CStr}
    (hb : Blank 64 a v l) (hext : Extended own own' v v' l l' rootDir i ic name) :
    ∃ j : UInt32, j.toNat < 512 ∧ (inodeAt v'.disk j).icMode = Mode.ifzero.code := by
  have hfree : ∀ j : UInt32, j.toNat < 512 → j ≠ rootDir → j ≠ i → (inodeAt v'.disk j).icMode = Mode.ifzero.code := by
    intro j hj hroot hne
    rw [hext.inodes j hj hroot hne]
    exact hb.cleared j (by omega) hroot
  by_cases hone : i = 1
  · exact ⟨2, by decide, hfree 2 (by decide) (by decide) (by rw [hone]; decide)⟩
  · exact ⟨1, by decide, hfree 1 (by decide) (by decide) (Ne.symm hone)⟩

end

/-- File `a` in the root directory of a new volume. -/
theorem path_to_ino2_extends_root : ∃ own l, FileAdded own (format fullVol)
    (pathToIno2 (format fullVol) [97] rootDir).2 l rootDir (pathToIno2 (format fullVol) [97] rootDir).1 [97] := by
  obtain ⟨l, hlen, hb⟩ := format_blank fullVol rfl
  have hcon := hb.consistent
  have habsent := absent_blank (newDir_format fullVol rfl).1
  have h := (path_to_ino2_extends (format fullVol) [97] rootDir (by decide)).2.2 [] [97] _ l (by decide)
    (show rootDir ≠ noAddr by decide) habsent hcon.good.acct
  exact ⟨_, l, h.2 hb.free_inode (hcon.ownBlocks hcon.tree.root)
    (Nat.le_trans (Nat.le_of_eq hb.blocksToCreate) (by omega)) (by decide)⟩

end ArmKernel.Core
