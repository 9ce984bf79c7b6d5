import ArmKernel.Core.FileContents
import ArmKernel.Core.Resolution
import ArmKernel.Fs.SlotWrite

/-! Running out of disk. `fwrite` does not look at the result of
`allocateDataBlocks`, and creation does not look at that of `balloc`: both go
on with whatever addresses the block maps hold. -/
namespace ArmKernel.Core

open Lib Lib.Bytes Fs SuperBlock

/-! Writes. -/

/-- A write refused for want of blocks: `-1`, and nothing to be seen of the
attempt. -/
structure WriteRefused (l : List UInt32) (k : Kernel) (o s : Fin 128) (r : Int × Kernel) : Prop where
  result : r.1 = -1
  head : (r.2.of o).oHead = (k.of o).oHead
  size : (r.2.ai s).iIc.icSize = (k.ai s).iIc.icSize
  contents : contents r.2.vol.disk (r.2.ai s).iIc = contents k.vol.disk (k.ai s).iIc
  others : ∀ ino ic, ino ≠ (k.ai s).iNumber → Current k ino ic → ∀ p, Place.In (blockCount ic) p →
    r.2.vol.disk (placeAddr k.vol.disk ic p) = k.vol.disk (placeAddr k.vol.disk ic p)
  free : ∃ l', FreeList r.2.vol.disk r.2.vol.fs l' ∧ ∀ x ∈ l, x ∈ l'

/-- **No write to an open file is refused**, however few blocks there are: it
returns 0 and moves the head on. -/
theorem fwrite_never_refused {k : Kernel} {fd : Int} {i : Fin 16} {o s : Fin 128} (hfd : fdEntry k fd = some (i, o))
    (hs : (k.of o).oInptr = some s) (data : Nat → UInt8) (n : UInt32) (l : List UInt32) :
    (fwrite k fd data n).1 = 0 ∧ ((fwrite k fd data n).2.of o).oHead = (k.of o).oHead + n ∧
      ¬WriteRefused l k o s (fwrite k fd data n) := by
  have hresult : (fwrite k fd data n).1 = 0 := by
    simp only [fwrite, hfd, hs]
  refine ⟨hresult, ?_, fun h => ?_⟩
  · simp only [fwrite, hfd, hs, Function.update_self]
  · have := h.result
    rw [hresult] at this
    exact absurd this (by decide)

/-- Six hundred bytes at the end of a file of one block, with no block free. -/
theorem fwrite_full_disk : ∃ l, Separate (oneFileKernel (freeRange fullVol 0)) l ∧
    l.length < blocksToGrow ((oneFileKernel (freeRange fullVol 0)).ai 0).iIc.icSize.toNat
      (((oneFileKernel (freeRange fullVol 0)).of 0).oHead.toNat + 600) ∧
    ¬WriteRefused l (oneFileKernel (freeRange fullVol 0)) 0 0
      (fwrite (oneFileKernel (freeRange fullVol 0)) 0 (fun _ => 7) 600) := by
  refine ⟨rangeStack 0, oneFile_separate (by omega) (blank_freeRange (by omega)), by decide, fun h => ?_⟩
  have hzero : (fwrite (oneFileKernel (freeRange fullVol 0)) 0 (fun _ => 7) 600).1 = 0 := rfl
  have := h.result
  rw [hzero] at this
  exact absurd this (by decide)

theorem fwrite_never_refused_full : ¬WriteRefused [] (oneFileKernel (freeRange fullVol 0)) 0 0
    (fwrite (oneFileKernel (freeRange fullVol 0)) 0 (fun _ => 7) 600) :=
  (fwrite_never_refused (show fdEntry (oneFileKernel (freeRange fullVol 0)) 0 = some (0, 0) from rfl)
    (show ((oneFileKernel (freeRange fullVol 0)).of 0).oInptr = some 0 from rfl) (fun _ => 7) 600 []).2.2

/-! Creation. -/

/-- A creation that failed, undid what it had done, and returned. -/
structure NoTrace (l : List UInt32) (v : Vol) (result : Int) (v' : Vol) : Prop where
  returns : ¬Ended v'
  result : result = -1
  inodes : ∀ i : UInt32, i.toNat < 512 → inodeAt v'.disk i = inodeAt v.disk i
  entries : ∀ D, (shape v.disk).Dir D → ∀ j < entryCount (inodeAt v.disk D),
    dirEntry v'.disk (inodeAt v'.disk D) j = dirEntry v.disk (inodeAt v.disk D) j
  free : FreeList v'.disk v'.fs l

section

variable {own : Owners} {v v₁ : Vol} {l l₁ : List UInt32} {par : UInt32}

theorem balloc_either (ha : Accounted own v l) (hs : Synced v) : ∃ l₁, Accounted own (balloc v).2 l₁ ∧
    Synced (balloc v).2 ∧ (∀ x, x ≠ 1 → (balloc v).2.disk x = v.disk x) ∧
    ((balloc v).1 = noAddr ∨ DataBlock (balloc v).1 ∧ own (balloc v).1 = none ∧ (balloc v).1 ∉ l₁) := by
  cases l with
  | nil =>
    rw [balloc_nil ha.free]
    exact ⟨[], ⟨(short_log ha.formatted).formatted, ha.free, ha.owned⟩, hs, fun _ _ => rfl, .inl rfl⟩
  | cons a l =>
    obtain ⟨fs, -, hb, hal, hda, hnone, hn⟩ := ha.balloc
    rw [hb]
    exact ⟨l, hal, by simp [Synced, afterAlloc], fun x hx => afterAlloc_disk_ne _ _ _ hx, .inr ⟨hda, hnone, hn⟩⟩

theorem grows_new (h : OwnBlocks own v.disk par) (ha : Accounted own v₁ l₁) (hs : Synced v₁)
    (hinode : inodeAt v₁.disk par = inodeAt v.disk par)
    (hdisk : ∀ x r, own x = some (par, r) → v₁.disk x = v.disk x) {child : INode}
    (hchild : child.iNumber.toNat < 512) (hne : par ≠ child.iNumber) (links ino : UInt32) (name : CStr) :
    (inodeAt (addInodeToDirectory (writeInode v₁ child) ⟨par, links, inodeAt v.disk par⟩ ino name).2.disk
      par).icSize.toNat = (inodeAt v.disk par).icSize.toNat + 32 := by
  have hf := ha.formatted
  have hsame : inodeAt (writeInode v₁ child).disk par = inodeAt v.disk par := by
    rw [inodeAt_writeInode_ne hf hchild h.lt hne, hinode]
  have hs₂ : Synced (writeInode v₁ child) := by
    unfold Synced at hs ⊢
    rw [writeInode_disk_ne hf hchild (inodeBlock_ne_one hchild).symm, writeInode_fs]
    exact hs
  have hmaps : Maps own v₁.disk par (inodeAt v.disk par) (max 1 (blockCount (inodeAt v.disk par))) :=
    h.maps.frame (fun _ _ ho => ho) fun h11 => hdisk _ _ (h.maps.index h11)
  have hown : OwnBlocks own (writeInode v₁ child).disk par := by
    refine ⟨h.lt, ?_, ?_, ?_, ?_⟩ <;> rw [hsame]
    · exact h.dir
    · exact h.aligned
    · exact h.small
    · exact hmaps.writeInode ha hchild
  have hgrows := hown.grows (ha.writeInode hchild) hs₂ links ino name
  unfold dirCopy at hgrows
  rwa [hsame] at hgrows

theorem ne_of_dir {i : UInt32} (h : OwnBlocks own v.disk par)
    (hi : (inodeAt v.disk i).icMode = Mode.ifzero.code) : par ≠ i := by
  rintro rfl
  have hdir := h.dir
  rw [hi] at hdir
  exact absurd hdir (by decide)

theorem createFile_eq (ha : Accounted own v l) (hs : Synced v) (h : OwnBlocks own v.disk par)
    (hfree : ∃ i : UInt32, i.toNat < 512 ∧ (inodeAt v.disk i).icMode = Mode.ifzero.code) (inode : INode)
    (name : CStr) : ∃ child : INode, child.iNumber.toNat < 512 ∧ par ≠ child.iNumber ∧
      inodeAt (writeInode (balloc v).2 child).disk par = inodeAt v.disk par ∧
      createFile v inode par name = (child.iNumber,
        (addInodeToDirectory (writeInode (balloc v).2 child) ⟨par, 0, inodeAt v.disk par⟩ child.iNumber name).2) := by
  rcases getFreeInode_cases ha.formatted inode with ⟨-, hall⟩ | ⟨i, hi, hdead, he⟩
  · obtain ⟨i, hi, hdead⟩ := hfree
    exact absurd hdead (hall i hi)
  obtain ⟨l₁, ha₁, -, hdisk, -⟩ := balloc_either ha hs
  set child : INode := { inode with
    iNumber := i
    iIc := { inode.iIc with icMode := Mode.ifreg.code, icSize := 0 }.setDb 0 (balloc v).1 } with hchild
  have hchildlt : child.iNumber.toNat < 512 := hi
  have hne : par ≠ child.iNumber := ne_of_dir h hdead
  have hinode : inodeAt (writeInode (balloc v).2 child).disk par = inodeAt v.disk par := by
    rw [inodeAt_writeInode_ne ha₁.formatted hchildlt h.lt hne]
    unfold inodeAt
    rw [hdisk _ (inodeBlock_ne_one h.lt)]
  have hread := readInode_eq (ha₁.writeInode hchildlt).formatted h.lt ⟨0, 0, (writeInode (balloc v).2 child).stkIc⟩
  rw [hinode] at hread
  refine ⟨child, hchildlt, hne, hinode, ?_⟩
  simp only [createFile, he]
  rw [← hread]

theorem createFile_grows (ha : Accounted own v l) (hs : Synced v) (h : OwnBlocks own v.disk par)
    (hfree : ∃ i : UInt32, i.toNat < 512 ∧ (inodeAt v.disk i).icMode = Mode.ifzero.code) (inode : INode)
    (name : CStr) : (inodeAt (createFile v inode par name).2.disk par).icSize.toNat =
      (inodeAt v.disk par).icSize.toNat + 32 := by
  obtain ⟨child, hlt, hne, -, he⟩ := createFile_eq ha hs h hfree inode name
  obtain ⟨l₁, ha₁, hs₁, hdisk, -⟩ := balloc_either ha hs
  have hinode : inodeAt (balloc v).2.disk par = inodeAt v.disk par := by
    unfold inodeAt
    rw [hdisk _ (inodeBlock_ne_one h.lt)]
  rw [he]
  exact grows_new h ha₁ hs₁ hinode (fun x r hx => hdisk x (ha.owned _ _ hx).1.ne_one) hlt hne 0 child.iNumber name

theorem createFile_returns (ha : Accounted own v []) (hs : Synced v) (h : OwnBlocks own v.disk par)
    (hfree : ∃ i : UInt32, i.toNat < 512 ∧ (inodeAt v.disk i).icMode = Mode.ifzero.code)
    (hroom : (inodeAt v.disk par).icSize.toNat / 32 % 16 ≠ 0)
    (hdirect : (inodeAt v.disk par).icSize.toNat / 512 < 11)
    (haddr : answered ((inodeAt v.disk par).db ((inodeAt v.disk par).icSize.toNat / 512)) = true)
    (hended : ¬Ended v) (inode : INode) (name : CStr) :
    ¬Ended (createFile v inode par name).2 ∧ (createFile v inode par name).1.toNat < 512 := by
  obtain ⟨child, hlt, -, -, he⟩ := createFile_eq ha hs h hfree inode name
  have hi : fsIblkno v.fs = 2 := ha.formatted.iblkno
  have hchild : ¬Ended (writeInode (v.log .full) child) := by
    rw [ended_writeInode (show fsIblkno (v.log .full).fs = 2 from hi) hlt]
    simpa [Ended, Vol.log] using hended
  rw [he, balloc_nil ha.free]
  refine ⟨?_, hlt⟩
  dsimp only
  unfold addInodeToDirectory getDataBlock getDataBlockAddr
  dsimp only
  rw [if_neg fun hr => hroom hr.1]
  dsimp only
  rw [if_pos hdirect, ended_writeInode (by rw [diskWr_fs, writeInode_fs]; exact hi) h.lt, ended_diskWr haddr]
  exact hchild

theorem mkdir_ends {k : Kernel} (ha : Accounted own k.vol [])
    (hfree : ∃ i : UInt32, i.toNat < 512 ∧ (inodeAt k.vol.disk i).icMode = Mode.ifzero.code) (name : CStr) :
    Ended (mkdir k name).2.vol := by
  rcases getFreeInode_cases ha.formatted ⟨0, 0, k.vol.stkIc⟩ with ⟨-, hall⟩ | ⟨i, hi, hdead, he⟩
  · obtain ⟨i, hi, hdead⟩ := hfree
    exact absurd hdead (hall i hi)
  have hends : ∀ x, Ended (diskWr (k.vol.log .full) noAddr x 512) := fun x => by
    unfold diskWr
    rw [if_neg (by rw [(short_log ha.formatted).formatted.num]; decide)]
    exact List.mem_cons_self
  simp only [mkdir, he, balloc_nil ha.free]
  exact ((hends _).later (later_writeInode ..)).later (later_addInodeToDirectory ..)

theorem mkdir_grows {k : Kernel} {a : UInt32} (ha : Accounted own k.vol (a :: l)) (hs : Synced k.vol)
    (h : OwnBlocks own k.vol.disk k.cwd)
    (hfree : ∃ i : UInt32, i.toNat < 512 ∧ (inodeAt k.vol.disk i).icMode = Mode.ifzero.code) (name : CStr) :
    (inodeAt (mkdir k name).2.vol.disk k.cwd).icSize.toNat = (inodeAt k.vol.disk k.cwd).icSize.toNat + 32 := by
  rcases getFreeInode_cases ha.formatted ⟨0, 0, k.vol.stkIc⟩ with ⟨-, hall⟩ | ⟨i, hi, hdead, he⟩
  · obtain ⟨i, hi, hdead⟩ := hfree
    exact absurd hdead (hall i hi)
  obtain ⟨l₁, ha₁, hs₁, hdisk, haddr⟩ := balloc_either ha hs
  set child : INode := ⟨i, 0, { k.vol.stkIc with
    icMode := Mode.ifdir.code, icSize := 64 }.setDb 0 (balloc k.vol).1⟩ with hchild
  set x := newDirBlock (balloc k.vol).2.stkBlk i k.cwd with hx
  set v₂ := diskWr (balloc k.vol).2 (balloc k.vol).1 x 512 with hv₂
  have hcode : mkdir k name = (0, { k with
      vol := (addInodeToDirectory (writeInode v₂ child) ⟨k.cwd, 0, inodeAt k.vol.disk k.cwd⟩ i name).2 }) := by
    simp only [mkdir, he, readInode_eq ha.formatted h.lt]
    rfl
  rw [hcode]
  have hne : k.cwd ≠ child.iNumber := ne_of_dir h hdead
  have hinode : inodeAt (balloc k.vol).2.disk k.cwd = inodeAt k.vol.disk k.cwd := by
    unfold inodeAt
    rw [hdisk _ (inodeBlock_ne_one h.lt)]
  rcases haddr with hnone | ⟨hda, hfresh, hn⟩
  · -- a block is free
    obtain ⟨fs, -, hb, -, hda, -⟩ := ha.balloc
    rw [hb] at hnone
    exact absurd hnone (hda.ne_noAddr)
  · have hput : v₂ = (balloc k.vol).2.put (balloc k.vol).1 x := diskWr_put _ _ (hda.lt_num ha₁.formatted)
    rw [hput]
    have hs₂ : Synced ((balloc k.vol).2.put (balloc k.vol).1 x) := by
      unfold Synced at hs₁ ⊢
      rw [put_disk_ne _ _ hda.ne_one.symm]
      exact hs₁
    refine grows_new h (ha₁.put x hn) hs₂ ?_ (fun y r hy => ?_) hi hne 0 i name
    · rw [inodeAt_put_ne _ (hda.ne_inodeBlock h.lt), hinode]
    · rw [put_disk_ne, hdisk y (ha.owned _ _ hy).1.ne_one]
      rintro rfl
      rw [hfresh] at hy
      cases hy

end

/-- **No creation that runs out of blocks leaves no trace**, wherever the
shortage occurs. The directory has grown by an entry, if the call returns at all:
`mkdir` without a single block does not. -/
theorem failed_creation_leaves_trace {own : Owners} {l : List UInt32} {k : Kernel} (h : Consistent own k.vol l)
    (hfree : ∃ i : UInt32, i.toNat < 512 ∧ (inodeAt k.vol.disk i).icMode = Mode.ifzero.code) :
    (∀ name, (shape k.vol.disk).Dir k.cwd → l.length < blocksToCreate (inodeAt k.vol.disk k.cwd) →
      (l = [] → Ended (mkdir k name).2.vol) ∧ ¬NoTrace l k.vol (mkdir k name).1 (mkdir k name).2.vol) ∧
    ∀ path, getFD k ≠ none → pathToIno k.vol path rootDir = noAddr →
      (shape k.vol.disk).Dir (parentOf k.vol path) →
      l.length < blocksToCreate (inodeAt k.vol.disk (parentOf k.vol path)) →
      ¬NoTrace l k.vol (openFile k path .ocreat).1 (openFile k path .ocreat).2.vol := by
  have ha := h.good.acct
  have hs := h.good.synced
  refine ⟨fun name hcwd _ => ?_, fun path hfd hnew hdir _ hno => ?_⟩
  · cases l with
    | nil =>
      have hends := mkdir_ends ha hfree name
      exact ⟨fun _ => hends, fun hno => hno.returns hends⟩
    | cons a l =>
      have hgrows := mkdir_grows ha hs (h.ownBlocks hcwd) hfree name
      refine ⟨fun hnil => (List.cons_ne_nil a l hnil).elim, fun hno => ?_⟩
      rw [hno.inodes _ (h.ownBlocks hcwd).lt] at hgrows
      omega
  · have hcreates : ∃ inode name, pathToIno2 k.vol path rootDir =
        createFile k.vol inode (parentOf k.vol path) name := by
      rcases pathToIno2_eq k.vol path with ⟨hfound, -⟩ | ⟨-, hlost, -⟩ | ⟨-, -, -, he⟩
      · exact absurd hnew hfound
      · have hlt := (h.ownBlocks hdir).lt
        rw [hlost] at hlt
        exact absurd hlt (by decide)
      · exact he
    obtain ⟨inode, name, he⟩ := hcreates
    have hvol : (openFile k path .ocreat).2.vol = (createFile k.vol inode (parentOf k.vol path) name).2 := by
      rw [(openFile_vol k path .ocreat).1, if_neg hfd, ← he]
      rfl
    have hsize := createFile_grows ha hs (h.ownBlocks hdir) hfree inode name
    rw [← hvol, hno.inodes _ (h.ownBlocks hdir).lt] at hsize
    omega

theorem not_ended_bare (v : Vol) : ¬Ended v.bare := List.not_mem_nil

theorem Blank.bare {m : Nat} {a : UInt32} {v : Vol} {l : List UInt32} (hb : Blank m a v l) : Blank m a v.bare l :=
  ⟨⟨hb.acct.formatted.of_header rfl fun _ _ => rfl, hb.acct.free, hb.acct.owned⟩, hb.synced, hb.cleared,
    hb.mode, hb.size, hb.addr, hb.block⟩

def fullRoot : Vol := ((List.range 64).foldl wipeInodeBlock (freeRange fullVol 1)).bare

theorem fullRoot_blank : Blank 64 66 fullRoot [] := by
  obtain ⟨⟨hf, hl⟩, -⟩ := blank_freeRange (n := 1) (by omega)
  have hb : Blank 64 66 ((List.range 64).foldl wipeInodeBlock (freeRange fullVol 1)) [] :=
    wipeInodes_blank (accounted_none hf hl)
  exact hb.bare

section

variable {v : Vol} {a : UInt32}

theorem Blank.new_file (hb : Blank 64 a v []) :
    Consistent (Function.update (fun _ => none) a (some (rootDir, .data 0))) (rootKernel v).vol [] ∧
    (∃ i : UInt32, i.toNat < 512 ∧ (inodeAt (rootKernel v).vol.disk i).icMode = Mode.ifzero.code) ∧
    pathToIno (rootKernel v).vol [97] rootDir = noAddr ∧
    (shape (rootKernel v).vol.disk).Dir (parentOf (rootKernel v).vol [97]) ∧
    ([] : List UInt32).length < Core.blocksToCreate (inodeAt (rootKernel v).vol.disk (parentOf (rootKernel v).vol [97])) := by
  obtain ⟨-, habsent, -⟩ := newName_rootKernel hb.lists
  have hpar : parentOf (rootKernel v).vol [97] = rootDir := rfl
  rw [hpar]
  refine ⟨hb.consistent, hb.free_inode, ?_, hb.consistent.tree.root, ?_⟩
  · rw [pathToIno, show tokens [97] = [[97]] by decide, walkPath_single _ _ (by decide)]
    exact habsent
  · change _ < Core.blocksToCreate (inodeAt v.disk rootDir)
    rw [hb.blocksToCreate]
    decide

theorem Blank.creates (hb : Blank 64 a v []) (ha : answered a = true) (hended : ¬Ended v) :
    ¬Ended (openFile (rootKernel v) [97] .ocreat).2.vol ∧ (openFile (rootKernel v) [97] .ocreat).1 = 0 := by
  have hcon := hb.consistent
  obtain ⟨⟨dirs, hpath, hwalk⟩, habsent, -⟩ := newName_rootKernel hb.lists
  obtain ⟨inode, hcreate⟩ := pathToIno2_creates (show rootDir ≠ noAddr by decide) hpath hwalk
    (show rootDir ≠ noAddr by decide) habsent
  have hsize : (inodeAt v.disk rootDir).icSize.toNat = 32 := by
    rw [hb.size]
    rfl
  have hfile := createFile_returns hcon.good.acct hcon.good.synced (hcon.ownBlocks hcon.tree.root) hb.free_inode
    (by rw [hsize]; decide) (by rw [hsize]; decide) (by rw [hsize, show 32 / 512 = 0 by decide, hb.addr]; exact ha)
    hended inode [97]
  refine ⟨?_, openFile_rootKernel hcreate hfile.2⟩
  have hvol : (openFile (rootKernel v) [97] .ocreat).2.vol = (createFile v inode rootDir [97]).2 := by
    rw [(openFile_vol (rootKernel v) [97] .ocreat).1, if_neg (show getFD (rootKernel v) ≠ none from Option.some_ne_none 0)]
    exact congrArg Prod.snd hcreate
  rw [hvol]
  exact hfile.1

end

/-- File `a` on a full disk: `open` comes back with a descriptor. -/
theorem create_full_disk : ∃ own, Consistent own (rootKernel fullRoot).vol [] ∧
    pathToIno (rootKernel fullRoot).vol [97] rootDir = noAddr ∧
    ([] : List UInt32).length <
      blocksToCreate (inodeAt (rootKernel fullRoot).vol.disk (parentOf (rootKernel fullRoot).vol [97])) ∧
    ¬Ended (openFile (rootKernel fullRoot) [97] .ocreat).2.vol ∧
    ¬NoTrace [] (rootKernel fullRoot).vol (openFile (rootKernel fullRoot) [97] .ocreat).1
      (openFile (rootKernel fullRoot) [97] .ocreat).2.vol := by
  have hb := fullRoot_blank
  obtain ⟨hcon, -, hnew, -, hshort⟩ := hb.new_file
  obtain ⟨hreturns, hzero⟩ := hb.creates (by decide) (not_ended_bare _)
  refine ⟨_, hcon, hnew, hshort, hreturns, fun hno => ?_⟩
  have hresult := hno.result
  rw [hzero] at hresult
  exact absurd hresult (by decide)

theorem failed_creation_leaves_trace_full :
    Ended (mkdir (rootKernel fullRoot) [97]).2.vol ∧
    ¬NoTrace [] (rootKernel fullRoot).vol (openFile (rootKernel fullRoot) [97] .ocreat).1
      (openFile (rootKernel fullRoot) [97] .ocreat).2.vol := by
  obtain ⟨hcon, hfree, hnew, hdir, hshort⟩ := fullRoot_blank.new_file
  have hleaves := failed_creation_leaves_trace hcon hfree
  exact ⟨(hleaves.1 [97] hdir hshort).1 rfl, hleaves.2 [97] (by decide) hnew hdir hshort⟩

end ArmKernel.Core
