import ArmKernel.Core.Directories
import ArmKernel.Fs.Removal

/-! File system calls on a consistent volume. Beside the volume the invariant
covers the copies of inodes in the active table, which are of regular files
and may have grown past what is on disk. -/
namespace ArmKernel.Core

open Lib Lib.Bytes Lib.Run Fs SuperBlock

/-- A copy of a regular file's inode that fits the volume. -/
structure Loaded (own : Owners) (d : Image) (inode : INode) : Prop where
  number : inode.iNumber.toNat < 512
  regular : inode.iIc.icMode = Mode.ifreg.code
  stored : (inodeAt d inode.iNumber).icMode = Mode.ifreg.code
  maps : Maps own d inode.iNumber inode.iIc (blockCount inode.iIc)
  small : inode.iIc.icSize.toNat < 11 * 512

structure Fsck (own : Owners) (l : List UInt32) (k : Kernel) : Prop where
  disk : Consistent own k.vol l
  small : ∀ i, i.toNat < 512 → (inodeAt k.vol.disk i).icMode = Mode.ifreg.code →
    (inodeAt k.vol.disk i).icSize.toNat < 11 * 512
  loaded : ∀ s, Active k s → Loaded own k.vol.disk (k.ai s)
  cwd : (shape k.vol.disk).Dir k.cwd

section

variable {own own' : Owners} {l l' : List UInt32} {k k' : Kernel} {v' : Vol}

theorem Loaded.not_dir {d : Image} {inode : INode} (h : Loaded own d inode) {D : UInt32}
    (hD : (shape d).Dir D) : D ≠ inode.iNumber := by
  rintro rfl
  have := (mode_of_dir hD).2
  rw [h.stored] at this
  exact absurd this (by decide)

theorem Loaded.live {d : Image} {inode : INode} (h : Loaded own d inode) :
    (shape d).Live inode.iNumber := by
  rw [Shape.Live, shape_mode h.number, h.stored]
  decide

theorem Fsck.setAi (h : Fsck own l k) (hvol : k'.vol = k.vol) (hcwd : k'.cwd = k.cwd)
    (hai : ∀ s, Active k' s → Loaded own k.vol.disk (k'.ai s)) : Fsck own l k' := by
  refine ⟨?_, ?_, ?_, ?_⟩
  · rw [hvol]
    exact h.disk
  · rw [hvol]
    exact h.small
  · rw [hvol]
    exact hai
  · rw [hvol, hcwd]
    exact h.cwd

/-! New files and directories. -/

theorem Fsck.extend (h : Fsck own l k) (hg : Good own' v' l') {par i : UInt32} {ic : ICommon}
    {c : UInt8} {name : CStr} (he : Extended own own' k.vol v' l l' par i ic (c :: name))
    (hc : c ≠ dot) (hm : ic.icMode = Mode.ifdir.code ∨ ic.icMode = Mode.ifreg.code)
    (hdir : ic.icMode = Mode.ifdir.code → ic.icSize.toNat % 32 = 0)
    (hsmall : ic.icSize.toNat < 11 * 512) : Fsck own' l' { k with vol := v' } := by
  refine ⟨h.disk.extend hg he hc hm hdir, he.small hsmall h.small, fun s hs => ?_, he.grown.dir h.cwd⟩
  have hl := h.loaded s hs
  have hne : (k.ai s).iNumber ≠ i := he.grown.ne hl.live
  have hnp : (k.ai s).iNumber ≠ par := (hl.not_dir he.grown.parent).symm
  refine ⟨hl.number, hl.regular, ?_, he.others _ _ _ hl.maps, hl.small⟩
  rw [he.inodes _ hl.number hnp hne]
  exact hl.stored

/-- Room for `n` new files: three blocks and an unused inode for each. -/
structure Room (n : Nat) (l : List UInt32) (d : Image) : Prop where
  blocks : 3 * n ≤ l.length
  inodes : ∃ S : Finset UInt32, n ≤ S.card ∧ ∀ i ∈ S, i.toNat < 512 ∧ ¬(shape d).Live i

theorem Room.le {n m : Nat} {d : Image} (h : Room n l d) (hm : m ≤ n) : Room m l d := by
  obtain ⟨S, hS, hdead⟩ := h.inodes
  exact ⟨by have := h.blocks; omega, S, hm.trans hS, hdead⟩

theorem Room.same {n : Nat} {d d' : Image} (h : Room n l d) (hl : l'.length = l.length)
    (hs : (shape d).Same (shape d')) : Room n l' d' := by
  obtain ⟨S, hS, hdead⟩ := h.inodes
  refine ⟨hl ▸ h.blocks, S, hS, fun i hi => ⟨(hdead i hi).1, ?_⟩⟩
  rw [hs.live]
  exact (hdead i hi).2

theorem Room.not_full {d : Image} (h : Room 1 l d) :
    ¬(l.length < 3 ∨ ∀ i : UInt32, i.toNat < 512 → (shape d).Live i) := by
  obtain ⟨S, hS, hdead⟩ := h.inodes
  obtain ⟨i, hi⟩ := Finset.card_pos.mp (Nat.lt_of_lt_of_le Nat.one_pos hS)
  have hblocks := h.blocks
  rintro (hl | hall)
  · omega
  · exact (hdead i hi).2 (hall i (hdead i hi).1)

theorem Room.create {n : Nat} {v : Vol} {par i : UInt32} {ic : ICommon} {name : CStr}
    (h : Room (n+1) l v.disk) (he : Extended own own' v v' l l' par i ic name) :
    Room n l' v'.disk := by
  obtain ⟨S, hS, hdead⟩ := h.inodes
  have hb := h.blocks
  have ht := he.taken
  refine ⟨by omega, S.erase i, ?_, fun j hj => ?_⟩
  · have := Finset.pred_card_le_card_erase (s := S) (a := i)
    omega
  · obtain ⟨hne, hmem⟩ := Finset.mem_erase.mp hj
    refine ⟨(hdead j hmem).1, ?_⟩
    rw [Shape.Live, he.grown.mode, if_neg hne]
    exact (hdead j hmem).2

/-- What a call that creates at most one regular file leaves. -/
structure Took (l : List UInt32) (d : Image) (l' : List UInt32) (d' : Image) : Prop where
  room : ∀ n, Room (n+1) l d → Room n l' d'
  dirs : ∀ D, (shape d').Dir D → (shape d).Dir D

theorem Took.nothing (l : List UInt32) (d : Image) : Took l d l d :=
  ⟨fun _ h => h.le (by omega), fun _ h => h⟩

/-! Copies come and go. -/

theorem Fsck.load (h : Fsck own l k) {ino : UInt32} (hlt : ino.toNat < 512)
    (hreg : (inodeAt k.vol.disk ino).icMode = Mode.ifreg.code) (inode : INode) :
    Loaded own k.vol.disk (readInode k.vol inode ino) := by
  rw [readInode_eq h.disk.good.acct.formatted hlt]
  exact ⟨hlt, hreg, hreg, h.disk.good.maps ino hlt (by rw [hreg]; decide), h.small ino hlt hreg⟩

theorem Fsck.getAIT (h : Fsck own l k) {ino : UInt32} (hlt : ino.toNat < 512)
    (hreg : (inodeAt k.vol.disk ino).icMode = Mode.ifreg.code) : Fsck own l (getAIT k ino).2 := by
  rcases getAIT_cases k ino with ⟨he, -⟩ | ⟨s, he, -⟩ | ⟨s, he, -⟩
  · rw [he]
    exact h
  · rw [he]
    exact h
  · rw [he]
    refine h.setAi rfl rfl fun t ht => ?_
    by_cases hts : t = s
    · subst hts
      simp only [Function.update_self]
      exact h.load hlt hreg _
    · simp only [Function.update_of_ne hts]
      refine h.loaded t ?_
      simpa [Active, hts] using ht

theorem Fsck.linkFile (h : Fsck own l k) (i : Fin 16) (o s : Fin 128) :
    Fsck own l (linkFile k i o s) := by
  refine h.setAi rfl rfl fun t ht => ?_
  have hl := h.loaded t ((active_linkFile k i o s t).1.mp ht)
  by_cases hts : t = s
  · subst hts
    simp only [Core.linkFile, Kernel.setPcb, Function.update_self]
    exact ⟨hl.number, hl.regular, hl.stored, hl.maps, hl.small⟩
  · simp only [Core.linkFile, Kernel.setPcb, Function.update_of_ne hts]
    exact hl

theorem Fsck.sameDirs_store (h : Fsck own l k) {inode : INode} (hl : Loaded own k.vol.disk inode) :
    SameDirs own k.vol (writeInode k.vol inode) := by
  have hf := h.disk.good.acct.formatted
  refine ⟨fun j hj => ?_, fun D hD => ?_, fun D x r _ hx => ?_⟩
  · by_cases hj' : j = inode.iNumber
    · rw [hj', inodeAt_writeInode_self hf hl.number, hl.regular, hl.stored]
    · rw [inodeAt_writeInode_ne hf hl.number hj hj']
  · exact inodeAt_writeInode_ne hf hl.number (mode_of_dir hD).1 (hl.not_dir hD)
  · exact writeInode_disk_ne hf hl.number ((h.disk.good.acct.owned _ _ hx).1.ne_inodeBlock hl.number)

theorem Fsck.store (h : Fsck own l k) {inode : INode} (hl : Loaded own k.vol.disk inode) :
    Fsck own l { k with vol := writeInode k.vol inode } := by
  have hf := h.disk.good.acct.formatted
  have hg := h.disk.good.writeInode hl.number fun _ => hl.maps
  have hsame := h.sameDirs_store hl
  refine ⟨h.disk.same hg hsame, fun j hj hreg => ?_, fun s hs => ?_, ?_⟩
  · dsimp only at hreg ⊢
    by_cases hj' : j = inode.iNumber
    · rw [hj', inodeAt_writeInode_self hf hl.number]
      exact hl.small
    · rw [inodeAt_writeInode_ne hf hl.number hj hj'] at hreg ⊢
      exact h.small j hj hreg
  · obtain ⟨h1, h2, h3, h4, h5⟩ := h.loaded s hs
    exact ⟨h1, h2, by rw [hsame.mode _ h1]; exact h3, h4.writeInode h.disk.good.acct hl.number, h5⟩
  · exact (hsame.shape h.disk).dir.mpr h.cwd

theorem Fsck.unlinkFile (h : Fsck own l k) (i : Fin 16) (o : Fin 128) {s : Fin 128} (hs : Active k s) :
    Fsck own l (unlinkFile k i o s) := by
  have hl := h.loaded s hs
  have hcopy : ∀ n, Loaded own k.vol.disk { k.ai s with iLinks := n } := fun n =>
    ⟨hl.number, hl.regular, hl.stored, hl.maps, hl.small⟩
  have hvol := vol_unlinkFile k i o s
  by_cases hlast : (k.ai s).iLinks - 1 = 0
  · rw [if_pos hlast] at hvol
    have hstore := h.store (hcopy ((k.ai s).iLinks - 1))
    refine hstore.setAi hvol (cwd_unlinkFile k i o s) fun t ht => ?_
    rcases active_unlinkFile_cases ht with ⟨-, hne, -⟩ | ⟨-, hai, hact⟩
    · exact absurd hlast hne
    · rw [hai]
      exact hstore.loaded t hact
  · rw [if_neg hlast] at hvol
    refine h.setAi hvol (cwd_unlinkFile k i o s) fun t ht => ?_
    rcases active_unlinkFile_cases ht with ⟨-, -, hai⟩ | ⟨-, hai, hact⟩
    · rw [hai]
      exact hcopy _
    · rw [hai]
      exact h.loaded t hact

/-! The calls. -/

/-- A name of 1 to 25 characters that does not start with a dot. -/
def nameOk (name : CStr) : Prop := 1 ≤ name.length ∧ name.length ≤ 25 ∧ name.head? ≠ some dot

theorem nameOk_cons {name : CStr} (h : nameOk name) : ∃ c rest, name = c :: rest ∧ c ≠ dot := by
  obtain ⟨hpos, -, hdot⟩ := h
  cases name with
  | nil => simp at hpos
  | cons c rest => exact ⟨c, rest, rfl, by simpa using hdot⟩

/-- `open` of a path whose names are in order, whose other components are
directories, and that does not name a directory itself. -/
def openOk (v : Vol) (path : CStr) : Prop :=
  (∀ t ∈ tokens path, nameOk t) ∧ dirsAlong v rootDir (tokens path) ∧
    (pathToIno v path rootDir ≠ noAddr →
      (readInode v ⟨0, 0, v.stkIc⟩ (pathToIno v path rootDir)).iIc.icMode ≠ Mode.ifdir.code)

structure OpensFile (v : Vol) (path : CStr) : Prop where
  along : dirsAlong v rootDir (tokens path)
  last : pathToIno v path rootDir = noAddr → ∀ t, (tokens path).getLast? = some t → nameOk t
  file : pathToIno v path rootDir ≠ noAddr →
    (readInode v ⟨0, 0, v.stkIc⟩ (pathToIno v path rootDir)).iIc.icMode ≠ Mode.ifdir.code

theorem openOk.opensFile {v : Vol} {path : CStr} (h : openOk v path) : OpensFile v path :=
  ⟨h.2.1, fun _ t ht => h.1 t (List.mem_of_getLast? ht), h.2.2⟩

theorem isNeg_of_lt {ino : UInt32} (h : ino.toNat < 512) : isNeg ino = false := by
  unfold isNeg
  rw [decide_eq_false_iff_not, UInt32.le_iff_toNat_le]
  have : (0x80000000 : UInt32).toNat = 2147483648 := rfl
  omega

theorem Fsck.found (h : Fsck own l k) {path : CStr} (hok : OpensFile k.vol path)
    (hlive : (shape k.vol.disk).Live (pathToIno k.vol path rootDir)) :
    (pathToIno k.vol path rootDir).toNat < 512 ∧
      (inodeAt k.vol.disk (pathToIno k.vol path rootDir)).icMode = Mode.ifreg.code := by
  have hlt := lt_of_live hlive
  have hne : pathToIno k.vol path rootDir ≠ noAddr := by
    intro he
    rw [he] at hlt
    exact absurd hlt (by decide)
  have hnd := hok.file hne
  rw [readInode_eq h.disk.good.acct.formatted hlt] at hnd
  rcases h.disk.tree.kinds _ hlive with hD | hreg
  · exact absurd (mode_of_dir hD).2 hnd
  · exact ⟨hlt, by rw [← shape_mode hlt]; exact hreg⟩

theorem trivial_good : ∀ own v l, Good own v l → (fun _ : Image => True) v.disk := fun _ _ _ _ => trivial

theorem Good.sound (h : Good own k.vol l) : Sound (fun _ => True) own k.vol l :=
  ⟨h, fun _ _ _ => trivial⟩

/-- What `open( path, O_CREAT )` makes of a consistent volume: it fails to
allocate, changes nothing, or adds an empty file under the last name. -/
theorem pathToIno2_created {v : Vol} (h : Consistent own v l) {path : CStr}
    (hd : dirsAlong v rootDir (tokens path))
    (hlast : pathToIno v path rootDir = noAddr → ∀ t, (tokens path).getLast? = some t → nameOk t) :
    (Failed (pathToIno2 v path rootDir).2 ∧ ¬Room 1 l v.disk) ∨
    (pathToIno2 v path rootDir = (pathToIno v path rootDir, v) ∧
      (pathToIno v path rootDir = noAddr ∨ (shape v.disk).Live (pathToIno v path rootDir))) ∨
    pathToIno v path rootDir = noAddr ∧ ∃ own' l' ic c name, (tokens path).getLast? = some (c :: name) ∧
      c ≠ dot ∧ (pathToIno2 v path rootDir).1.toNat < 512 ∧ ic.icMode = Mode.ifreg.code ∧ ic.icSize = 0 ∧
      Good own' (pathToIno2 v path rootDir).2 l' ∧
      Extended own own' v (pathToIno2 v path rootDir).2 l l' (parentOf v path) (pathToIno2 v path rootDir).1 ic
        (c :: name) := by
  rcases h.navigable.pathToIno2_cases hd with hsame | ⟨hnone, inode, name, hD, hname, he⟩
  · exact .inr (.inl hsame)
  · have hok := hlast hnone name hname
    obtain ⟨c, rest, rfl, hc⟩ := nameOk_cons hok
    rw [he]
    rcases createFile_extended trivial_good (⟨h.good, fun _ _ _ => trivial⟩ : Sound _ own v l) inode hD
      (h.roomy hD) (show (c :: rest).length ≤ 26 from le_trans hok.2.1 (by omega)) with
      ⟨hf, hfull⟩ | ⟨own', l', ic, hlt, hmode, hsize, -, hs', hext⟩
    · refine .inl ⟨hf, fun hr => hr.not_full ?_⟩
      rcases hfull with rfl | ⟨hl3, -⟩ | hall
      · exact .inl (by simp)
      · exact .inl hl3
      · exact .inr hall
    · exact .inr (.inr ⟨hnone, own', l', ic, c, rest, hname, hc, hlt, hmode, hsize, hs'.good, hext⟩)

theorem Fsck.resolve (h : Fsck own l k) {path : CStr} (hok : OpensFile k.vol path) (oflag : OFlag)
    (hroom : oflag = .ocreat → ¬Failed (resolve k.vol path oflag).2 ∨ Room 1 l k.vol.disk) :
    ∃ own' l', Fsck own' l' { k with vol := (resolve k.vol path oflag).2 } ∧
      Took l k.vol.disk l' (resolve k.vol path oflag).2.disk ∧
      (isNeg (resolve k.vol path oflag).1 = false → (resolve k.vol path oflag).1.toNat < 512 ∧
        (inodeAt (resolve k.vol path oflag).2.disk (resolve k.vol path oflag).1).icMode =
          Mode.ifreg.code) := by
  have hexist : isNeg (pathToIno k.vol path rootDir) = false →
      (pathToIno k.vol path rootDir = noAddr ∨
        (shape k.vol.disk).Live (pathToIno k.vol path rootDir)) →
      (pathToIno k.vol path rootDir).toNat < 512 ∧
        (inodeAt k.vol.disk (pathToIno k.vol path rootDir)).icMode = Mode.ifreg.code :=
    fun hneg hcase => by
      rcases hcase with he | hlive
      · rw [he] at hneg
        exact absurd hneg (by decide)
      · exact h.found hok hlive
  cases oflag with
  | oexist =>
    exact ⟨own, l, h, .nothing _ _, fun hneg => hexist hneg
      (h.disk.navigable.walk (.inr h.disk.tree.root.live) hok.along)⟩
  | ocreat =>
    unfold Core.resolve at hroom ⊢
    dsimp only at hroom ⊢
    rcases pathToIno2_created h.disk hok.along hok.last with
      ⟨hf, hfull⟩ | ⟨he, hcase⟩ | ⟨-, own', l', ic, c, name, -, hc, hlt, hmode, hsize, hg, hext⟩
    · rcases hroom rfl with hfail | hr
      · exact absurd hf hfail
      · exact absurd hr hfull
    · rw [he]
      exact ⟨own, l, h, .nothing _ _, fun hneg => hexist hneg hcase⟩
    · refine ⟨own', l', h.extend hg hext hc (.inr hmode) (fun hm => ?_) (by rw [hsize]; decide),
        ⟨fun n hn => hn.create hext, fun D hD => ?_⟩, fun _ => ⟨hlt, ?_⟩⟩
      · rw [hmode] at hm
        exact absurd hm (by decide)
      · rw [Shape.Dir, hext.grown.mode, hmode] at hD
        split at hD
        · exact absurd hD (by decide)
        · exact hD
      · rw [hext.self]
        exact hmode

theorem Fsck.openFile (h : Fsck own l k) (ht : Tables k) {path : CStr} (hok : OpensFile k.vol path)
    (oflag : OFlag) (hroom : oflag = .ocreat → ¬Failed (openFile k path oflag).2.vol ∨ Room 1 l k.vol.disk) :
    (∃ own' l', Fsck own' l' (openFile k path oflag).2 ∧
      Took l k.vol.disk l' (openFile k path oflag).2.vol.disk) ∧ Tables (openFile k path oflag).2 := by
  rcases hv : Core.resolve k.vol path oflag with ⟨ino, v⟩
  have hvol : getFD k ≠ none → (Core.openFile k path oflag).2.vol = v := fun hfd => by
    rw [(openFile_vol k path oflag).1, if_neg hfd, hv]
  have hres : getFD k ≠ none → ∃ own' l', Fsck own' l' { k with vol := v } ∧
      Took l k.vol.disk l' v.disk ∧
      (isNeg ino = false → ino.toNat < 512 ∧ (inodeAt v.disk ino).icMode = Mode.ifreg.code) :=
    fun hfd => by
      rw [hvol hfd] at hroom
      have := h.resolve hok oflag (by rw [hv]; exact hroom)
      rwa [hv] at this
  have hlive : resolvesLive k path oflag := by
    unfold resolvesLive
    rw [hv]
    intro hfd hneg
    obtain ⟨own', l', hf, -, hino⟩ := hres hfd
    obtain ⟨hlt, hreg⟩ := hino hneg
    rw [readInode_eq hf.disk.good.acct.formatted hlt]
    exact (congrArg (· ≠ _) hreg).mpr (by decide)
  refine ⟨?_, ht.openFile hlive⟩
  rcases openFile_cases k path oflag hv rfl with ⟨-, he⟩ | ⟨i, hi, hneg, he⟩ | ⟨i, hi, hneg, he⟩ |
    ⟨i, s, o, hi, hneg, -, -, he⟩
  · rw [he]
    exact ⟨own, l, h, .nothing _ _⟩
  · obtain ⟨own', l', hf, htook, -⟩ := hres (by simp [hi])
    rw [he]
    exact ⟨own', l', hf, htook⟩
  · obtain ⟨own', l', hf, htook, hino⟩ := hres (by simp [hi])
    rw [hvol (by simp [hi]), he]
    exact ⟨own', l', hf.getAIT (hino hneg).1 (hino hneg).2, htook⟩
  · obtain ⟨own', l', hf, htook, hino⟩ := hres (by simp [hi])
    rw [hvol (by simp [hi]), he]
    exact ⟨own', l', (hf.getAIT (hino hneg).1 (hino hneg).2).linkFile i o s, htook⟩

theorem Fsck.close (h : Fsck own l k) (ht : Tables k) (fd : Int) : Fsck own l (close k fd).2 := by
  cases hfd : fdEntry k fd with
  | none =>
    simp only [Core.close, hfd]
    exact h
  | some e =>
    obtain ⟨i, o⟩ := e
    obtain ⟨s, hs⟩ := ht.fdEntry hfd
    rw [close_eq hfd hs]
    exact h.unlinkFile i o (ht.active o s hs)

theorem Fsck.same_close (h : Fsck own l k) (ht : Tables k) (fd : Int) :
    (shape k.vol.disk).Same (shape (Core.close k fd).2.vol.disk) := by
  have hrefl : (shape k.vol.disk).Same (shape k.vol.disk) := ⟨fun _ => rfl, fun _ _ => rfl, fun _ _ _ _ => rfl⟩
  cases hfd : fdEntry k fd with
  | none =>
    simp only [Core.close, hfd]
    exact hrefl
  | some e =>
    obtain ⟨j, o⟩ := e
    obtain ⟨s, hs⟩ := ht.fdEntry hfd
    have hl := h.loaded s (ht.active o s hs)
    rw [close_eq hfd hs]
    dsimp only
    rw [vol_unlinkFile]
    split
    · have hcopy : Loaded own k.vol.disk { k.ai s with iLinks := (k.ai s).iLinks - 1 } :=
        ⟨hl.number, hl.regular, hl.stored, hl.maps, hl.small⟩
      exact (h.sameDirs_store hcopy).shape h.disk
    · exact hrefl

theorem Fsck.mkdir (h : Fsck own l k) {name : CStr} (hname : nameOk name)
    (hfail : ¬Failed (mkdir k name).2.vol) : ∃ own' l', Fsck own' l' (mkdir k name).2 := by
  obtain ⟨c, rest, rfl, hc⟩ := nameOk_cons hname
  rcases mkdir_extended trivial_good (Good.sound h.disk.good) h.cwd (h.disk.roomy h.cwd)
    (show (c :: rest).length ≤ 26 from le_trans hname.2.1 (by omega)) with
    ⟨hf, -⟩ | ⟨own', l', i, ic, v', he, hmode, hsize, -, hs', hext⟩
  · exact absurd hf hfail
  · rw [he]
    exact ⟨own', l', h.extend hs'.good hext hc (.inl hmode) (fun _ => by rw [hsize]; decide)
      (by rw [hsize]; decide)⟩

/-- The end position of a write, as the code computes it. -/
def writeEnd (k : Kernel) (fd : Int) (n : UInt32) : UInt32 :=
  match fdEntry k fd with
  | some (_, o) => (k.of o).oHead + n
  | none => 0

theorem Fsck.fwrite (h : Fsck own l k) (ht : Tables k) (fd : Int) (data : Nat → UInt8) (n : UInt32)
    (hend : (writeEnd k fd n).toNat < 11 * 512)
    (hroom : ¬Failed (fwrite k fd data n).2.vol ∨ (writeEnd k fd n).toNat < 512) :
    ∃ own' l', Fsck own' l' (fwrite k fd data n).2 ∧
      ((writeEnd k fd n).toNat < 512 → l'.length = l.length) ∧
      (shape k.vol.disk).Same (shape (fwrite k fd data n).2.vol.disk) := by
  cases hfd : fdEntry k fd with
  | none =>
    rw [show Core.fwrite k fd data n = (-1, k) by simp only [Core.fwrite, hfd]]
    exact ⟨own, l, h, fun _ => rfl, fun _ => rfl, fun _ _ => rfl, fun _ _ _ _ => rfl⟩
  | some e =>
    obtain ⟨i, o⟩ := e
    obtain ⟨s, hs⟩ := ht.fdEntry hfd
    have hact := ht.active o s hs
    have hl := h.loaded s hact
    rw [writeEnd, hfd] at hend hroom ⊢
    dsimp only at hend
    rw [fwrite_eq data n hfd hs] at hroom ⊢
    dsimp only at hroom ⊢
    -- a file that ends in its first block needs no other
    have hnone : ((k.of o).oHead + n).toNat < 512 →
        blocksToGrow (k.ai s).iIc.icSize.toNat
          (max (k.ai s).iIc.icSize.toNat ((k.of o).oHead + n).toNat) = 0 := fun hlt => by
      unfold blocksToGrow
      rw [show max (k.ai s).iIc.icSize.toNat ((k.of o).oHead + n).toNat / 512 -
        (k.ai s).iIc.icSize.toNat / 512 = 0 by omega]
      rfl
    rcases fwrite_stored trivial_good data (Good.sound h.disk.good) hl.number hl.regular hl.maps
      (show ((k.of o).oHead + n).toNat < 139 * 512 by omega) with
      ⟨hlen, hf⟩ | ⟨own', l', hlen, hsize, hst⟩
    · rcases hroom with hfail | hlt
      · exact absurd hf hfail
      · rw [hnone hlt] at hlen
        omega
    set inode' := (growFor k.vol (k.ai s) (k.of o).oHead n).2.1 with hinode'
    set w := fwriteBytes (growFor k.vol (k.ai s) (k.of o).oHead n).2.2 inode' (k.of o).oHead data n
      with hw
    have hsmall := hl.small
    have hnum : inode'.iNumber = (k.ai s).iNumber := hst.same.1
    have hsame : SameDirs own k.vol w := by
      refine ⟨fun j hj => ?_, fun D hD => hst.inodes D (mode_of_dir hD).1 (hl.not_dir hD),
        fun D x r hD hx => hst.frame x D r hx (hl.not_dir hD)⟩
      by_cases hj' : j = (k.ai s).iNumber
      · rw [hj']
        rcases hst.stored with he | ⟨he, -⟩
        · rw [he]
        · rw [he, hl.regular, hl.stored]
      · rw [hst.inodes j hj hj']
    have hshape := hsame.shape h.disk
    refine ⟨own', l', ⟨h.disk.same hst.sound.good hsame, fun j hj hreg => ?_, fun t htact => ?_,
      hshape.dir.mpr h.cwd⟩, fun hlt => ?_, hshape⟩
    · dsimp only at hreg ⊢
      by_cases hj' : j = (k.ai s).iNumber
      · rw [hj']
        rcases hst.stored with he | ⟨-, he⟩
        · rw [he]
          exact h.small _ hl.number hl.stored
        · rw [he]
          exact hsmall
      · rw [hst.inodes j hj hj'] at hreg ⊢
        exact h.small j hj hreg
    · by_cases hts : t = s
      · subst hts
        simp only [Function.update_self]
        refine ⟨hnum ▸ hl.number, hst.same.2.2.trans hl.regular, ?_, hst.maps, by omega⟩
        rw [hnum, hsame.mode _ hl.number]
        exact hl.stored
      · simp only [Active, Function.update_of_ne hts] at htact ⊢
        obtain ⟨h1, h2, h3, h4, h5⟩ := h.loaded t htact
        exact ⟨h1, h2, by rw [hsame.mode _ h1]; exact h3, hst.others _ _ _ h4, h5⟩
    · rw [hlen, hnone hlt]
      rfl

/-- Entry `e` of the working directory is looked at, has the name, and may be
removed. -/
def Removable (k : Kernel) (name : CStr) (e : Nat) : Prop :=
  e < scanLimit (entryCount (inodeAt k.vol.disk k.cwd)) ∧
    nameMatch name (entryBlock k.vol.disk (inodeAt k.vol.disk k.cwd) e) (e % 16) = true ∧
    removable k.vol k.cwd k.ai (dirEntry k.vol.disk (inodeAt k.vol.disk k.cwd) e) ≠ noAddr

/-- `remove` takes entry `e` out of the working directory, the first that it
can; its inode is neither open, the working directory nor a directory with
entries. -/
structure TakenOut (own : Owners) (l : List UInt32) (k : Kernel) (name : CStr) (v' : Vol) (e : Nat) :
    Prop where
  first : Removable k name e ∧ ∀ j < e, ¬Removable k name j
  proper : (shape k.vol.disk).Proper k.cwd e
  initial : (dirEntry k.vol.disk (inodeAt k.vol.disk k.cwd) e).initial ≠ dot
  notCwd : k.cwd ≠ (dirEntry k.vol.disk (inodeAt k.vol.disk k.cwd) e).dIno
  notOpen : inAit k.ai (dirEntry k.vol.disk (inodeAt k.vol.disk k.cwd) e).dIno = false
  empty : (shape k.vol.disk).Dir (dirEntry k.vol.disk (inodeAt k.vol.disk k.cwd) e).dIno →
    (shape k.vol.disk).count (dirEntry k.vol.disk (inodeAt k.vol.disk k.cwd) e).dIno ≤ 2
  unlisted : Unlisted own k.vol v' l k.cwd e

theorem removed_cases (h : Consistent own k.vol l) (hcwd : (shape k.vol.disk).Dir k.cwd) {name : CStr}
    (hdot : name.head? ≠ some dot) :
    ((removeFromCwd k name).ino = noAddr ∧ (removeFromCwd k name).vol = k.vol ∧
      ∀ e, ¬Removable k name e) ∨
    ∃ e, (removeFromCwd k name).ino ≠ noAddr ∧
      (removeFromCwd k name).child = dirEntry k.vol.disk (inodeAt k.vol.disk k.cwd) e ∧
      TakenOut own l k name (removeFromCwd k name).vol e := by
  obtain ⟨hlt, hmode⟩ := mode_of_dir hcwd
  have hf := h.good.acct.formatted
  unfold removeFromCwd remove
  rw [readInode_eq hf hlt]
  dsimp only
  rw [scanDir_plan h.good.acct (h.navigable.maps hcwd.live) hmode]
  cases hfind : (List.range (scanLimit (entryCount (inodeAt k.vol.disk k.cwd)))).find? fun e =>
    nameMatch name (entryBlock k.vol.disk (inodeAt k.vol.disk k.cwd) e) (e % 16) &&
      removable k.vol k.cwd k.ai (getDir (entryBlock k.vol.disk (inodeAt k.vol.disk k.cwd) e) (e % 16)) !=
        noAddr with
  | none =>
    refine .inl ⟨rfl, rfl, fun e he => ?_⟩
    have := List.find?_eq_none.mp hfind e (List.mem_range.mpr he.1)
    rw [Bool.and_eq_true, bne_iff_ne] at this
    exact this he.2
  | some e =>
    right
    obtain ⟨hhit, hmem, hfirst⟩ := List.find?_range_eq_some.mp hfind
    have hscan := List.mem_range.mp hmem
    simp only [Bool.and_eq_true, bne_iff_ne] at hhit
    obtain ⟨hmatch, hrem⟩ := hhit
    change removable k.vol k.cwd k.ai (dirEntry k.vol.disk (inodeAt k.vol.disk k.cwd) e) ≠ noAddr at hrem
    obtain ⟨-, hne, hai, hsize⟩ := removable_ne hrem
    have he : e < entryCount (inodeAt k.vol.disk k.cwd) := lt_of_lt_of_le hscan (scanLimit_le _)
    have hinit := h.tree.initial_of_match hcwd he hdot hmatch
    have hp : (shape k.vol.disk).Proper k.cwd e := ⟨hcwd, he, fun hd => hinit hd.initial⟩
    have hlive := (h.tree.names _ _ hp).1
    refine ⟨e, ne_noAddr_of_lt (lt_of_live hlive), rfl, ⟨⟨hscan, hmatch, hrem⟩, fun j hj hr => ?_⟩, hp,
      hinit, Ne.symm hne, hai, fun hD => ?_, ?_⟩
    · have := hfirst j hj
      simp only [Bool.not_eq_true', Bool.and_eq_false_iff, bne_eq_false_iff_eq] at this
      rcases this with hno | hno
      · rw [hr.2.1] at hno
        cases hno
      · exact hr.2.2 hno
    · obtain ⟨hclt, hcmode⟩ := mode_of_dir hD
      rw [readInode_eq hf hclt] at hsize
      have hsmall : (inodeAt k.vol.disk
          (dirEntry k.vol.disk (inodeAt k.vol.disk k.cwd) e).dIno).icSize.toNat ≤ 64 := by
        by_contra hbig
        exact hsize ⟨hcmode, UInt32.lt_iff_toNat_lt.mpr (not_le.mp hbig)⟩
      change entryCount _ ≤ 2
      unfold entryCount
      omega
    · exact unlist h.good hlt rfl rfl hmode (h.aligned _ hcwd) he

theorem unlink_cases (h : Consistent own k.vol l) (hcwd : (shape k.vol.disk).Dir k.cwd)
    (hsmall : ∀ i, i.toNat < 512 → (inodeAt k.vol.disk i).icMode = Mode.ifreg.code →
      (inodeAt k.vol.disk i).icSize.toNat < 11 * 512) (name : CStr) :
    (unlink k name).2 = k ∨ ∃ e v₁ v₂ l', (unlink k name).2 = { k with vol := v₂ } ∧
      TakenOut own l k name v₁ e ∧
      Buried own v₁ v₂ l' (dirEntry k.vol.disk (inodeAt k.vol.disk k.cwd) e).dIno := by
  unfold Core.unlink
  split
  · exact .inl rfl
  · next hdot =>
    dsimp only
    rcases removed_cases h hcwd hdot with ⟨hino, -, -⟩ | ⟨e, hino, hchild, ht⟩
    · rw [if_neg (by simp [hino])]
      exact .inl rfl
    · rw [if_pos hino, hchild]
      right
      set c := (dirEntry k.vol.disk (inodeAt k.vol.disk k.cwd) e).dIno with hc
      have hnames : (shape k.vol.disk).Live c := (h.tree.names _ _ ht.proper).1
      have hclt := lt_of_live hnames
      have hsame : inodeAt (removeFromCwd k name).vol.disk c = inodeAt k.vol.disk c :=
        ht.unlisted.inodes c hclt ht.notCwd.symm
      have hlive : (inodeAt k.vol.disk c).icMode ≠ Mode.ifzero.code := by
        rw [← shape_mode hclt]
        exact hnames
      have hsize : (inodeAt k.vol.disk c).icSize.toNat ≤ 11 * 512 := by
        rcases h.tree.kinds c hnames with hD | hreg
        · have := ht.empty hD
          change entryCount (inodeAt k.vol.disk c) ≤ 2 at this
          unfold entryCount at this
          omega
        · have := hsmall c hclt (by rw [← shape_mode hclt]; exact hreg)
          omega
      rw [readInode_eq ht.unlisted.good.acct.formatted hclt]
      obtain ⟨l', hb⟩ := bury
        { (removeFromCwd k name).parent with iNumber := c, iIc := inodeAt (removeFromCwd k name).vol.disk c }
        ht.unlisted.good hclt rfl rfl (by rw [hsame]; exact hlive) (by rw [hsame]; exact hsize)
      exact ⟨e, _, _, l', rfl, ht, hb⟩

theorem Fsck.unlink (h : Fsck own l k) (name : CStr) :
    ∃ own' l', Fsck own' l' (unlink k name).2 := by
  rcases unlink_cases h.disk h.cwd h.small name with he | ⟨e, v₁, v₂, l', he, ht, hb⟩
  · rw [he]
    exact ⟨own, l, h⟩
  · rw [he]
    have hu := ht.unlisted
    have hcut := shape_cut h.disk ht.proper ht.notCwd hu hb
    refine ⟨_, l', h.disk.cut ht.proper ht.initial ht.notCwd ht.empty hu hb, hb.small hu h.cwd h.small,
      fun s hs => ?_, hcut.dir.mpr ⟨h.cwd, ht.notCwd⟩⟩
    have hl := h.loaded s hs
    have hnc := not_inAit ht.notOpen s hs
    have hnp : (k.ai s).iNumber ≠ k.cwd := (hl.not_dir h.cwd).symm
    refine ⟨hl.number, hl.regular, ?_, hl.maps.forget hnc fun x hx => ?_, hl.small⟩
    · rw [hb.inodes _ hl.number hnc, hu.inodes _ hl.number hnp]
      exact hl.stored
    · rw [hb.frame x _ _ hx hnc, hu.frame x _ _ hx hnp]

def cdOk (k : Kernel) (path : CStr) : Prop :=
  dirsAlong k.vol k.cwd (tokens path) ∧
    (pathToIno k.vol path k.cwd ≠ noAddr → (readInode k.vol ⟨0, 0, k.vol.stkIc⟩
      (pathToIno k.vol path k.cwd)).iIc.icMode = Mode.ifdir.code)

theorem Fsck.cd (h : Fsck own l k) {path : CStr} (hok : cdOk k path) : Fsck own l (cd k path).2 := by
  unfold Core.cd
  dsimp only
  split
  · exact h
  · next hne =>
    have hlive := (h.disk.navigable.walk (.inr h.cwd.live) hok.1).resolve_left hne
    exact ⟨h.disk, h.small, h.loaded, h.disk.navigable.dir_of_read hlive (hok.2 hne)⟩

end

end ArmKernel.Core
