import ArmKernel.Core.Stocked
import ArmKernel.Fs.Listing

/-! A reset between any two writes of a run of calls that only add to the disk.
The invariant allows any names, and directories among the active inodes, whose
copies may be older than what is on disk when they are written back. -/
namespace ArmKernel.Core

open Lib Lib.Bytes Lib.Run Fs SuperBlock

/-- Inode `i` of the image is in use and `p` is one of the blocks its size
reaches. -/
structure Refers (d : Image) (i : UInt32) (p : Place) : Prop where
  lt : i.toNat < 512
  live : (inodeAt d i).icMode ≠ Mode.ifzero.code
  reached : Place.In (blockCount (inodeAt d i)) p

/-- The free list that block 1 describes has no duplicates and no block that is
in use, no block is used by two inodes, and after a reset `balloc` hands out no
block that is in use. -/
structure CrashSafe (d : Image) : Prop where
  free : ∃ l, FreeList d (d 1) l ∧ l.Nodup ∧
    ∀ i p, Refers d i p → placeAddr d (inodeAt d i) p ∉ l
  distinct : ∀ i p j q, Refers d i p → Refers d j q →
    placeAddr d (inodeAt d i) p = placeAddr d (inodeAt d j) q → i = j
  reset : ∀ v : Vol, v.disk = d → v.num = 2048 → ∀ i p, Refers d i p →
    (balloc (mount v)).1 ≠ placeAddr d (inodeAt d i) p

theorem crashSafe_of_good (own : Owners) (v : Vol) (l : List UInt32) (h : Good own v l) :
    CrashSafe v.disk := by
  have howns : ∀ i p, Refers v.disk i p → ∃ r, own (placeAddr v.disk (inodeAt v.disk i) p) = some (i, r) :=
    fun i p hr => (h.maps i hr.lt hr.live).owns hr.reached
  have hlist : FreeList v.disk (v.disk 1) l := by
    rw [h.synced]
    exact h.acct.free
  refine ⟨⟨l, hlist, hlist.nodup, fun i p hr => ?_⟩, fun i p j q hi hj he => ?_, fun v' hd hn i p hr => ?_⟩
  · obtain ⟨r, hr⟩ := howns i p hr
    exact (h.acct.owned _ _ hr).2
  · obtain ⟨r, hr⟩ := howns i p hi
    obtain ⟨r', hr'⟩ := howns j q hj
    rw [he, hr'] at hr
    simp only [Option.some.injEq, Prod.mk.injEq] at hr
    exact hr.1.symm
  · obtain ⟨r, ho⟩ := howns i p hr
    obtain ⟨hdata, hfree⟩ := h.acct.owned _ _ ho
    -- the superblock that is read back is the one in memory
    have hfs : (mount v').fs = v.fs := by
      change diskRd v' 1 v'.fs = v.fs
      rw [diskRd_lt _ _ (by rw [hn]; decide), hd, h.synced]
    have hf : Formatted (mount v') :=
      h.acct.formatted.of_header (hn.trans h.acct.formatted.num.symm) fun w _ => by rw [hfs]
    have hl : FreeList (mount v').disk (mount v').fs l := by
      rw [hfs, show (mount v').disk = v.disk from hd]
      exact h.acct.free
    cases l with
    | nil =>
      rw [balloc_nil hl]
      exact hdata.ne_noAddr.symm
    | cons a rest =>
      obtain ⟨fs, -, he, -⟩ := balloc_cons hf hl
      rw [he]
      rintro rfl
      exact hfree List.mem_cons_self

/-! The invariant. -/

/-- An active copy of an inode; that of a directory may be older than the one
on disk. -/
structure Copied (own : Owners) (d : Image) (inode : INode) : Prop where
  number : inode.iNumber.toNat < 512
  live : inode.iIc.icMode ≠ Mode.ifzero.code
  mode : (inodeAt d inode.iNumber).icMode = inode.iIc.icMode
  maps : Maps own d inode.iNumber inode.iIc (blockCount inode.iIc)
  listing : inode.iIc.icMode = Mode.ifdir.code → Listing d inode.iIc ∧
    inode.iIc.icSize.toNat ≤ (inodeAt d inode.iNumber).icSize.toNat

structure Growing (own : Owners) (l : List UInt32) (k : Kernel) : Prop where
  sound : Sound CrashSafe own k.vol l
  root : (shape k.vol.disk).Dir rootDir
  dirs : ∀ D, (shape k.vol.disk).Dir D → Listing k.vol.disk (inodeAt k.vol.disk D)
  copies : ∀ s, Active k s → Copied own k.vol.disk (k.ai s)
  cwd : (shape k.vol.disk).Dir k.cwd

section

variable {own own' : Owners} {l l' : List UInt32} {k k' : Kernel} {v v' : Vol}

theorem Growing.navigable (h : Growing own l k) : Navigable own k.vol l :=
  ⟨h.sound.good, h.root, fun D j hD hj => (h.dirs D hD).live j hj⟩

theorem Growing.setAi (h : Growing own l k) (hvol : k'.vol = k.vol) (hcwd : k'.cwd = k.cwd)
    (hai : ∀ s, Active k' s → Copied own k.vol.disk (k'.ai s)) : Growing own l k' := by
  refine ⟨?_, ?_, ?_, ?_, ?_⟩
  · rw [hvol]
    exact h.sound
  · rw [hvol]
    exact h.root
  · rw [hvol]
    exact h.dirs
  · rw [hvol]
    exact hai
  · rw [hvol, hcwd]
    exact h.cwd

theorem Copied.shape_live {d : Image} {inode : INode} (h : Copied own d inode) :
    (shape d).Live inode.iNumber := by
  rw [Shape.Live, shape_mode h.number, h.mode]
  exact h.live

theorem Copied.setLinks {d : Image} {inode : INode} (h : Copied own d inode) (n : UInt32) :
    Copied own d { inode with iLinks := n } := ⟨h.number, h.live, h.mode, h.maps, h.listing⟩

/-! New files and directories. -/

theorem Copied.extend {inode : INode} (h : Copied own v.disk inode) {par i : UInt32} {ic : ICommon}
    {name : CStr} (he : Extended own own' v v' l l' par i ic name)
    (hlive : ic.icMode ≠ Mode.ifzero.code) (hpar : (inodeAt v.disk par).icMode = Mode.ifdir.code) :
    Copied own' v'.disk inode := by
  have hne : inode.iNumber ≠ i := he.grown.ne h.shape_live
  have hnew : (shape v'.disk).Live i := by
    rw [Shape.Live, he.grown.mode, if_pos rfl]
    exact hlive
  refine ⟨h.number, h.live, ?_, he.others _ _ _ h.maps, fun hdir => ?_⟩
  · rw [← shape_mode h.number, he.grown.mode, if_neg hne, shape_mode h.number, h.mode]
  · obtain ⟨hlist, hsize⟩ := h.listing hdir
    refine ⟨hlist.extend h.maps hdir (fun hp => ?_) he hnew, ?_⟩
    · rw [hp] at hsize
      rw [blockCount_dir hdir, blockCount_dir hpar]
      omega
    · by_cases hp : inode.iNumber = par
      · rw [hp] at hsize ⊢
        rw [he.size]
        omega
      · rw [he.inodes _ h.number hp hne]
        exact hsize

theorem Growing.extend (h : Growing own l k) (hs : Sound CrashSafe own' v' l') {par i : UInt32}
    {ic : ICommon} {name : CStr} (he : Extended own own' k.vol v' l l' par i ic name)
    (hlive : ic.icMode ≠ Mode.ifzero.code)
    (hsize : ic.icMode = Mode.ifdir.code → ic.icSize.toNat % 32 = 0 ∧ 0 < ic.icSize.toNat) :
    Growing own' l' { k with vol := v' } :=
  ⟨hs, he.grown.dir h.root, fun _ hD => Listing.extend_dirs h.sound.good h.dirs he hlive hsize hD,
    fun s hact => (h.copies s hact).extend he hlive (mode_of_dir he.grown.parent).2, he.grown.dir h.cwd⟩

theorem Growing.resolve (h : Growing own l k) {path : CStr} (hd : dirsAlong k.vol rootDir (tokens path))
    (hlast : ∀ t, (tokens path).getLast? = some t → t.length ≤ 25)
    (hfail : ¬Failed (pathToIno2 k.vol path rootDir).2) :
    ∃ own' l', Growing own' l' { k with vol := (pathToIno2 k.vol path rootDir).2 } ∧
      (isNeg (pathToIno2 k.vol path rootDir).1 = false →
        (shape (pathToIno2 k.vol path rootDir).2.disk).Live (pathToIno2 k.vol path rootDir).1) := by
  rcases h.navigable.pathToIno2_cases hd with ⟨he, hfound⟩ | ⟨-, inode, name, hD, hname, he⟩
  · rw [he]
    refine ⟨own, l, h, fun hneg => hfound.resolve_left fun hno => ?_⟩
    dsimp only at hneg
    rw [hno] at hneg
    exact absurd hneg (by decide)
  · rw [he] at hfail ⊢
    have hlen := hlast name hname
    rcases createFile_extended crashSafe_of_good h.sound inode hD (h.dirs _ hD).roomy
      (show name.length ≤ 26 by omega) with ⟨hf, -⟩ | ⟨own', l', ic, hlt, hmode, hsize, -, hs, hext⟩
    · exact absurd hf hfail
    · have hreg : ic.icMode ≠ Mode.ifzero.code := by
        rw [hmode]
        decide
      refine ⟨own', l', h.extend hs hext hreg fun hdir => ?_, fun _ => ?_⟩
      · rw [hmode] at hdir
        exact absurd hdir (by decide)
      · rw [Shape.Live, hext.grown.mode, if_pos rfl]
        exact hreg

theorem Growing.mkdir (h : Growing own l k) {name : CStr} (hlen : name.length ≤ 25)
    (hfail : ¬Failed (mkdir k name).2.vol) : ∃ own' l', Growing own' l' (mkdir k name).2 := by
  rcases mkdir_extended crashSafe_of_good h.sound h.cwd (h.dirs _ h.cwd).roomy
    (show name.length ≤ 26 by omega) with ⟨hf, -⟩ | ⟨own', l', i, ic, v', he, hmode, hsize, -, hs, hext⟩
  · exact absurd hf hfail
  · rw [he]
    refine ⟨own', l', h.extend hs hext (by rw [hmode]; decide) fun _ => ?_⟩
    rw [hsize]
    decide

/-! Copies come and go. -/

theorem Growing.getAIT (h : Growing own l k) {ino : UInt32} (hlive : (shape k.vol.disk).Live ino) :
    Growing own l (getAIT k ino).2 := by
  have hlt := lt_of_live hlive
  rw [Shape.Live, shape_mode hlt] at hlive
  rcases getAIT_cases k ino with ⟨he, -⟩ | ⟨s, he, -⟩ | ⟨s, he, -⟩
  · rw [he]
    exact h
  · rw [he]
    exact h
  · rw [he]
    refine h.setAi rfl rfl fun t ht => ?_
    by_cases hts : t = s
    · subst hts
      simp only [Function.update_self]
      rw [readInode_eq h.sound.good.acct.formatted hlt]
      exact ⟨hlt, hlive, rfl, h.sound.good.maps ino hlt hlive,
        fun hdir => ⟨h.dirs ino (dir_of_mode hlt hdir), le_refl _⟩⟩
    · simp only [Function.update_of_ne hts]
      refine h.copies t ?_
      simpa [Active, hts] using ht

theorem Growing.linkFile (h : Growing own l k) (i : Fin 16) (o s : Fin 128) :
    Growing own l (linkFile k i o s) := by
  refine h.setAi rfl rfl fun t ht => ?_
  have hc := h.copies t ((active_linkFile k i o s t).1.mp ht)
  by_cases hts : t = s
  · subst hts
    simp only [Core.linkFile, Kernel.setPcb, Function.update_self]
    exact hc.setLinks _
  · simp only [Core.linkFile, Kernel.setPcb, Function.update_of_ne hts]
    exact hc

theorem Growing.openFile (h : Growing own l k) (ht : Tables k) {path : CStr}
    (hd : dirsAlong k.vol rootDir (tokens path))
    (hlast : ∀ t, (tokens path).getLast? = some t → t.length ≤ 25)
    (hfail : ¬Failed (openFile k path .ocreat).2.vol) :
    (∃ own' l', Growing own' l' (openFile k path .ocreat).2) ∧ Tables (openFile k path .ocreat).2 := by
  by_cases hfd : getFD k = none
  · have he : Core.openFile k path .ocreat = (-1, k) := by simp only [Core.openFile, hfd]
    rw [he]
    exact ⟨⟨own, l, h⟩, ht⟩
  · rw [(openFile_vol k path .ocreat).1, if_neg hfd] at hfail
    obtain ⟨own', l', hg, hlive⟩ := h.resolve hd hlast hfail
    refine ⟨⟨own', l', ?_⟩, ht.openFile fun _ hneg => ?_⟩
    · rcases openFile_cases k path .ocreat rfl rfl with ⟨hi, -⟩ | ⟨i, -, -, he⟩ | ⟨i, -, hneg, he⟩ |
        ⟨i, s, o, -, hneg, -, -, he⟩
      · exact absurd hi hfd
      · rw [he]
        exact hg
      · rw [he]
        exact hg.getAIT (hlive hneg)
      · rw [he]
        exact (hg.getAIT (hlive hneg)).linkFile i o s
    · have hl := hlive hneg
      have hlt := lt_of_live hl
      rw [Shape.Live, shape_mode hlt] at hl
      change (readInode (pathToIno2 k.vol path rootDir).2 _ (pathToIno2 k.vol path rootDir).1).iIc.icMode ≠ _
      rw [readInode_eq hg.sound.good.acct.formatted hlt]
      exact hl

/-! Copies go back to disk, old ones of directories included. -/

theorem Copied.frame {d d' : Image} {inode : INode} (h : Copied own d inode)
    (hm : Maps own' d' inode.iNumber inode.iIc (blockCount inode.iIc))
    (hd : inode.iIc.icMode = Mode.ifdir.code → ∀ x r, own x = some (inode.iNumber, r) → d' x = d x)
    (hmode : ∀ i, i.toNat < 512 → (inodeAt d' i).icMode = (inodeAt d i).icMode)
    (hsize : inode.iIc.icMode = Mode.ifdir.code →
      inode.iIc.icSize.toNat ≤ (inodeAt d' inode.iNumber).icSize.toNat) : Copied own' d' inode :=
  ⟨h.number, h.live, (hmode _ h.number).trans h.mode, hm, fun hdir =>
    ⟨(h.listing hdir).1.frame h.maps hdir (hd hdir) hmode, hsize hdir⟩⟩

theorem Growing.store (h : Growing own l k) {inode : INode} (hc : Copied own k.vol.disk inode)
    (honly : ∀ t, Active k t → (k.ai t).iNumber = inode.iNumber → (k.ai t).iIc = inode.iIc) :
    Growing own l { k with vol := writeInode k.vol inode } := by
  have hacct := h.sound.good.acct
  have hf := hacct.formatted
  have hself := inodeAt_writeInode_self hf hc.number
  have hother : ∀ j, j.toNat < 512 → j ≠ inode.iNumber →
      inodeAt (writeInode k.vol inode).disk j = inodeAt k.vol.disk j := fun j hj hne =>
    inodeAt_writeInode_ne hf hc.number hj hne
  have hmode : ∀ j, j.toNat < 512 →
      (inodeAt (writeInode k.vol inode).disk j).icMode = (inodeAt k.vol.disk j).icMode := fun j hj => by
    by_cases hj' : j = inode.iNumber
    · rw [hj', hself, hc.mode]
    · rw [hother j hj hj']
  have hblocks : ∀ D x r, own x = some (D, r) → (writeInode k.vol inode).disk x = k.vol.disk x :=
    fun D x r hx => writeInode_disk_ne hf hc.number ((hacct.owned _ _ hx).1.ne_inodeBlock hc.number)
  have hdir : ∀ D, (shape (writeInode k.vol inode).disk).Dir D ↔ (shape k.vol.disk).Dir D := fun D =>
    shape_dir_congr hmode
  refine ⟨h.sound.writeInode crashSafe_of_good hc.number fun _ => hc.maps, (hdir _).mpr h.root, fun D hD => ?_,
    fun t ht => ?_, (hdir _).mpr h.cwd⟩
  · have hD' := (hdir D).mp hD
    obtain ⟨hlt, hDmode⟩ := mode_of_dir hD'
    by_cases hDi : D = inode.iNumber
    · subst hDi
      dsimp only
      rw [hself]
      have hcm : inode.iIc.icMode = Mode.ifdir.code := hc.mode.symm.trans hDmode
      exact (hc.listing hcm).1.frame hc.maps hcm (hblocks _) hmode
    · dsimp only
      rw [hother D hlt hDi]
      exact (h.dirs D hD').frame (h.sound.good.maps D hlt (by rw [hDmode]; decide)) hDmode (hblocks D) hmode
  · have hct := h.copies t ht
    refine hct.frame (hct.maps.writeInode hacct hc.number) (fun _ => hblocks _) hmode fun hcd => ?_
    dsimp only
    by_cases hne : (k.ai t).iNumber = inode.iNumber
    · rw [hne, hself, honly t ht hne]
    · rw [hother _ hct.number hne]
      exact (hct.listing hcd).2

theorem Growing.unlinkFile (h : Growing own l k) (ht : Tables k) (i : Fin 16) (o : Fin 128) {s : Fin 128}
    (hs : Active k s) : Growing own l (unlinkFile k i o s) := by
  have hc := (h.copies s hs).setLinks ((k.ai s).iLinks - 1)
  have hvol := vol_unlinkFile k i o s
  by_cases hlast : (k.ai s).iLinks - 1 = 0
  · rw [if_pos hlast] at hvol
    have hstore := h.store hc fun t htact hn => by rw [ht.unique t s htact hs hn]
    refine hstore.setAi hvol (cwd_unlinkFile k i o s) fun t ht => ?_
    rcases active_unlinkFile_cases ht with ⟨-, hne, -⟩ | ⟨-, hai, hact⟩
    · exact absurd hlast hne
    · rw [hai]
      exact hstore.copies t hact
  · rw [if_neg hlast] at hvol
    refine h.setAi hvol (cwd_unlinkFile k i o s) fun t ht => ?_
    rcases active_unlinkFile_cases ht with ⟨-, -, hai⟩ | ⟨-, hai, hact⟩
    · rw [hai]
      exact hc
    · rw [hai]
      exact h.copies t hact

theorem Growing.close (h : Growing own l k) (ht : Tables k) (fd : Int) : Growing own l (close k fd).2 := by
  cases hfd : fdEntry k fd with
  | none =>
    simp only [Core.close, hfd]
    exact h
  | some e =>
    obtain ⟨i, o⟩ := e
    obtain ⟨s, hs⟩ := ht.fdEntry hfd
    rw [close_eq hfd hs]
    exact h.unlinkFile ht i o (ht.active o s hs)

theorem Growing.fwrite (h : Growing own l k) (ht : Tables k) (fd : Int) (data : Nat → UInt8) (n : UInt32)
    (hreg : ∀ i o s, fdEntry k fd = some (i, o) → inptr k o = some s →
      (k.ai s).iIc.icMode = Mode.ifreg.code)
    (hend : (writeEnd k fd n).toNat < 139 * 512) (hfail : ¬Failed (fwrite k fd data n).2.vol) :
    ∃ own' l', Growing own' l' (fwrite k fd data n).2 := by
  cases hfd : fdEntry k fd with
  | none =>
    rw [show Core.fwrite k fd data n = (-1, k) by simp only [Core.fwrite, hfd]]
    exact ⟨own, l, h⟩
  | some e =>
    obtain ⟨i, o⟩ := e
    obtain ⟨s, hs⟩ := ht.fdEntry hfd
    have hc := h.copies s (ht.active o s hs)
    have hmode := hreg i o s hfd hs
    rw [writeEnd, hfd] at hend
    dsimp only at hend
    rw [fwrite_eq data n hfd hs] at hfail ⊢
    dsimp only at hfail ⊢
    rcases fwrite_stored crashSafe_of_good data h.sound hc.number hmode hc.maps hend with
      ⟨-, hf⟩ | ⟨own', l', -, -, hst⟩
    · exact absurd hf hfail
    set inode' := (growFor k.vol (k.ai s) (k.of o).oHead n).2.1 with hinode'
    set w := fwriteBytes (growFor k.vol (k.ai s) (k.of o).oHead n).2.2 inode' (k.of o).oHead data n
      with hw
    have hnum : inode'.iNumber = (k.ai s).iNumber := hst.same.1
    have hmodes : ∀ j, j.toNat < 512 → (inodeAt w.disk j).icMode = (inodeAt k.vol.disk j).icMode :=
      fun j hj => by
        by_cases hj' : j = (k.ai s).iNumber
        · rw [hj']
          rcases hst.stored with he | ⟨he, -⟩
          · rw [he]
          · rw [he, hc.mode]
        · rw [hst.inodes j hj hj']
    -- no directory is the file that is written
    have hnot : ∀ D, (inodeAt k.vol.disk D).icMode = Mode.ifdir.code → D ≠ (k.ai s).iNumber := by
      rintro D hD rfl
      rw [hc.mode, hmode] at hD
      exact absurd hD (by decide)
    refine ⟨own', l', hst.sound, (shape_dir_congr hmodes).mpr h.root, fun D hD => ?_, fun t htact => ?_,
      (shape_dir_congr hmodes).mpr h.cwd⟩
    · have hD' := (shape_dir_congr hmodes).mp hD
      obtain ⟨hlt, hDmode⟩ := mode_of_dir hD'
      have hne := hnot D hDmode
      dsimp only
      rw [hst.inodes D hlt hne]
      exact (h.dirs D hD').frame (h.sound.good.maps D hlt (by rw [hDmode]; decide)) hDmode
        (fun x r hx => hst.frame x D r hx hne) hmodes
    · by_cases hts : t = s
      · subst hts
        simp only [Function.update_self]
        refine ⟨hnum ▸ hc.number, ?_, ?_, hst.maps, fun hdir => ?_⟩
        · rw [hst.same.2.2]
          exact hc.live
        · rw [hnum, hmodes _ hc.number, hst.same.2.2]
          exact hc.mode
        · rw [hst.same.2.2, hmode] at hdir
          exact absurd hdir (by decide)
      · simp only [Active, Function.update_of_ne hts] at htact ⊢
        have hct := h.copies t htact
        have hne : (k.ai t).iIc.icMode = Mode.ifdir.code → (k.ai t).iNumber ≠ (k.ai s).iNumber := fun hd =>
          hnot _ (hct.mode.trans hd)
        refine hct.frame (hst.others _ _ _ hct.maps) (fun hd x r hx => hst.frame x _ r hx (hne hd)) hmodes
          fun hd => ?_
        rw [hst.inodes _ hct.number (hne hd)]
        exact (hct.listing hd).2

end

/-! Runs from a fresh disk. -/

inductive GrowthCall where
  | open (path : CStr)
  | mkdir (name : CStr)
  | fwrite (fd : Int) (data : Nat → UInt8) (n : UInt32)
  | lseek (fd : Int) (offset : UInt32) (whence : Option Whence)
  | close (fd : Int)

def growthStep (k : Kernel) : Fin 8 × GrowthCall → Kernel
  | (p, .open path) => (openFile { k with current := p } path .ocreat).2
  | (p, .mkdir name) => (mkdir { k with current := p } name).2
  | (p, .fwrite fd data n) => (fwrite { k with current := p } fd data n).2
  | (p, .lseek fd offset whence) => (lseek { k with current := p } fd offset whence).2
  | (p, .close fd) => (close { k with current := p } fd).2

/-- The descriptor, if there is one, is of a regular file. -/
def regularFd (k : Kernel) (fd : Int) : Prop :=
  ∀ i o s, fdEntry k fd = some (i, o) → inptr k o = some s → (k.ai s).iIc.icMode = Mode.ifreg.code

/-- Paths lead through directories, new names have at most 25 characters, only
regular files are written, up to the end of the first indirect block, and no
allocation has failed when a call returns that makes some. -/
def growthOk (k : Kernel) (c : Fin 8 × GrowthCall) : Prop :=
  match c with
  | (_, .open path) => dirsAlong k.vol rootDir (tokens path) ∧
    (∀ t, (tokens path).getLast? = some t → t.length ≤ 25) ∧ ¬Failed (growthStep k c).vol
  | (_, .mkdir name) => name.length ≤ 25 ∧ ¬Failed (growthStep k c).vol
  | (p, .fwrite fd _ n) => regularFd { k with current := p } fd ∧
    (writeEnd { k with current := p } fd n).toNat < (11 + 128) * 512 ∧ ¬Failed (growthStep k c).vol
  | _ => True

def GrowthInv (k : Kernel) : Prop := (∃ own l, Growing own l k) ∧ Tables k

theorem growth_step (k : Kernel) (c : Fin 8 × GrowthCall) (h : GrowthInv k) (hc : growthOk k c) :
    GrowthInv (growthStep k c) := by
  obtain ⟨p, c⟩ := c
  obtain ⟨⟨own, l, hg⟩, ht⟩ := h
  have htp := ht.enter p
  have hgp : Growing own l { k with current := p } := hg.setAi rfl rfl hg.copies
  cases c with
  | «open» path => exact hgp.openFile htp hc.1 hc.2.1 hc.2.2
  | mkdir name =>
    refine ⟨hgp.mkdir hc.1 hc.2, ?_⟩
    obtain ⟨v, he⟩ := mkdir_kernel { k with current := p } name
    rw [growthStep, he]
    exact htp.setVol v
  | fwrite fd data n => exact ⟨hgp.fwrite htp fd data n hc.1 hc.2.1 hc.2.2, htp.fwrite fd data n⟩
  | lseek fd offset whence =>
    refine ⟨⟨own, l, ?_⟩, htp.lseek fd offset whence⟩
    obtain ⟨of', he⟩ := lseek_kernel { k with current := p } fd offset whence
    rw [growthStep, he]
    exact hgp.setAi rfl rfl hg.copies
  | close fd => exact ⟨⟨own, l, hgp.close htp fd⟩, htp.close fd⟩

theorem Fsck.growing {own : Owners} {l : List UInt32} {k : Kernel} (h : Fsck own l k)
    (hidle : ∀ s, ¬Active k s) (htrace : k.vol.trace = []) : Growing own l k := by
  refine ⟨⟨h.disk.good, fun a d hd => ?_⟩, h.disk.tree.root, fun D hD => ?_,
    fun s hs => absurd hs (hidle s), h.cwd⟩
  · rw [htrace] at hd
    cases hd
  · have hroomy := h.disk.roomy hD
    exact ⟨hroomy.aligned, hroomy.pos, h.disk.tree.count_le (fun i hi => mem_liveSet.mpr hi) hD,
      fun j hj => h.disk.tree.entry_live hD hj⟩

/-- **A reset during growth loses no block to two owners.** Whatever calls that
only add to a fresh disk are made, and after whichever of their writes the
machine stops, no block on the free list is in use, none is used by two inodes,
and after the reset `balloc` hands out no block that is in use. -/
theorem growth_crash_safe (k₀ : Kernel) (h₀ : Ready k₀) (calls : List (Fin 8 × GrowthCall))
    (hc : Along growthStep growthOk (wiped k₀) calls) :
    CrashSafe (wiped k₀).vol.disk ∧
      ∀ a d, .wr a d ∈ (run growthStep (wiped k₀) calls).vol.trace → CrashSafe d := by
  have hseed := wiped_seeded h₀
  obtain ⟨own₀, l₀, hf, -⟩ := hseed.fsck
  have hg₀ := hf.growing (wiped_idle h₀) rfl
  obtain ⟨⟨own, l, hg⟩, -⟩ : GrowthInv _ := invariant growth_step ⟨⟨own₀, l₀, hg₀⟩, hseed.tables⟩ hc
  exact ⟨crashSafe_of_good _ _ _ hf.disk.good, hg.sound.past⟩

theorem not_failed_fwriteLoop (inode : INode) (head : UInt32) (data : Nat → UInt8) (n m : Nat) {i : Nat} {v : Vol}
    {addr : UInt32} {buf : Block} (hf : ¬Failed v) : ¬Failed (fwriteLoop inode head data n m i v addr buf).1 := by
  induction m generalizing i v addr buf with
  | zero => exact hf
  | succ m ih =>
    rw [fwriteLoop]
    split
    · exact ih (not_failed_diskWr hf _ _ _)
    · exact ih hf

/-- A write that stays in the block the file ends in takes none from the list. -/
theorem not_failed_fwrite {k : Kernel} {fd : Int} {i : Fin 16} {o s : Fin 128} (data : Nat → UInt8) (n : UInt32)
    (hfd : fdEntry k fd = some (i, o)) (hs : inptr k o = some s)
    (hsame : ((k.of o).oHead + n).toNat / 512 = (k.ai s).iIc.icSize.toNat / 512) (hf : ¬Failed k.vol) :
    ¬Failed (fwrite k fd data n).2.vol := by
  have hgrow : (growFor k.vol (k.ai s) (k.of o).oHead n).2.2 = k.vol := by
    unfold growFor
    split
    · have hcount : ((k.ai s).iIc.icSize + ((k.of o).oHead + n - (k.ai s).iIc.icSize)).toNat / 512 -
          (k.ai s).iIc.icSize.toNat / 512 = 0 := by
        rw [UInt32.add_comm, UInt32.sub_add_cancel, hsame, Nat.sub_self]
      unfold allocateDataBlocks
      dsimp only
      rw [hcount]
      rfl
    · rfl
  rw [fwrite_eq data n hfd hs]
  dsimp only
  rw [hgrow]
  exact not_failed_diskWr (not_failed_fwriteLoop _ _ data _ _ hf) _ _ _

theorem close_works {k : Kernel} (fd : Int) (hf : ¬Failed k.vol) : ¬Failed (close k fd).2.vol ∧
    (close k fd).2.cwd = k.cwd ∧ (close k fd).2.current = k.current := by
  have hait : ∀ s, ¬Failed (unlinkAit k s).vol ∧ (unlinkAit k s).cwd = k.cwd ∧
      (unlinkAit k s).current = k.current := fun s => by
    unfold unlinkAit
    dsimp only
    split
    · exact ⟨not_failed_diskWr hf _ _ _, rfl, rfl⟩
    · exact ⟨hf, rfl, rfl⟩
  unfold close
  cases fdEntry k fd with
  | none => exact ⟨hf, rfl, rfl⟩
  | some e =>
    obtain ⟨i, o⟩ := e
    dsimp only
    cases (k.of o).oInptr with
    | none => exact ⟨hf, rfl, rfl⟩
    | some s => exact hait s

theorem enter_current {k : Kernel} (h : k.current = 0) : { k with current := 0 } = k := by
  rw [← h]

/-- A program file is opened, written and closed, and a directory is made. -/
def growthCalls : List (Fin 8 × GrowthCall) :=
  [(0, .open (cstr "P0")), (0, .fwrite 0 (wordBytes 7) 4), (0, .close 0), (0, .mkdir (cstr "x"))]

/-- The file is slot 0 of the tables, with its head at the start. -/
structure OpenFirst (k : Kernel) : Prop where
  seeded : Seeded 3 k
  current : k.current = 0
  cwd : k.cwd = rootDir
  works : ¬Failed k.vol
  fd : fdEntry k 0 = some (0, 0)
  slot : inptr k 0 = some 0
  head : (k.of 0).oHead = 0
  regular : (k.ai 0).iIc.icMode = Mode.ifreg.code
  size : (k.ai 0).iIc.icSize.toNat = 8

theorem Stocked.openFirst {k : Kernel} (h : Stocked 8 k) (hcurrent : k.current = 0) (hworks : ¬Failed k.vol) :
    OpenFirst (openFile k (cstr "P0") .ocreat).2 := by
  obtain ⟨hname, htok, hinit⟩ := objFiles_ok 0
  have hholds := h.holds 0
  have hseeded : Seeded 3 (openFile k (cstr "P0") .ocreat).2 :=
    Seeded.openFile (n := 3) h.seeded hname htok hinit
  have hidle := h.seeded.tables.idle_of_inactive h.idle
  obtain ⟨own, l, hf, -⟩ := h.seeded.fsck
  change Holds k.vol.disk (pathToIno k.vol (cstr "P0") rootDir) _ at hholds
  have hv : resolve k.vol (cstr "P0") .ocreat = (pathToIno k.vol (cstr "P0") rootDir, k.vol) := by
    rcases pathToIno2_walk k.vol (cstr "P0") (show rootDir ≠ noAddr by decide) with
      ⟨-, he⟩ | ⟨hno, -⟩ | ⟨hno, -⟩
    · exact he
    · exact absurd hno (ne_noAddr_of_lt hholds.lt)
    · exact absurd hno (ne_noAddr_of_lt hholds.lt)
  have hsize := congrArg List.length hholds.contents
  unfold contents at hsize
  rw [List.length_map, List.length_range] at hsize
  rw [hidle.openFile hv (isNeg_of_lt hholds.lt)] at hseeded ⊢
  generalize pathToIno k.vol (cstr "P0") rootDir = i at hholds hsize hseeded ⊢
  have hread := readInode_eq hf.disk.good.acct.formatted hholds.lt (k.ai 0)
  refine ⟨hseeded, hcurrent, h.cwd, hworks, ?_, ?_, ?_, ?_, ?_⟩
  · simp [fdEntry, linkFile, Kernel.setPcb, Kernel.self]
  · simp [inptr, linkFile, Kernel.setPcb]
  · simp [linkFile, Kernel.setPcb, hidle.of]
  · simp only [linkFile, Kernel.setPcb, Function.update_self]
    rw [hread]
    exact hholds.regular
  · simp only [linkFile, Kernel.setPcb, Function.update_self]
    rw [hread]
    exact hsize

theorem growthCalls_ok {k : Kernel} (h : Stocked 8 k) (hcurrent : k.current = 0) (htrace : k.vol.trace = []) :
    Along growthStep growthOk k growthCalls := by
  obtain ⟨hname, htok, -⟩ := objFiles_ok 0
  have hopen : growthStep k (0, .open (cstr "P0")) = (openFile k (cstr "P0") .ocreat).2 := by
    rw [growthStep, enter_current hcurrent]
  have hone := h.openFirst hcurrent (not_failed_of_trace htrace)
  have hdirs := (h.seeded.openOk hname htok).2.1
  refine ⟨⟨hdirs, fun t ht => ?_, by rw [hopen]; exact hone.works⟩, ?_⟩
  · change (tokens (objFiles.getD 0 [])).getLast? = some t at ht
    rw [show tokens (objFiles.getD 0 []) = _ from htok, List.getLast?_singleton, Option.some.injEq] at ht
    rw [← ht]
    decide
  rw [hopen]
  generalize (openFile k (cstr "P0") .ocreat).2 = k₁ at hone
  have hcur₁ := enter_current hone.current
  have hwrite : growthStep k₁ (0, .fwrite 0 (wordBytes 7) 4) = (fwrite k₁ 0 (wordBytes 7) 4).2 := by
    rw [growthStep, hcur₁]
  have hend : writeEnd k₁ 0 4 = 4 := by
    rw [writeEnd, hone.fd]
    dsimp only
    rw [hone.head]
    rfl
  have hwrote : ¬Failed (fwrite k₁ 0 (wordBytes 7) 4).2.vol := by
    refine not_failed_fwrite (wordBytes 7) 4 hone.fd hone.slot ?_ hone.works
    rw [hone.head, hone.size]
    rfl
  have hseeded := hone.seeded.fwrite 0 (wordBytes 7) (by rw [hend]; decide)
  have heq := fwrite_eq (wordBytes 7) 4 hone.fd hone.slot
  have hcwd : (fwrite k₁ 0 (wordBytes 7) 4).2.cwd = rootDir := by
    rw [heq]
    exact hone.cwd
  have hcur₂ : (fwrite k₁ 0 (wordBytes 7) 4).2.current = 0 := by
    rw [heq]
    exact hone.current
  refine ⟨⟨?_, ?_, by rwa [hwrite]⟩, ?_⟩
  · rw [hcur₁]
    intro i o s hfd hs
    rw [hone.fd] at hfd
    cases hfd
    rw [hone.slot] at hs
    cases hs
    exact hone.regular
  · rw [hcur₁, hend]
    decide
  rw [hwrite]
  generalize (fwrite k₁ 0 (wordBytes 7) 4).2 = k₂ at hwrote hseeded hcwd hcur₂
  have hclose : growthStep k₂ (0, .close 0) = (close k₂ 0).2 := by rw [growthStep, enter_current hcur₂]
  obtain ⟨hclosed, hcwd₃, hcur₃⟩ := close_works 0 hwrote
  refine ⟨trivial, ?_⟩
  rw [hclose]
  refine ⟨⟨by decide, ?_⟩, trivial⟩
  rw [growthStep, enter_current (hcur₃.trans hcur₂)]
  exact Seeded.mkdir_works (n := 2) (hseeded.close 0) (hcwd₃.trans hcwd) hclosed (cstr "x")

theorem growth_crash_safe_four : ∃ k, k = run growthStep (wiped blankKernel) growthCalls ∧
    ∀ a d, .wr a d ∈ k.vol.trace → CrashSafe d :=
  ⟨_, rfl, (growth_crash_safe blankKernel ready_blankKernel growthCalls
    (growthCalls_ok (wiped_stocked ready_blankKernel) rfl rfl)).2⟩

end ArmKernel.Core
