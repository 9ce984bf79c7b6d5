import ArmKernel.Core.ParentLinks

/-! Directories that are open. The calls that add or remove entries work on the
inodes on disk, and `close` writes back the copy that `open` made; the copies
stay those of the disk as long as no entry is added to or removed from a
directory while it is in the active table. -/
namespace ArmKernel.Core

open Lib Lib.Bytes Lib.Run Fs SuperBlock

inductive HandleCall where
  | open (path : CStr) (oflag : OFlag)
  | close (fd : Int)
  | mkdir (name : CStr)
  | cd (path : CStr)
  | unlink (name : CStr)
  | mv (name path : CStr)

def handleStep (k : Kernel) : Fin 8 × HandleCall → Kernel
  | (p, .open path oflag) => (openFile { k with current := p } path oflag).2
  | (p, .close fd) => (close { k with current := p } fd).2
  | (p, .mkdir name) => (mkdir { k with current := p } name).2
  | (p, .cd path) => (cd { k with current := p } path).2
  | (p, .unlink name) => (unlink { k with current := p } name).2
  | (p, .mv name path) => (mv { k with current := p } name path).2

/-- The directory a call adds an entry to or removes one from is not in the
active table. -/
def dirsClosed (k : Kernel) : HandleCall → Prop
  | .open path .ocreat =>
    pathToIno k.vol path rootDir = noAddr → inAit k.ai (parentOf k.vol path) = false
  | .mkdir _ => inAit k.ai k.cwd = false
  | .unlink name => name.head? ≠ some dot → (∃ e, Removable k name e) → inAit k.ai k.cwd = false
  | .mv name path => name.head? ≠ some dot → destDir k.vol path → (∃ e, Removable k name e) →
    inAit k.ai k.cwd = false ∧ inAit k.ai (pathToIno k.vol path rootDir) = false
  | _ => True

/-- Beside that, paths lead through directories, names that are created are in
order, `cd` goes to directories, `mv` to other directories and with regular
files, and no allocation has failed when a call returns that makes some. -/
def handleOk (k : Kernel) (c : Fin 8 × HandleCall) : Prop :=
  dirsClosed k c.2 ∧ match c with
  | (_, .open path _) => dirsAlong k.vol rootDir (tokens path) ∧
    (pathToIno k.vol path rootDir = noAddr → ∀ t, (tokens path).getLast? = some t → nameOk t) ∧
    ¬Failed (handleStep k c).vol
  | (_, .close _) => True
  | (_, .mkdir name) => nameOk name ∧ ¬Failed (handleStep k c).vol
  | (_, .cd path) => cdOk k path
  | (_, .unlink _) => True
  | (_, .mv name path) => mvOk k name path ∧ ¬Failed (handleStep k c).vol

def Mirrors (k : Kernel) : Prop :=
  ∀ s, Active k s → (k.ai s).iNumber.toNat < 512 ∧ (k.ai s).iIc = inodeAt k.vol.disk (k.ai s).iNumber

structure Mirrored (own : Owners) (l : List UInt32) (k : Kernel) : Prop where
  linked : Linked own l k
  tables : Tables k
  copies : Mirrors k

section

variable {own own' : Owners} {l l' : List UInt32} {k k' : Kernel} {v' : Vol}

theorem Mirrors.live (h : Mirrors k) {s : Fin 128} (hs : Active k s) :
    (shape k.vol.disk).Live (k.ai s).iNumber := by
  obtain ⟨hlt, hic⟩ := h s hs
  rw [Shape.Live, shape_mode hlt, ← hic]
  exact hs

theorem Mirrors.setVol (h : Mirrors k)
    (hv : ∀ s, Active k s → inodeAt v'.disk (k.ai s).iNumber = inodeAt k.vol.disk (k.ai s).iNumber) :
    Mirrors { k with vol := v' } := by
  intro s hs
  obtain ⟨hlt, hic⟩ := h s hs
  exact ⟨hlt, hic.trans (hv s hs).symm⟩

theorem Mirrors.extend (h : Mirrors k) {par i : UInt32} {ic : ICommon} {name : CStr}
    (he : Extended own own' k.vol v' l l' par i ic name) (hpar : inAit k.ai par = false) :
    Mirrors { k with vol := v' } := by
  apply h.setVol
  intro s hs
  exact he.inodes _ (h s hs).1 (not_inAit hpar s hs) (he.grown.ne (h.live hs))

/-! `open`. -/

theorem Mirrored.resolve (h : Mirrored own l k) {path : CStr} {oflag : OFlag}
    (hd : dirsAlong k.vol rootDir (tokens path))
    (hlast : pathToIno k.vol path rootDir = noAddr → ∀ t, (tokens path).getLast? = some t → nameOk t)
    (hclosed : dirsClosed k (.open path oflag)) (hfail : ¬Failed (resolve k.vol path oflag).2) :
    (∃ own' l', Linked own' l' { k with vol := (resolve k.vol path oflag).2 }) ∧
      Mirrors { k with vol := (resolve k.vol path oflag).2 } ∧
      (isNeg (resolve k.vol path oflag).1 = false →
        (shape (resolve k.vol path oflag).2.disk).Live (resolve k.vol path oflag).1) := by
  have hfound : ∀ {ino : UInt32}, ino = noAddr ∨ (shape k.vol.disk).Live ino → isNeg ino = false →
      (shape k.vol.disk).Live ino := by
    intro ino hcase hneg
    apply hcase.resolve_left
    rintro rfl
    exact absurd hneg (by decide)
  have hdisk := h.linked.disk
  cases oflag with
  | oexist =>
    exact ⟨⟨own, l, h.linked⟩, h.copies,
      hfound (hdisk.navigable.walk (.inr hdisk.tree.root.live) hd)⟩
  | ocreat =>
    unfold Core.resolve at hfail ⊢
    dsimp only at hfail ⊢
    rcases pathToIno2_created hdisk hd hlast with
      ⟨hf, -⟩ | ⟨he, hcase⟩ | ⟨hnone, own', l', ic, c, name, -, hc, hlt, hmode, hsize, hg, hext⟩
    · exact absurd hf hfail
    · rw [he]
      exact ⟨⟨own, l, h.linked⟩, h.copies, hfound hcase⟩
    · refine ⟨⟨own', l', h.linked.extend hg hext hc (.inr hmode) (by rw [hsize]; decide)
        (by rw [hsize]; decide)⟩, h.copies.extend hext (hclosed hnone), fun _ => ?_⟩
      rw [Shape.Live, hext.grown.mode, if_pos rfl, hmode]
      decide

theorem Mirrors.getAIT (h : Mirrors k) (hf : Formatted k.vol) {ino : UInt32} (hlt : ino.toNat < 512) :
    Mirrors (getAIT k ino).2 := by
  rcases getAIT_cases k ino with ⟨he, -⟩ | ⟨s, he, -⟩ | ⟨s, he, -⟩
  · rw [he]
    exact h
  · rw [he]
    exact h
  · rw [he]
    intro t ht
    by_cases hts : t = s
    · subst hts
      rw [readInode_eq hf hlt]
      simp only [Function.update_self]
      exact ⟨hlt, trivial⟩
    · simp only [Active, Function.update_of_ne hts] at ht ⊢
      exact h t ht

theorem Mirrors.linkFile (h : Mirrors k) (i : Fin 16) (o s : Fin 128) : Mirrors (linkFile k i o s) := by
  intro t ht
  have hold := h t ((active_linkFile k i o s t).1.mp ht)
  by_cases hts : t = s
  · subst hts
    simpa [Core.linkFile, Kernel.setPcb] using hold
  · simpa [Core.linkFile, Kernel.setPcb, hts] using hold

theorem Mirrored.openFile (h : Mirrored own l k) {path : CStr} {oflag : OFlag}
    (hd : dirsAlong k.vol rootDir (tokens path))
    (hlast : pathToIno k.vol path rootDir = noAddr → ∀ t, (tokens path).getLast? = some t → nameOk t)
    (hclosed : dirsClosed k (.open path oflag)) (hfail : ¬Failed (openFile k path oflag).2.vol) :
    ∃ own' l', Mirrored own' l' (openFile k path oflag).2 := by
  obtain ⟨hvol, hcwd⟩ := openFile_vol k path oflag
  by_cases hfd : getFD k = none
  · have he : Core.openFile k path oflag = (-1, k) := by
      unfold Core.openFile
      rw [hfd]
    rw [he]
    exact ⟨own, l, h⟩
  · rw [if_neg hfd] at hvol
    rw [hvol] at hfail
    obtain ⟨⟨own', l', hl⟩, hm, hlive⟩ := h.resolve hd hlast hclosed hfail
    rcases hv : Core.resolve k.vol path oflag with ⟨ino, v⟩
    rw [hv] at hvol hl hm hlive
    have hf := hl.disk.good.acct.formatted
    have hopens : resolvesLive k path oflag := by
      unfold resolvesLive
      rw [hv]
      intro _ hneg
      have hino := hlive hneg
      have hlt := lt_of_live hino
      rw [Shape.Live, shape_mode hlt] at hino
      rw [readInode_eq hf hlt]
      exact hino
    refine ⟨own', l', hl.setVol hvol hcwd, h.tables.openFile hopens, ?_⟩
    rcases openFile_cases k path oflag hv rfl with ⟨hnone, -⟩ | ⟨i, -, -, he⟩ | ⟨i, -, hneg, he⟩ |
      ⟨i, s, o, -, hneg, -, -, he⟩
    · exact absurd hnone hfd
    · rw [he]
      exact hm
    · rw [he]
      exact hm.getAIT hf (lt_of_live (hlive hneg))
    · rw [he]
      exact (hm.getAIT hf (lt_of_live (hlive hneg))).linkFile i o s

/-! `close`. -/

theorem Mirrored.unlinkFile_vol (h : Mirrored own l k) (i : Fin 16) (o : Fin 128) {s : Fin 128}
    (hs : Active k s) : ∃ t, (unlinkFile k i o s).vol = { k.vol with trace := t } := by
  obtain ⟨hlt, hic⟩ := h.copies s hs
  rw [vol_unlinkFile]
  split
  · have hw : writeInode k.vol { k.ai s with iLinks := (k.ai s).iLinks - 1 } = _ :=
      writeInode_unchanged h.linked.disk.good.acct.formatted hlt hic
    exact ⟨_, hw⟩
  · exact ⟨k.vol.trace, rfl⟩

theorem Linked.setTrace (h : Linked own l k) {t : List Event} (hvol : k'.vol = { k.vol with trace := t })
    (hcwd : k'.cwd = k.cwd) : Linked own l k' :=
  (show Linked own l { k with vol := { k.vol with trace := t } } from
    ⟨h.disk.setTrace t, h.reach, h.small, h.cwd⟩).setVol hvol hcwd

theorem Mirrored.unlinkFile (h : Mirrored own l k) {i : Fin 16} {o s : Fin 128}
    (hi : (k.pcb k.current).fd i = some o) (hs : inptr k o = some s) : Mirrored own l (unlinkFile k i o s) := by
  have hact := h.tables.active o s hs
  obtain ⟨t, hvol⟩ := h.unlinkFile_vol i o hact
  refine ⟨h.linked.setTrace hvol (cwd_unlinkFile k i o s), h.tables.unlinkFile hi hs, fun u hu => ?_⟩
  rw [hvol]
  rcases active_unlinkFile_cases hu with ⟨-, -, hai⟩ | ⟨-, hai, hold⟩
  · rw [hai]
    exact h.copies s hact
  · rw [hai]
    exact h.copies u hold

theorem Mirrored.close (h : Mirrored own l k) (fd : Int) : Mirrored own l (close k fd).2 ∧
    (close k fd).2.vol.disk = k.vol.disk := by
  cases hfd : fdEntry k fd with
  | none =>
    simp only [Core.close, hfd]
    exact ⟨h, trivial⟩
  | some e =>
    obtain ⟨i, o⟩ := e
    obtain ⟨s, hs⟩ := h.tables.fdEntry hfd
    obtain ⟨t, hvol⟩ := h.unlinkFile_vol i o (h.tables.active o s hs)
    rw [close_eq hfd hs]
    refine ⟨h.unlinkFile (fdEntry_some hfd).2 hs, ?_⟩
    rw [hvol]

/-! The calls that change directories. -/

theorem Mirrored.setVol (h : Mirrored own l k) (hl : Linked own' l' { k with vol := v' })
    (hm : Mirrors { k with vol := v' }) : Mirrored own' l' { k with vol := v' } :=
  ⟨hl, h.tables.setVol v', hm⟩

theorem Mirrored.mkdir (h : Mirrored own l k) {name : CStr} (hname : nameOk name)
    (hclosed : inAit k.ai k.cwd = false) (hfail : ¬Failed (mkdir k name).2.vol) :
    ∃ own' l', Mirrored own' l' (mkdir k name).2 := by
  obtain ⟨c, rest, rfl, hc⟩ := nameOk_cons hname
  have hdisk := h.linked.disk
  rcases mkdir_extended trivial_good (Good.sound hdisk.good) h.linked.cwd (hdisk.roomy h.linked.cwd)
    (show (c :: rest).length ≤ 26 from le_trans hname.2.1 (by omega)) with
    ⟨hf, -⟩ | ⟨own', l', i, ic, v', he, hmode, hsize, -, hs', hext⟩
  · exact absurd hf hfail
  · rw [he]
    exact ⟨own', l', h.setVol (h.linked.extend hs'.good hext hc (.inl hmode) (by rw [hsize]; decide)
      (by rw [hsize]; decide)) (h.copies.extend hext hclosed)⟩

theorem Mirrored.unlink (h : Mirrored own l k) {name : CStr} (hclosed : dirsClosed k (.unlink name)) :
    ∃ own' l', Mirrored own' l' (unlink k name).2 := by
  by_cases hdot : name.head? = some dot
  · have he : (Core.unlink k name).2 = k := by
      unfold Core.unlink
      rw [if_pos hdot]
    rw [he]
    exact ⟨own, l, h⟩
  · obtain ⟨own', l', hl⟩ := h.linked.unlink name
    refine ⟨own', l', hl, h.tables.unlink name, ?_⟩
    rcases unlink_cases h.linked.disk h.linked.cwd h.linked.small name with he | ⟨e, v₁, v₂, l₂, he, ht, hb⟩
    · rw [he]
      exact h.copies
    · rw [he]
      apply h.copies.setVol
      intro s hs
      have hcwd := not_inAit (hclosed hdot ⟨e, ht.first.1⟩) s hs
      have hlt := (h.copies s hs).1
      rw [hb.inodes _ hlt (not_inAit ht.notOpen s hs), ht.unlisted.inodes _ hlt hcwd]

theorem Mirrored.mv (h : Mirrored own l k) {name path : CStr} (hclosed : dirsClosed k (.mv name path))
    (hok : mvOk k name path) (hfail : ¬Failed (mv k name path).2.vol) :
    ∃ own' l', Mirrored own' l' (mv k name path).2 := by
  obtain ⟨own', l', hl⟩ := h.linked.mv hok hfail
  have hsb : ∀ {own l} {v : Vol}, Good own v l → (updateSb v).disk = v.disk := fun hg => by
    rw [hg.updateSb]
  have hrest : Tables (Core.mv k name path).2 ∧ Mirrors (Core.mv k name path).2 := by
    rcases mv_cases h.linked.disk h.linked.cwd (hok.imp_right And.left) with
      he | he | ⟨⟨hdot, hdest, hq⟩, e, ht, he⟩
    · rw [he]
      exact ⟨h.tables, h.copies⟩
    · rw [he]
      refine ⟨h.tables.setVol _, h.copies.setVol fun s _ => ?_⟩
      rw [hsb h.linked.disk.good]
    · rw [he] at hfail ⊢
      obtain ⟨-, hname, hne⟩ := (hok.resolve_left hdot).2 hdest e ht.first.1 ht.first.2
      obtain ⟨own₂, l₂, hg, ha⟩ := ht.appended h.linked.disk hq hne (le_trans hname.2.1 (by omega)) hfail
      obtain ⟨hcwd, hto⟩ := hclosed hdot hdest ⟨e, ht.first.1⟩
      refine ⟨h.tables.setVol _, h.copies.setVol fun s hs => ?_⟩
      have hlt := (h.copies s hs).1
      rw [hsb hg, ha.inodes _ hlt (not_inAit hto s hs), ht.unlisted.inodes _ hlt (not_inAit hcwd s hs)]
  exact ⟨own', l', hl, hrest.1, hrest.2⟩

end

/-! Runs. -/

def MirroredInv (k : Kernel) : Prop := ∃ own l, Mirrored own l k

theorem handle_step (k : Kernel) (c : Fin 8 × HandleCall) (h : MirroredInv k) (hc : handleOk k c) :
    MirroredInv (handleStep k c) := by
  obtain ⟨p, c⟩ := c
  obtain ⟨own, l, h⟩ := h
  obtain ⟨hclosed, hok⟩ := hc
  have hp : Mirrored own l { k with current := p } :=
    ⟨h.linked.setVol rfl rfl, h.tables.enter p, h.copies⟩
  cases c with
  | «open» path oflag => exact hp.openFile hok.1 hok.2.1 hclosed hok.2.2
  | close fd => exact ⟨own, l, (hp.close fd).1⟩
  | mkdir name => exact hp.mkdir hok.1 hclosed hok.2
  | cd path =>
    refine ⟨own, l, hp.linked.cd hok, ?_, ?_⟩
    · obtain ⟨ino, he⟩ := cd_kernel { k with current := p } path
      rw [handleStep, he]
      exact hp.tables.setVolume k.vol ino
    · obtain ⟨ino, he⟩ := cd_kernel { k with current := p } path
      rw [handleStep, he]
      exact hp.copies
  | unlink name => exact hp.unlink hclosed
  | mv name path => exact hp.mv hclosed hok.1 hok.2

theorem Seeded.mirrored {n : Nat} {k : Kernel} (h : Seeded n k) (hidle : ∀ s, ¬Active k s) : MirroredInv k := by
  obtain ⟨own, l, hl⟩ := h.linked
  exact ⟨own, l, hl, h.tables, fun s hs => absurd hs (hidle s)⟩

/-- **Closing a directory undoes nothing.** In a run in which entries are added
and removed only in directories that are not open, every copy in the active
table is the inode on disk, and closing any descriptor of any process leaves the
disk, and so every directory, as it is. -/
theorem close_keeps_directories (k₀ : Kernel) (h₀ : Ready k₀) (calls : List (Fin 8 × HandleCall))
    (hc : Along handleStep handleOk (wiped k₀) calls) :
    let k := run handleStep (wiped k₀) calls
    (∀ s, Active k s → (k.ai s).iIc = inodeAt k.vol.disk (k.ai s).iNumber) ∧
      ∀ p fd, (handleStep k (p, .close fd)).vol.disk = k.vol.disk := by
  intro k
  obtain ⟨own, l, h⟩ : MirroredInv k :=
    invariant handle_step ((wiped_seeded h₀).mirrored (wiped_idle h₀)) hc
  refine ⟨fun s hs => (h.copies s hs).2, fun p fd => ?_⟩
  have hp : Mirrored own l { k with current := p } :=
    ⟨h.linked.setVol rfl rfl, h.tables.enter p, h.copies⟩
  exact (hp.close fd).2

def rootOpened : List (Fin 8 × HandleCall) := [(0, .mkdir (cstr "x")), (0, .open [slash] .oexist)]

theorem rootOpened_ok {n : Nat} {k : Kernel} (h : Seeded (n+1) k) (hcwd : k.cwd = rootDir)
    (hidle : ∀ s, ¬Active k s) (hcur : { k with current := 0 } = k) (htrace : k.vol.trace = []) :
    Along handleStep handleOk k rootOpened := by
  have hname : nameOk (cstr "x") := by
    unfold nameOk
    decide
  have htok : tokens [slash] = [] := by decide
  have hclosed : inAit k.ai k.cwd = false := by
    unfold inAit
    rw [List.any_eq_false]
    intro s _
    have := hidle s
    rw [Active, not_not] at this
    simp [this]
  have hmkdir : ¬Failed (handleStep k (0, .mkdir (cstr "x"))).vol := by
    rw [handleStep, hcur]
    exact h.mkdir_ok hcwd htrace (cstr "x")
  refine ⟨⟨hclosed, hname, hmkdir⟩, ⟨trivial, ?_, fun _ t ht => ?_, ?_⟩, trivial⟩
  · rw [htok]
    trivial
  · rw [htok] at ht
    cases ht
  · rw [handleStep, openFile_oexist_vol]
    exact hmkdir

theorem close_keeps_new_directory : ∃ k, k = run handleStep (wiped blankKernel) rootOpened ∧
    (handleStep k (0, .close 0)).vol.disk = k.vol.disk :=
  ⟨_, rfl, (close_keeps_directories blankKernel ready_blankKernel rootOpened
    (rootOpened_ok (wiped_seeded ready_blankKernel) rfl (wiped_idle ready_blankKernel) rfl rfl)).2 0 0⟩

/-! A directory that is made while the root is open. -/

theorem Seeded.close_undoes {n : Nat} {k : Kernel} (h : Seeded (n+1) k) (hidle : Idle k) (hcwd : k.cwd = rootDir)
    (hcur : { k with current := 0 } = k) :
    let k₁ := run handleStep k [(0, .open [slash] .oexist), (0, .mkdir (cstr "x"))]
    let k₂ := handleStep k₁ (0, .close 0)
    ¬∀ e < entryCount (inodeAt k₁.vol.disk rootDir), ∃ e' < entryCount (inodeAt k₂.vol.disk rootDir),
      dirEntry k₂.vol.disk (inodeAt k₂.vol.disk rootDir) e' =
        dirEntry k₁.vol.disk (inodeAt k₁.vol.disk rootDir) e := by
  intro k₁ k₂
  obtain ⟨own, l, hf, hroom⟩ := h.fsck
  have hroot := hf.disk.tree.root
  obtain ⟨hlt, -⟩ := mode_of_dir hroot
  have hres : resolve k.vol [slash] .oexist = (rootDir, k.vol) := by
    unfold resolve pathToIno
    rw [show tokens [slash] = [] by decide, walkPath]
  have hopen := hidle.openFile hres (by decide)
  rw [readInode_eq hf.disk.good.acct.formatted hlt] at hopen
  set ic := inodeAt k.vol.disk rootDir with hic
  set ko := (Core.openFile k [slash] .oexist).2 with hko
  have hvol : ko.vol = k.vol := openFile_oexist_vol k [slash]
  have hcwdo : ko.cwd = rootDir := by rw [hko, hopen, ← hcwd]; rfl
  have hcopy : ko.ai 0 = ⟨rootDir, 1, ic⟩ := by
    rw [hko, hopen]
    simp [linkFile, Kernel.setPcb, (hidle.ai 0).1]
  have hinptr : inptr ko 0 = some 0 := by
    rw [hko, hopen, inptr_linkFile, Function.update_self]
  have hdisk : Consistent own ko.vol l := hvol ▸ hf.disk
  have hdir : (shape ko.vol.disk).Dir ko.cwd := by
    rw [hvol, hcwdo]
    exact hroot
  rcases mkdir_extended trivial_good (Good.sound hdisk.good) hdir (hdisk.roomy hdir)
    (show (cstr "x").length ≤ 26 by decide) with ⟨-, hfull⟩ | ⟨own', l', i, ic', v', he, hmode, hsize, -, hs', hext⟩
  · rw [hvol] at hfull
    exact absurd hfull (hroom.le (m := 1) (by omega)).not_full
  · rw [hcwdo, hvol] at hext
    have hx := not_seedInitial.1
    have hcons := hf.disk.extend hs'.good (hx ▸ hext) (by decide) (.inl hmode) fun _ => by rw [hsize]; decide
    have hcurrent : ko.current = 0 := by
      rw [hko, hopen, ← congrArg Kernel.current hcur]
      rfl
    have henter : { ko with current := 0 } = ko := by rw [← hcurrent]
    have hk₁ : k₁ = { ko with vol := v' } := by
      change (mkdir { (Core.openFile { k with current := 0 } [slash] .oexist).2 with current := 0 } (cstr "x")).2 = _
      rw [hcur, ← hko, henter, he]
    have hentry : fdEntry { ko with vol := v' } 0 = some (0, 0) := by
      unfold fdEntry
      rw [dif_pos (by omega), hko, hopen]
      simp [linkFile, Kernel.setPcb, Kernel.self]
    -- the copy has one link, so that `close` writes it over the root with the new entry
    have hk₂ : k₂.vol = writeInode v' ⟨rootDir, 0, ic⟩ := by
      change (Core.close { k₁ with current := 0 } 0).2.vol = _
      rw [hk₁, show ({ ko with vol := v', current := 0 } : Kernel) = { ko with vol := v' } by rw [← hcurrent],
        close_eq hentry hinptr, vol_unlinkFile_last (by rw [hcopy])]
      dsimp only
      rw [hcopy]
    have hold : inodeAt k₂.vol.disk rootDir = ic := by
      rw [hk₂]
      exact inodeAt_writeInode_self hs'.good.acct.formatted hlt
    have hcount := hext.grown.count _ hroot
    rw [if_pos rfl] at hcount
    change _ = entryCount ic + 1 at hcount
    rw [hold, hk₁]
    exact hcons.tree.not_all_kept hcons.tree.root (by omega) _

theorem close_undoes_mkdir :
    let k := run handleStep (wiped blankKernel) [(0, .open [slash] .oexist), (0, .mkdir (cstr "x"))]
    let k' := handleStep k (0, .close 0)
    ¬∀ e < entryCount (inodeAt k.vol.disk rootDir), ∃ e' < entryCount (inodeAt k'.vol.disk rootDir),
      dirEntry k'.vol.disk (inodeAt k'.vol.disk rootDir) e' =
        dirEntry k.vol.disk (inodeAt k.vol.disk rootDir) e :=
  (wiped_seeded ready_blankKernel).close_undoes
    ⟨ready_blankKernel.idle.ai, ready_blankKernel.idle.of, ready_blankKernel.idle.fd⟩ rfl rfl

end ArmKernel.Core
