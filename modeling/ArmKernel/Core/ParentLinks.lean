import ArmKernel.Core.Stocked
import ArmKernel.Fs.Lookup
import ArmKernel.Fs.Rooted

/-! The directory tree and its parent links under `open`, `mkdir`, `cd`,
`unlink` and `mv`. A directory that `mv` moves keeps the `..` it had, so the
links hold as long as only regular files move. -/
namespace ArmKernel.Core

open Lib Lib.Bytes Lib.Run Fs SuperBlock

inductive TreeCall where
  | open (path : CStr)
  | mkdir (name : CStr)
  | cd (path : CStr)
  | unlink (name : CStr)
  | mv (name path : CStr)

def treeStep (k : Kernel) : Fin 8 × TreeCall → Kernel
  | (p, .open path) => (openFile { k with current := p } path .ocreat).2
  | (p, .mkdir name) => (mkdir { k with current := p } name).2
  | (p, .cd path) => (cd { k with current := p } path).2
  | (p, .unlink name) => (unlink { k with current := p } name).2
  | (p, .mv name path) => (mv { k with current := p } name path).2

/-- The destination of a move is found and is a directory. -/
def destDir (v : Vol) (path : CStr) : Prop :=
  pathToIno v path rootDir ≠ noAddr ∧
    (readInode v ⟨0, 0, v.stkIc⟩ (pathToIno v path rootDir)).iIc.icMode = Mode.ifdir.code

/-- When the move goes through, the entry that `remove` takes is that of a
regular file, its stored name is in order, and the destination is another
directory than the working one. -/
def mvOk (k : Kernel) (name path : CStr) : Prop :=
  name.head? = some dot ∨ dirsAlong k.vol rootDir (tokens path) ∧ (destDir k.vol path →
    ∀ e, Removable k name e → (∀ j < e, ¬Removable k name j) →
      let dir := dirEntry k.vol.disk (inodeAt k.vol.disk k.cwd) e
      (inodeAt k.vol.disk dir.dIno).icMode = Mode.ifreg.code ∧ nameOk (dNameString k.vol dir) ∧
        pathToIno k.vol path rootDir ≠ k.cwd)

/-- Paths lead through directories, names that are created are in order, `cd`
goes to directories, `mv` to other directories and with regular files, and no
allocation has failed when a call returns that makes some. -/
def treeOk (k : Kernel) (c : Fin 8 × TreeCall) : Prop :=
  match c with
  | (_, .open path) => dirsAlong k.vol rootDir (tokens path) ∧
    (∀ t, (tokens path).getLast? = some t → nameOk t) ∧ ¬Failed (treeStep k c).vol
  | (_, .mkdir name) => nameOk name ∧ ¬Failed (treeStep k c).vol
  | (_, .cd path) => cdOk k path
  | (_, .unlink _) => True
  | (_, .mv name path) => mvOk k name path ∧ ¬Failed (treeStep k c).vol

structure Linked (own : Owners) (l : List UInt32) (k : Kernel) : Prop where
  disk : Consistent own k.vol l
  reach : ∀ i, (shape k.vol.disk).Live i → (shape k.vol.disk).Reach i
  small : ∀ i, i.toNat < 512 → (inodeAt k.vol.disk i).icMode = Mode.ifreg.code →
    (inodeAt k.vol.disk i).icSize.toNat < 11 * 512
  cwd : (shape k.vol.disk).Dir k.cwd

section

variable {own own' : Owners} {l l' : List UInt32} {k : Kernel} {v' : Vol}

theorem Linked.rooted (h : Linked own l k) : Rooted (shape k.vol.disk) := ⟨h.disk.tree, h.reach⟩

theorem Linked.setVol (h : Linked own l k) {k' : Kernel} (hvol : k'.vol = k.vol) (hcwd : k'.cwd = k.cwd) :
    Linked own l k' := by
  refine ⟨?_, ?_, ?_, ?_⟩
  · rw [hvol]
    exact h.disk
  · rw [hvol]
    exact h.reach
  · rw [hvol]
    exact h.small
  · rw [hvol, hcwd]
    exact h.cwd

theorem Linked.extend (h : Linked own l k) (hg : Good own' v' l') {par i : UInt32} {ic : ICommon}
    {c : UInt8} {name : CStr} (he : Extended own own' k.vol v' l l' par i ic (c :: name)) (hc : c ≠ dot)
    (hm : ic.icMode = Mode.ifdir.code ∨ ic.icMode = Mode.ifreg.code)
    (hsize : ic.icSize.toNat % 32 = 0) (hsmall : ic.icSize.toNat < 11 * 512) :
    Linked own' l' { k with vol := v' } :=
  ⟨h.disk.extend hg he hc hm fun _ => hsize, (h.rooted.grow he.grown hc hm).reach, he.small hsmall h.small,
    he.grown.dir h.cwd⟩

theorem Linked.openFile (h : Linked own l k) {path : CStr} (hd : dirsAlong k.vol rootDir (tokens path))
    (hlast : ∀ t, (tokens path).getLast? = some t → nameOk t)
    (hfail : ¬Failed (openFile k path .ocreat).2.vol) :
    ∃ own' l', Linked own' l' (openFile k path .ocreat).2 := by
  obtain ⟨hvol, hcwd⟩ := openFile_vol k path .ocreat
  by_cases hfd : getFD k = none
  · rw [if_pos hfd] at hvol
    exact ⟨own, l, h.setVol hvol hcwd⟩
  · rw [if_neg hfd] at hvol
    change _ = (pathToIno2 k.vol path rootDir).2 at hvol
    rw [hvol] at hfail
    rcases pathToIno2_created h.disk hd (fun _ => hlast) with
      ⟨hf, -⟩ | ⟨he, -⟩ | ⟨-, own', l', ic, c, name, -, hc, -, hmode, hsize, hg, hext⟩
    · exact absurd hf hfail
    · rw [he] at hvol
      exact ⟨own, l, h.setVol hvol hcwd⟩
    · have hnew := h.extend hg hext hc (.inr hmode) (by rw [hsize]; decide) (by rw [hsize]; decide)
      exact ⟨own', l', hnew.setVol hvol hcwd⟩

theorem Linked.mkdir (h : Linked own l k) {name : CStr} (hname : nameOk name)
    (hfail : ¬Failed (mkdir k name).2.vol) : ∃ own' l', Linked own' l' (mkdir k name).2 := by
  obtain ⟨c, rest, rfl, hc⟩ := nameOk_cons hname
  rcases mkdir_extended trivial_good (Good.sound h.disk.good) h.cwd (h.disk.roomy h.cwd)
    (show (c :: rest).length ≤ 26 from le_trans hname.2.1 (by omega)) with
    ⟨hf, -⟩ | ⟨own', l', i, ic, v', he, hmode, hsize, -, hs', hext⟩
  · exact absurd hf hfail
  · rw [he]
    exact ⟨own', l', h.extend hs'.good hext hc (.inl hmode) (by rw [hsize]; decide) (by rw [hsize]; decide)⟩

theorem Linked.cd (h : Linked own l k) {path : CStr} (hok : cdOk k path) : Linked own l (cd k path).2 := by
  unfold Core.cd
  dsimp only
  split
  · exact h
  · next hne =>
    have hlive := (h.disk.navigable.walk (.inr h.cwd.live) hok.1).resolve_left hne
    exact ⟨h.disk, h.reach, h.small, h.disk.navigable.dir_of_read hlive (hok.2 hne)⟩

theorem Linked.unlink (h : Linked own l k) (name : CStr) : ∃ own' l', Linked own' l' (unlink k name).2 := by
  rcases unlink_cases h.disk h.cwd h.small name with he | ⟨e, v₁, v₂, l', he, ht, hb⟩
  · rw [he]
    exact ⟨own, l, h⟩
  · rw [he]
    have hcut := shape_cut h.disk ht.proper ht.notCwd ht.unlisted hb
    exact ⟨_, l', h.disk.cut ht.proper ht.initial ht.notCwd ht.empty ht.unlisted hb,
      (h.rooted.cut hcut ht.initial ht.notCwd ht.empty).reach, hb.small ht.unlisted h.cwd h.small,
      hcut.dir.mpr ⟨h.cwd, ht.notCwd⟩⟩

theorem TakenOut.moved (h : Consistent own k.vol l) (hcwd : (shape k.vol.disk).Dir k.cwd)
    (hsmall : ∀ i, i.toNat < 512 → (inodeAt k.vol.disk i).icMode = Mode.ifreg.code →
      (inodeAt k.vol.disk i).icSize.toNat < 11 * 512) {v₁ v₂ : Vol} {e : Nat} {name name' : CStr} {q : UInt32}
    {c : UInt8} (ht : TakenOut own l k name v₁ e) (hq : (shape k.vol.disk).Dir q) (hc : c ≠ dot)
    (hg : Good own' v₂ l') (hm : (shape k.vol.disk).Moved (shape v₂.disk) k.cwd e q (c :: name'))
    (ha : Appended own own' v₁ v₂ l l' q (dirEntry k.vol.disk (inodeAt k.vol.disk k.cwd) e).dIno
      (c :: name')) : Consistent own' v₂ l' ∧ (shape v₂.disk).Dir k.cwd ∧
      ∀ i, i.toNat < 512 → (inodeAt v₂.disk i).icMode = Mode.ifreg.code →
        (inodeAt v₂.disk i).icSize.toNat < 11 * 512 := by
  have hu := ht.unlisted
  have hdir : ∀ D, (shape v₂.disk).Dir D ↔ (shape k.vol.disk).Dir D := fun D => by
    rw [Shape.Dir, hm.mode, Shape.Dir]
  have hother : ∀ j, j.toNat < 512 → j ≠ k.cwd → j ≠ q →
      inodeAt v₂.disk j = inodeAt k.vol.disk j := fun j hj h1 h2 => by
    rw [ha.inodes j hj h2, hu.inodes j hj h1]
  refine ⟨⟨hg, h.tree.move hm ht.initial hc, fun D hD => ?_⟩, (hdir _).mpr hcwd, fun i hi hr => ?_⟩
  · rw [hdir] at hD
    obtain ⟨hlt, -⟩ := mode_of_dir hD
    have hal := h.aligned D hD
    by_cases hDp : D = k.cwd
    · subst hDp
      have hpos := ht.proper.lt
      change e < entryCount (inodeAt k.vol.disk k.cwd) at hpos
      unfold entryCount at hpos
      rw [ha.inodes _ hlt hm.ne.symm, hu.size]
      omega
    · by_cases hDq : D = q
      · subst hDq
        rw [ha.size, hu.inodes D hlt hDp]
        omega
      · rw [hother D hlt hDp hDq]
        exact hal
  · have hnot : ¬(shape k.vol.disk).Dir i := fun hD => by
      rw [← hdir, Shape.Dir, shape_mode hi, hr] at hD
      exact absurd hD (by decide)
    have hip : i ≠ k.cwd := by
      rintro rfl
      exact hnot hcwd
    have hiq : i ≠ q := by
      rintro rfl
      exact hnot hq
    rw [hother i hi hip hiq] at hr ⊢
    exact hsmall i hi hr

theorem Linked.move (h : Linked own l k) {v₁ v₂ : Vol} {e : Nat} {name name' : CStr} {q : UInt32} {c : UInt8}
    (ht : TakenOut own l k name v₁ e) (hq : (shape k.vol.disk).Dir q) (hc : c ≠ dot) (hg : Good own' v₂ l')
    (hm : (shape k.vol.disk).Moved (shape v₂.disk) k.cwd e q (c :: name'))
    (ha : Appended own own' v₁ v₂ l l' q (dirEntry k.vol.disk (inodeAt k.vol.disk k.cwd) e).dIno
      (c :: name')) : Linked own' l' { k with vol := v₂ } := by
  obtain ⟨hdisk, hcwd, hsmall⟩ := ht.moved h.disk h.cwd h.small hq hc hg hm ha
  exact ⟨hdisk, (h.rooted.move hm ht.initial hc).reach, hsmall, hcwd⟩

theorem Linked.updateSb (h : Linked own l k) : Linked own l { k with vol := updateSb k.vol } := by
  rw [h.disk.good.updateSb]
  exact ⟨h.disk.setTrace _, h.reach, h.small, h.cwd⟩

/-- The volume once the entry that was taken out is added to the destination,
whose inode was read before. -/
def movedVol (k : Kernel) (name path : CStr) (e : Nat) : Vol :=
  let dir := dirEntry k.vol.disk (inodeAt k.vol.disk k.cwd) e
  let q := pathToIno k.vol path rootDir
  (addInodeToDirectory (removeFromCwd k name).vol ⟨q, 0, inodeAt k.vol.disk q⟩ dir.dIno
    (dNameString k.vol dir)).2

theorem mv_cases (h : Consistent own k.vol l) (hcwd : (shape k.vol.disk).Dir k.cwd) {name path : CStr}
    (hd : name.head? = some dot ∨ dirsAlong k.vol rootDir (tokens path)) :
    (mv k name path).2 = k ∨ (mv k name path).2 = { k with vol := updateSb k.vol } ∨
    (name.head? ≠ some dot ∧ destDir k.vol path ∧ (shape k.vol.disk).Dir (pathToIno k.vol path rootDir)) ∧
      ∃ e, TakenOut own l k name (removeFromCwd k name).vol e ∧
        (mv k name path).2 = { k with vol := updateSb (movedVol k name path e) } := by
  unfold Core.mv
  split
  · exact .inl rfl
  · next hdot =>
    dsimp only
    split
    · exact .inl rfl
    · next hno =>
      split
      · exact .inl rfl
      · next hdest =>
        rw [not_not] at hdest
        have hq : (shape k.vol.disk).Dir (pathToIno k.vol path rootDir) := h.navigable.dir_of_read
          ((h.navigable.walk (.inr h.tree.root.live) (hd.resolve_left hdot)).resolve_left hno) hdest
        rcases removed_cases h hcwd hdot with ⟨hino, hvol, -⟩ | ⟨e, hino, hchild, ht⟩
        · rw [if_neg (by simp [hino]), hvol]
          exact .inr (.inl rfl)
        · refine .inr (.inr ⟨⟨hdot, ⟨hno, hdest⟩, hq⟩, e, ht, ?_⟩)
          rw [if_pos hino, hchild, readInode_eq h.good.acct.formatted (mode_of_dir hq).1]
          rfl

theorem TakenOut.appended {name path : CStr} {e : Nat} (h : Consistent own k.vol l)
    (ht : TakenOut own l k name (removeFromCwd k name).vol e)
    (hq : (shape k.vol.disk).Dir (pathToIno k.vol path rootDir)) (hne : pathToIno k.vol path rootDir ≠ k.cwd)
    (hlen : (dNameString k.vol (dirEntry k.vol.disk (inodeAt k.vol.disk k.cwd) e)).length ≤ 26)
    (hfail : ¬Failed (updateSb (movedVol k name path e))) :
    ∃ own' l', Good own' (movedVol k name path e) l' ∧
      Appended own own' (removeFromCwd k name).vol (movedVol k name path e) l l'
        (pathToIno k.vol path rootDir) (dirEntry k.vol.disk (inodeAt k.vol.disk k.cwd) e).dIno
        (dNameString k.vol (dirEntry k.vol.disk (inodeAt k.vol.disk k.cwd) e)) := by
  have hu := ht.unlisted
  obtain ⟨hqlt, hqmode⟩ := mode_of_dir hq
  have hroomy := h.roomy hq
  have hfirst := h.good.firstBlock hqlt hqmode hroomy.pos
  have hmax := lt_trans hroomy.small (show 138 * 512 < 139 * 512 by omega)
  have hsound : Sound (fun _ => True) own (removeFromCwd k name).vol l := ⟨hu.good, fun _ _ _ => trivial⟩
  set dest : INode := ⟨pathToIno k.vol path rootDir, 0, inodeAt k.vol.disk (pathToIno k.vol path rootDir)⟩
    with hdest
  have hic : dest.iIc = inodeAt (removeFromCwd k name).vol.disk dest.iNumber :=
    (hu.inodes _ hqlt hne).symm
  rcases addInodeToDirectory_appended trivial_good
    (dirEntry k.vol.disk (inodeAt k.vol.disk k.cwd) e).dIno hsound hqlt hic hqmode hroomy.aligned
    hfirst hmax hlen with ⟨-, -, hf⟩ | ⟨own', l', -, hs, ha⟩
  · exact absurd (hf.later (later_diskWr ..)) hfail
  · exact ⟨own', l', hs.good, ha⟩

theorem TakenOut.appended_mv {name path : CStr} {e : Nat} (h : Consistent own k.vol l)
    (ht : TakenOut own l k name (removeFromCwd k name).vol e) (hok : mvOk k name path)
    (hdot : name.head? ≠ some dot) (hdest : destDir k.vol path)
    (hq : (shape k.vol.disk).Dir (pathToIno k.vol path rootDir))
    (hfail : ¬Failed (updateSb (movedVol k name path e))) :
    ∃ own' l' c rest, c ≠ dot ∧ Good own' (movedVol k name path e) l' ∧
      (shape k.vol.disk).Moved (shape (movedVol k name path e).disk) k.cwd e (pathToIno k.vol path rootDir)
        (c :: rest) ∧
      Appended own own' (removeFromCwd k name).vol (movedVol k name path e) l l'
        (pathToIno k.vol path rootDir) (dirEntry k.vol.disk (inodeAt k.vol.disk k.cwd) e).dIno (c :: rest) := by
  obtain ⟨hreg, hname, hne⟩ := (hok.resolve_left hdot).2 hdest e ht.first.1 ht.first.2
  obtain ⟨own', l', hg, ha⟩ := ht.appended h hq hne (le_trans hname.2.1 (by omega)) hfail
  obtain ⟨c, rest, hcons, hc⟩ := nameOk_cons hname
  rw [hcons] at ha
  have hlive := (h.tree.names _ _ ht.proper).1
  exact ⟨own', l', c, rest, hc, hg,
    shape_moved h ht.proper ((shape_mode (lt_of_live hlive)).trans hreg) hq hne ht.unlisted ha, ha⟩

theorem Linked.mv (h : Linked own l k) {name path : CStr} (hok : mvOk k name path)
    (hfail : ¬Failed (mv k name path).2.vol) : ∃ own' l', Linked own' l' (mv k name path).2 := by
  rcases mv_cases h.disk h.cwd (hok.imp_right And.left) with he | he | ⟨⟨hdot, hdest, hq⟩, e, ht, he⟩
  · rw [he]
    exact ⟨own, l, h⟩
  · rw [he]
    exact ⟨own, l, h.updateSb⟩
  · rw [he] at hfail ⊢
    obtain ⟨own', l', c, rest, hc, hg, hm, ha⟩ := ht.appended_mv h.disk hok hdot hdest hq hfail
    exact ⟨own', l', (h.move ht hq hc hg hm ha).updateSb⟩

end

/-! Runs. -/

def LinkedInv (k : Kernel) : Prop := ∃ own l, Linked own l k

theorem tree_step (k : Kernel) (c : Fin 8 × TreeCall) (h : LinkedInv k) (hc : treeOk k c) :
    LinkedInv (treeStep k c) := by
  obtain ⟨p, c⟩ := c
  obtain ⟨own, l, h⟩ := h
  have hp : Linked own l { k with current := p } := h.setVol rfl rfl
  cases c with
  | «open» path => exact hp.openFile hc.1 hc.2.1 hc.2.2
  | mkdir name => exact hp.mkdir hc.1 hc.2
  | cd path => exact ⟨own, l, hp.cd hc⟩
  | unlink name => exact hp.unlink name
  | mv name path => exact hp.mv hc.1 hc.2

theorem Seeded.linked {n : Nat} {k : Kernel} (h : Seeded n k) : LinkedInv k := by
  obtain ⟨own, l, hf, -⟩ := h.fsck
  refine ⟨own, l, hf.disk, fun i hi => ?_, hf.small, hf.cwd⟩
  by_cases hr : i = rootDir
  · rw [hr]
    exact .root
  · obtain ⟨D, j, hp, rfl⟩ := hf.disk.tree.named i hi hr
    have hD := h.only D hp.dir
    exact .entry (by rw [hD]; exact .root) hp

/-- **Directories keep their parent links.** In a run in which only regular
files are moved, and only to other directories, every directory is found from
the root, and its `.` and `..` name itself and the directory it is in. -/
theorem parent_links (k₀ : Kernel) (h₀ : Ready k₀) (calls : List (Fin 8 × TreeCall))
    (hc : Along treeStep treeOk (wiped k₀) calls) :
    (shape (run treeStep (wiped k₀) calls).vol.disk).ParentLinks := by
  obtain ⟨own, l, h⟩ := invariant tree_step (wiped_seeded h₀).linked hc
  exact h.rooted.parentLinks

/-! A directory that is moved. -/

theorem not_seedInitial : cstr "x" = [120] ∧ tokens (cstr "x") = [cstr "x"] ∧ (120 : UInt8) ∉ seedInitials := by
  decide

/-- A new directory `i`, the only one under its name, is the last entry of the
root, which is the working directory; no file is open. -/
structure NewInRoot (own : Owners) (l : List UInt32) (k : Kernel) (i : UInt32) (n : Nat) : Prop where
  disk : Consistent own k.vol l
  cwd : k.cwd = rootDir
  idle : ∀ s, ¬Active k s
  count : entryCount (inodeAt k.vol.disk rootDir) = n + 1
  scanned : (n + 1) % 16 ≠ 0
  others : ∀ e < n, (dirEntry k.vol.disk (inodeAt k.vol.disk rootDir) e).initial ≠ 120
  self : (dirEntry k.vol.disk (inodeAt k.vol.disk rootDir) n).Is i (cstr "x")
  dir : (shape k.vol.disk).Dir i
  size : (inodeAt k.vol.disk i).icSize = 64
  parent : (dirEntry k.vol.disk (inodeAt k.vol.disk i) 1).Is rootDir [dot, dot]

theorem Seeded.newInRoot {n : Nat} {k : Kernel} (h : Seeded (n+1) k) (hcwd : k.cwd = rootDir)
    (hidle : ∀ s, ¬Active k s) :
    ∃ own l i m, NewInRoot own l (mkdir k (cstr "x")).2 i m ∧ m = entryCount (inodeAt k.vol.disk rootDir) ∧
      (∀ e < m, rootEntry (mkdir k (cstr "x")).2 e = rootEntry k e) ∧
      ∀ j, (shape k.vol.disk).Live j → j ≠ rootDir →
        inodeAt (mkdir k (cstr "x")).2.vol.disk j = inodeAt k.vol.disk j := by
  obtain ⟨hx, -, hnew⟩ := not_seedInitial
  obtain ⟨own, l, hf, hroom⟩ := h.fsck
  have hroot := hf.disk.tree.root
  have hone : Room 1 l k.vol.disk := hroom.le (by omega)
  rcases mkdir_extended trivial_good (Good.sound hf.disk.good) hf.cwd (hf.disk.roomy hf.cwd)
    (show (cstr "x").length ≤ 26 by decide) with ⟨-, hfull⟩ | ⟨own', l', i, ic, v', he, hmode, hsize, -, hs', hext⟩
  · exact absurd hfull hone.not_full
  · rw [hcwd] at hext
    rw [he]
    have hg := hext.grown
    have hcount := hg.count _ hroot
    rw [if_pos rfl] at hcount
    have hfew := h.listed.few
    have hcons := hf.disk.extend hs'.good (hx ▸ hext) (by decide) (.inl hmode) fun _ => by rw [hsize]; decide
    refine ⟨own', l', i, _, ⟨hcons, hcwd, hidle, hcount, by omega, fun e hlt hinit => hnew ?_, hg.new, ?_, ?_,
      (hg.empty hmode).2.2⟩, rfl, fun e hlt => hg.old _ _ hroot hlt, fun j hj hne => ?_⟩
    · have hold := hg.old _ _ hroot hlt
      change dirEntry _ _ _ = _ at hold
      rw [← hinit, hold]
      exact h.listed.initials e hlt
    · rw [Shape.Dir, hg.mode, if_pos rfl, hmode]
    · rw [hext.self, hsize]
    · exact hext.inodes j (lt_of_live hj) hne (hg.ne hj)

section

variable {own : Owners} {l : List UInt32} {k : Kernel} {i : UInt32} {n : Nat}

theorem NewInRoot.match_iff (h : NewInRoot own l k i n) {e : Nat} (he : e < n + 1) :
    nameMatch (cstr "x") (entryBlock k.vol.disk (inodeAt k.vol.disk rootDir) e) (e % 16) = true ↔ e = n := by
  obtain ⟨hx, -, -⟩ := not_seedInitial
  constructor
  · intro hm
    rw [hx] at hm
    by_contra hne
    exact h.others e (by omega) (nameMatch_initial hm)
  · rintro rfl
    rw [nameMatch_iff h.self ⟨by decide, by decide, by decide⟩ (by decide)]
    exact .inl rfl

theorem NewInRoot.proper (h : NewInRoot own l k i n) : (shape k.vol.disk).Proper rootDir n := by
  have hself := h.self
  rw [not_seedInitial.1] at hself
  refine ⟨h.disk.tree.root, ?_, fun hd => ?_⟩
  · change n < entryCount (inodeAt k.vol.disk rootDir)
    rw [h.count]
    omega
  · have hdot : (dirEntry k.vol.disk (inodeAt k.vol.disk rootDir) n).initial = dot := hd.initial
    rw [hself.initial] at hdot
    exact absurd hdot (by decide)

theorem NewInRoot.ne_root (h : NewInRoot own l k i n) : i ≠ rootDir := by
  rw [← h.self.ino]
  exact (h.disk.tree.names _ _ h.proper).2

theorem NewInRoot.found (h : NewInRoot own l k i n) : pathToIno k.vol (cstr "x") rootDir = i := by
  have hroot := h.disk.tree.root
  obtain ⟨hlt, hmode⟩ := mode_of_dir hroot
  unfold pathToIno
  rw [not_seedInitial.2.1, walkPath, if_neg (by decide), walkPath,
    readInode_eq h.disk.good.acct.formatted hlt,
    nameToIno_find h.disk.good.acct (h.disk.navigable.maps hroot.live) hmode]
  dsimp only
  rw [h.count, scanLimit_eq h.scanned, List.find?_range_eq_some.mpr, Option.map_some, Option.getD_some,
    h.self.ino]
  refine ⟨(h.match_iff (by omega)).mpr rfl, List.mem_range.mpr (by omega), fun e he => ?_⟩
  rw [Bool.not_eq_true', Bool.eq_false_iff, Ne, h.match_iff (by omega)]
  omega

theorem NewInRoot.taken (h : NewInRoot own l k i n) :
    (removeFromCwd k (cstr "x")).ino ≠ noAddr ∧ (removeFromCwd k (cstr "x")).child.dIno = i ∧
      TakenOut own l k (cstr "x") (removeFromCwd k (cstr "x")).vol n := by
  obtain ⟨hlt, hmode⟩ := mode_of_dir h.dir
  have hroot := h.disk.tree.root
  have hai : inAit k.ai i = false := by
    unfold inAit
    rw [List.any_eq_false]
    intro s _
    have := h.idle s
    rw [Active, not_not] at this
    simp [this]
  have hrem : Removable k (cstr "x") n := by
    unfold Removable
    rw [h.cwd, h.count, scanLimit_eq h.scanned]
    refine ⟨by omega, (h.match_iff (by omega)).mpr rfl, ?_⟩
    unfold removable
    rw [h.self.ino, if_neg h.ne_root, hai, readInode_eq h.disk.good.acct.formatted hlt]
    dsimp only
    rw [h.size, if_neg (by decide), if_neg fun hbig => absurd hbig.2 (by decide)]
    exact ne_noAddr_of_lt hlt
  have hdir : (shape k.vol.disk).Dir k.cwd := by rw [h.cwd]; exact hroot
  rcases removed_cases h.disk hdir (show (cstr "x").head? ≠ some dot by decide) with
    ⟨-, -, hnone⟩ | ⟨e, hino, hchild, ht⟩
  · exact absurd hrem (hnone n)
  · have hfirst := ht.first.1
    unfold Removable at hfirst
    rw [h.cwd, h.count, scanLimit_eq h.scanned] at hfirst
    obtain rfl := (h.match_iff hfirst.1).mp hfirst.2.1
    refine ⟨hino, ?_, ht⟩
    rw [hchild, h.cwd, h.self.ino]

theorem not_failed_mv {name path : CStr} (h : Consistent own k.vol l)
    (hq : (shape k.vol.disk).Dir (pathToIno k.vol path rootDir))
    (hr : (inodeAt k.vol.disk (pathToIno k.vol path rootDir)).icSize.toNat / 32 % 16 ≠ 0) (hf : ¬Failed k.vol) :
    ¬Failed (mv k name path).2.vol := by
  obtain ⟨hlt, hmode⟩ := mode_of_dir hq
  have hremove : ¬Failed (removeFromCwd k name).vol := not_failed_remove _ _ _ _ _ hf
  unfold Core.mv
  dsimp only
  split
  · exact hf
  · rw [if_neg (ne_noAddr_of_lt hlt), readInode_eq h.good.acct.formatted hlt, if_neg (not_not.mpr hmode)]
    dsimp only
    split
    · exact not_failed_diskWr (not_failed_add hr _ _ hremove) _ _ _
    · exact not_failed_diskWr hremove _ _ _

/-- A directory is made, a program file goes there, and another is deleted. -/
def treeCalls : List (Fin 8 × TreeCall) :=
  [(0, .mkdir (cstr "x")), (0, .mv (cstr "P0") (cstr "x")), (0, .unlink (cstr "P1"))]

/-- Of the entries of the root directory only the first file's is called `P0`. -/
theorem Stocked.first_only {k k' : Kernel} {e : Nat} (h : Stocked 8 k) (hnew : NewInRoot own l k' i 9)
    (hold : ∀ e < 9, rootEntry k' e = rootEntry k e) (he : e < 10)
    (hmatch : nameMatch (cstr "P0") (entryBlock k'.vol.disk (inodeAt k'.vol.disk rootDir) e) (e % 16) = true) :
    e = 1 := by
  have hname : objFiles.getD 0 [] = cstr "P0" := rfl
  have hfit := objFiles_fit 0
  rw [show objFiles.getD (0 : Fin 8).val [] = cstr "P0" from hname] at hfit
  obtain rfl | ⟨e, rfl⟩ : e = 0 ∨ ∃ e', e = e' + 1 := by
    cases e with
    | zero => exact .inl rfl
    | succ e => exact .inr ⟨e, rfl⟩
  · have hdot := nameMatch_starts hnew.disk.tree.rootDot.2 ⟨by decide, by decide, by decide⟩ hfit.string hmatch
    exact absurd hdot (by decide)
  · by_cases h9 : e + 1 = 9
    · have hself := hnew.self
      rw [← h9] at hself
      have hx := nameMatch_starts hself ⟨by decide, by decide, by decide⟩ hfit.string hmatch
      exact absurd hx (by decide)
    · obtain ⟨j, hj, -⟩ := h.files ⟨e, by omega⟩ (show e < 8 by omega)
      change (rootEntry k (e + 1)).Is j _ at hj
      rw [← hold (e + 1) (by omega)] at hj
      have hsame := (objFiles_apart 0).2 ⟨e, by omega⟩ (nameMatch_starts hj (objFiles_fit _) hfit.string hmatch)
      rw [show e = 0 from congrArg Fin.val hsame]

theorem Stocked.mvOk {k k' : Kernel} (h : Stocked 8 k) (hterm : ∀ v, dNameString v (rootEntry k 1) = cstr "P0")
    (hnew : NewInRoot own l k' i 9) (hold : ∀ e < 9, rootEntry k' e = rootEntry k e)
    (hinodes : ∀ j, (shape k.vol.disk).Live j → j ≠ rootDir → inodeAt k'.vol.disk j = inodeAt k.vol.disk j) :
    Core.mvOk k' (cstr "P0") (cstr "x") := by
  have hroot := hnew.disk.tree.root
  have hmode : (readInode k'.vol ⟨0, 0, k'.vol.stkIc⟩ rootDir).iIc.icMode = Mode.ifdir.code := by
    rw [readInode_eq hnew.disk.good.acct.formatted (mode_of_dir hroot).1]
    exact (mode_of_dir hroot).2
  refine .inr ⟨?_, fun _ e hrem _ => ?_⟩
  · rw [not_seedInitial.2.1]
    exact fun _ => ⟨hmode, trivial⟩
  obtain ⟨hlim, hmatch, -⟩ := hrem
  rw [hnew.cwd] at hlim hmatch ⊢
  rw [hnew.count] at hlim
  obtain rfl := h.first_only hnew hold (lt_of_lt_of_le hlim (scanLimit_le _)) hmatch
  obtain ⟨j, hj, hholds⟩ := h.files 0 (by decide)
  change (rootEntry k 1).Is j _ at hj
  have hjr : j ≠ rootDir := by
    rintro rfl
    obtain ⟨own, l, hf, -⟩ := h.seeded.fsck
    exact absurd (hholds.regular.symm.trans (mode_of_dir hf.disk.tree.root).2) (by decide)
  change (inodeAt k'.vol.disk (rootEntry k' 1).dIno).icMode = _ ∧ nameOk (dNameString k'.vol (rootEntry k' 1)) ∧ _
  rw [hold 1 (by omega), hj.ino, hinodes j hholds.live hjr, hterm, hnew.found]
  refine ⟨hholds.regular, ?_, hnew.ne_root⟩
  unfold nameOk
  decide

theorem treeCalls_ok {k : Kernel} (h : Stocked 8 k) (hterm : ∀ v, dNameString v (rootEntry k 1) = cstr "P0")
    (hcur : { k with current := 0 } = k) (htrace : k.vol.trace = []) : Along treeStep treeOk k treeCalls := by
  have hname : nameOk (cstr "x") := by
    unfold nameOk
    decide
  have hworks := Seeded.mkdir_ok (n := 3) h.seeded h.cwd htrace (cstr "x")
  obtain ⟨own, l, i, m, hnew, hm, hold, hinodes⟩ := Seeded.newInRoot (n := 3) h.seeded h.cwd h.idle
  obtain rfl : m = 9 := hm.trans h.count
  have hmv := h.mvOk hterm hnew hold hinodes
  have hstep : treeStep k (0, .mkdir (cstr "x")) = (mkdir k (cstr "x")).2 := by rw [treeStep, hcur]
  generalize (mkdir k (cstr "x")).2 = k' at hworks hnew hmv hstep
  have hdest : pathToIno k'.vol (cstr "x") rootDir = i := hnew.found
  refine ⟨⟨hname, by rwa [hstep]⟩, ?_⟩
  rw [hstep]
  refine ⟨⟨hmv, ?_⟩, trivial, trivial⟩
  refine not_failed_mv (k := { k' with current := 0 }) hnew.disk ?_ ?_ hworks
  · rw [hdest]
    exact hnew.dir
  · rw [hdest, hnew.size]
    decide

theorem parent_links_after_mv : ∃ k, k = run treeStep (wiped blankKernel) treeCalls ∧
    (shape k.vol.disk).ParentLinks :=
  ⟨_, rfl, parent_links blankKernel ready_blankKernel treeCalls
    (treeCalls_ok (wiped_stocked ready_blankKernel) (wiped_first ready_blankKernel rfl) rfl rfl)⟩

/-- Adding an entry to a directory of two, under a name of any length: the
block and the inode are rewritten, `.` and `..` are as they were. -/
theorem addInodeToDirectory_third {v : Vol} {par : INode} (hg : Good own v l) (hpar : par.iNumber.toNat < 512)
    (hic : par.iIc = inodeAt v.disk par.iNumber) (hdir : par.iIc.icMode = Mode.ifdir.code)
    (hsize : par.iIc.icSize = 64) (ino : UInt32) (name : CStr) :
    ∃ x, (∀ e < 2, getDir x e = getDir (v.disk (par.iIc.db 0)) e) ∧
      (addInodeToDirectory v par ino name).2 = writeInode (v.put (par.iIc.db 0) x)
        { par with iIc := { par.iIc with icSize := 96 } } := by
  have hown : own (par.iIc.db 0) = some (par.iNumber, .data 0) := by
    rw [hic] at hdir hsize ⊢
    exact hg.firstBlock hpar hdir (by rw [hsize]; decide)
  have haddr : getDataBlockAddr v par par.iIc.icSize = par.iIc.db 0 := by
    have hm : Maps own v.disk par.iNumber par.iIc 1 := by
      refine ⟨by omega, fun b hb => ?_, fun hb => absurd hb (by omega)⟩
      rw [show b = 0 by omega, mapAddr, if_pos (by omega)]
      exact hown
    rw [hm.reads hg.acct (by rw [hsize]; decide), hsize]
    rfl
  have hlt := (hg.acct.owned _ _ hown).1.lt_num hg.acct.formatted
  refine ⟨putBytes (setDir (v.disk (par.iIc.db 0)) 2 { getDir (v.disk (par.iIc.db 0)) 2 with
    dIno := ino, dNamlen := UInt16.ofNat (strlen name) }) 70 name, fun e he => getDir_congr fun b hb => ?_, ?_⟩
  · rw [byte_putBytes_of_not_mem _ _ (by omega), byte_setDir _ _ (by omega), if_neg (by omega)]
  · have hr : par.iIc.icSize.toNat / 32 % 16 = 2 := by
      rw [hsize]
      rfl
    unfold addInodeToDirectory
    dsimp only
    rw [if_neg (by rw [hr]; omega)]
    simp only [getDataBlock, haddr, hr]
    rw [diskRd_lt _ _ hlt, diskWr_put _ _ hlt, hsize]
    rfl

theorem NewInRoot.mv (h : NewInRoot own l k i n) :
    ¬(shape (mv k (cstr "x") (cstr "x")).2.vol.disk).ParentLinks := by
  obtain ⟨hlt, hmode⟩ := mode_of_dir h.dir
  obtain ⟨hino, hchild, ht⟩ := h.taken
  have hu := ht.unlisted
  rw [h.cwd] at hu
  set v₁ := (removeFromCwd k (cstr "x")).vol with hv₁
  have hf₁ := hu.good.acct.formatted
  have hsame : inodeAt v₁.disk i = inodeAt k.vol.disk i := hu.inodes i hlt h.ne_root
  set dest : INode := ⟨i, 0, inodeAt k.vol.disk i⟩ with hdest
  have hic : dest.iIc = inodeAt v₁.disk dest.iNumber := hsame.symm
  obtain ⟨x, hx, hadd⟩ := addInodeToDirectory_third hu.good hlt hic hmode h.size i
    (dNameString k.vol (removeFromCwd k (cstr "x")).child)
  -- the block of the directory, and what is left of its inode
  set a := dest.iIc.db 0 with ha
  have hown : own a = some (i, .data 0) := h.disk.good.firstBlock hlt hmode (by rw [h.size]; decide)
  obtain ⟨hda, hal⟩ := hu.good.acct.owned _ _ hown
  have hindex : ∀ q, own a ≠ some (q, .index) := fun q => by simp [hown]
  have hg₂ := hu.good.put_data x hda hal hindex
  set dest' : INode := { dest with iIc := { dest.iIc with icSize := 96 } } with hdest'
  have hlt' : dest'.iNumber.toNat < 512 := hlt
  have hm : Maps own (v₁.put a x).disk dest'.iNumber dest'.iIc (blockCount dest'.iIc) := by
    have hcount : blockCount dest'.iIc = 1 := by
      rw [blockCount_dir (show dest'.iIc.icMode = Mode.ifdir.code from hmode),
        show dest'.iIc.icSize = 96 from rfl]
      rfl
    rw [hcount]
    refine ⟨by omega, fun b hb => ?_, fun hb => absurd hb (by omega)⟩
    rw [show b = 0 by omega, mapAddr, if_pos (by omega)]
    exact hown
  have hg₃ := hg₂.writeInode hlt' fun _ => hm
  set v₃ := writeInode (v₁.put a x) dest' with hv₃
  have hcode : (Core.mv k (cstr "x") (cstr "x")).2.vol.disk = v₃.disk := by
    unfold Core.mv
    rw [if_neg (by decide)]
    dsimp only
    rw [h.found, if_neg (ne_noAddr_of_lt hlt), readInode_eq h.disk.good.acct.formatted hlt,
      if_neg (by rw [not_not]; exact hmode), if_pos hino, hchild, hadd, hg₃.updateSb]
  have hf₂ := hg₂.acct.formatted
  have hself : inodeAt v₃.disk i = dest'.iIc := inodeAt_writeInode_self hf₂ hlt'
  have hrlt : rootDir.toNat < 512 := by decide
  have hroot : inodeAt v₃.disk rootDir = inodeAt v₁.disk rootDir := by
    rw [hv₃, inodeAt_writeInode_ne hf₂ hlt' hrlt h.ne_root.symm, inodeAt_put_ne _ (hda.ne_inodeBlock hrlt)]
  have hdots : dirEntry v₃.disk (inodeAt v₃.disk i) 1 = dirEntry k.vol.disk (inodeAt k.vol.disk i) 1 := by
    have hblock : v₃.disk a = x := by
      rw [hv₃, writeInode_disk_ne hf₂ hlt' (hda.ne_inodeBlock hlt'), put_disk_self]
    change getDir (v₃.disk (mapAddr v₃.disk (inodeAt v₃.disk i) 0)) 1 =
      getDir (k.vol.disk (mapAddr k.vol.disk (inodeAt k.vol.disk i) 0)) 1
    rw [hself, mapAddr, if_pos (by omega), mapAddr, if_pos (by omega)]
    change getDir (v₃.disk a) 1 = getDir (k.vol.disk a) 1
    rw [hblock, hx 1 (by omega), hu.frame a i _ hown h.ne_root]
  -- the root lost its last entry
  have hrmode₁ : (inodeAt v₁.disk rootDir).icMode = Mode.ifdir.code :=
    hu.mode.trans (mode_of_dir h.disk.tree.root).2
  have hcount₁ : entryCount (inodeAt v₁.disk rootDir) = n := by
    have hc := h.count
    rw [hu.entryCount]
    omega
  have hentry : ∀ j < n, dirEntry v₃.disk (inodeAt v₃.disk rootDir) j =
      dirEntry k.vol.disk (inodeAt k.vol.disk rootDir) j := fun j hj => by
    have hm₁ := hu.good.maps rootDir hrlt (by rw [hrmode₁]; decide)
    rw [hroot, dirEntry_frame hm₁ (div_lt_blockCount_of_entry hrmode₁ (by omega)) fun y r hy => ?_,
      hu.entry j (by rw [h.count]; omega), swapIndex, if_neg (by omega)]
    rw [hv₃, writeInode_disk_ne hf₂ hlt' ((hu.good.acct.owned _ _ hy).1.ne_inodeBlock hlt'), put_disk_ne]
    rintro rfl
    rw [hown] at hy
    cases hy
    exact h.ne_root rfl
  rw [hcode]
  intro hlinks
  have hD : (shape v₃.disk).Dir i := dir_of_mode hlt (by rw [hself]; exact hmode)
  obtain ⟨-, -, -, p, h1, ⟨j, hpj, hj⟩, -⟩ := hlinks i hD h.ne_root
  have hp : p = rootDir := by
    have h1' : (dirEntry v₃.disk (inodeAt v₃.disk i) 1).Is p [dot, dot] := h1
    rw [hdots] at h1'
    rw [← h1'.ino, h.parent.ino]
  subst hp
  obtain ⟨hdir, hlt₃, hproper⟩ := hpj
  change j < entryCount (inodeAt v₃.disk rootDir) at hlt₃
  change ¬(dirEntry v₃.disk (inodeAt v₃.disk rootDir) j).Dots at hproper
  change (dirEntry v₃.disk (inodeAt v₃.disk rootDir) j).dIno = i at hj
  rw [hroot, hcount₁] at hlt₃
  rw [hentry j hlt₃] at hproper hj
  have hold : (shape k.vol.disk).Proper rootDir j := by
    refine ⟨h.disk.tree.root, ?_, hproper⟩
    change j < entryCount (inodeAt k.vol.disk rootDir)
    rw [h.count]
    omega
  have := (h.disk.tree.once _ _ _ _ hold h.proper (hj.trans h.self.ino.symm)).2
  omega

end

theorem Seeded.mv_unlinks {n : Nat} {k : Kernel} (h : Seeded (n+1) k) (hcwd : k.cwd = rootDir)
    (hidle : ∀ s, ¬Active k s) (hcur : { k with current := 0 } = k) :
    ¬(shape (run treeStep k [(0, .mkdir (cstr "x")), (0, .mv (cstr "x") (cstr "x"))]).vol.disk).ParentLinks := by
  obtain ⟨own, l, i, m, hnew, -⟩ := h.newInRoot hcwd hidle
  have hnext : NewInRoot own l { (mkdir k (cstr "x")).2 with current := 0 } i m :=
    ⟨hnew.disk, hnew.cwd, hnew.idle, hnew.count, hnew.scanned, hnew.others, hnew.self, hnew.dir, hnew.size,
      hnew.parent⟩
  have hstep : treeStep k (0, .mkdir (cstr "x")) = (mkdir k (cstr "x")).2 := by rw [treeStep, hcur]
  rw [run_cons, run_cons, run_nil, hstep]
  exact hnext.mv

theorem mv_into_itself : ¬(shape (run treeStep (wiped blankKernel)
    [(0, .mkdir (cstr "x")), (0, .mv (cstr "x") (cstr "x"))]).vol.disk).ParentLinks :=
  (wiped_seeded ready_blankKernel).mv_unlinks rfl (wiped_idle ready_blankKernel) rfl

end ArmKernel.Core
