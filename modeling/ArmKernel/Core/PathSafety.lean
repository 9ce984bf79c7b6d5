import ArmKernel.Core.Reformat

/-! Paths through inodes that are no directories. `name_to_ino` reads entries
out of whatever inode it is given, so that a path may lead on through the bytes
of a regular file; the calls fail there only if these do not spell an entry. -/
namespace ArmKernel.Core

open Lib Lib.Bytes Lib.Run Fs SuperBlock

inductive PathCall where
  | open (path : CStr) (oflag : OFlag)
  | exec (path : CStr)
  | cd (path : CStr)
  | mv (name path : CStr)

namespace PathCall

/-- The calls of `name_to_ino`; `exec` looks its path up again, up to the first
separator. -/
def lookups (k : Kernel) : PathCall → List (UInt32 × UInt32)
  | .open path _ => if getFD k = none then [] else Fs.lookups k.vol rootDir (tokens path)
  | .exec path => Fs.lookups k.vol rootDir (tokens path) ++
    if pathToIno k.vol path rootDir = noAddr ∨ getFD k = none then []
    else Fs.lookups k.vol rootDir (tokens (strtokCut path))
  | .cd path => Fs.lookups k.vol k.cwd (tokens path)
  | .mv name path => if name.head? = some dot then [] else Fs.lookups k.vol rootDir (tokens path)

/-- A component other than the last, for `cd` any, names an inode that is no
directory. -/
def strays (k : Kernel) : PathCall → Prop
  | .open path _ => Fs.strays k.vol rootDir (tokens path)
  | .exec path => Fs.strays k.vol rootDir (tokens path)
  | .cd path => Fs.strays k.vol k.cwd (tokens path) ∨
    (pathToIno k.vol path k.cwd ≠ noAddr ∧ ¬isDir k.vol (pathToIno k.vol path k.cwd))
  | .mv _ path => Fs.strays k.vol rootDir (tokens path)

/-- The call reports failure, `mv` by doing nothing, and writes no block. -/
def fails (k : Kernel) : PathCall → Prop
  | .open path oflag => (openFile k path oflag).1 = -1 ∧ written (openFile k path oflag).2.vol = written k.vol
  | .exec path => (Core.exec k path).1 = -1 ∧ written (Core.exec k path).2.vol = written k.vol
  | .cd path => (Core.cd k path).1 = -1 ∧ written (Core.cd k path).2.vol = written k.vol
  | .mv name path => written (Core.mv k name path).2.vol = written k.vol

/-- Paths lead through directories only, and every number a lookup returns is
one that stands in an entry of a directory. -/
structure Safe (k : Kernel) (c : PathCall) : Prop where
  fails : c.strays k → c.fails k
  stored : ∀ x ∈ c.lookups k, x.2 ≠ noAddr → (shape k.vol.disk).Dir x.1 ∧
    ∃ j < (shape k.vol.disk).count x.1, ((shape k.vol.disk).entry x.1 j).dIno = x.2

/-- The bytes of other inodes hide no entry that is looked for. A file is not
created in such an inode, for lack of a descriptor or of an inode if need be,
and `cd` does not end there. -/
def clear (k : Kernel) (c : PathCall) : Prop :=
  (∀ x ∈ c.lookups k, ¬isDir k.vol x.1 → x.2 = noAddr) ∧
  match c with
  | .open path .ocreat => getFD k ≠ none → parentOf k.vol path = noAddr ∨ isDir k.vol (parentOf k.vol path) ∨
    ∀ i : UInt32, i.toNat < 512 → (inodeAt k.vol.disk i).icMode ≠ Mode.ifzero.code
  | .cd path => pathToIno k.vol path k.cwd ≠ noAddr → isDir k.vol (pathToIno k.vol path k.cwd)
  | _ => True

end PathCall

section

variable {own : Owners} {l : List UInt32} {k : Kernel}

theorem isDir_of_dir (h : Consistent own k.vol l) {D : UInt32} (hD : (shape k.vol.disk).Dir D) : isDir k.vol D := by
  obtain ⟨hlt, hmode⟩ := mode_of_dir hD
  rw [isDir, readInode_eq h.good.acct.formatted hlt]
  exact hmode

theorem openFile_lost {path : CStr} {oflag : OFlag} {ino : UInt32} {v : Vol}
    (hv : resolve k.vol path oflag = (ino, v)) (hneg : isNeg ino = true) :
    openFile k path oflag = (-1, k) ∨ openFile k path oflag = (-1, { k with vol := v }) := by
  rcases openFile_cases k path oflag hv rfl with ⟨-, he⟩ | ⟨i, -, -, he⟩ | ⟨i, -, hpos, -⟩ | ⟨i, s, o, -, hpos, -⟩
  · exact .inl he
  · exact .inr he
  · rw [hneg] at hpos
    cases hpos
  · rw [hneg] at hpos
    cases hpos

theorem written_writeInode {v : Vol} (hf : Formatted v) {inode : INode} (h : inode.iNumber.toNat < 512) :
    (written (writeInode v inode)).length = (written v).length + 1 := by
  rw [writeInode_eq hf h]
  rfl

theorem createFile_writes {v : Vol} (ha : Accounted own v l) (inode : INode) (par : UInt32) (name : CStr)
    {i : UInt32} (hi : i.toNat < 512) (hfree : (inodeAt v.disk i).icMode = Mode.ifzero.code) :
    written (createFile v inode par name).2 ≠ written v := by
  have hform : Formatted (balloc v).2 := by
    cases l with
    | nil =>
      rw [balloc_nil ha.free]
      exact ha.formatted.of_header rfl fun _ _ => rfl
    | cons a l =>
      obtain ⟨fs, -, he, hacct, -⟩ := ha.balloc
      rw [he]
      exact hacct.formatted
  rcases getFreeInode_cases ha.formatted inode with ⟨-, hall⟩ | ⟨c, hc, -, he⟩
  · exact absurd hfree (hall i hi)
  · unfold createFile
    rw [he]
    dsimp only
    generalize hnew : ({ inode with iNumber := c, iIc := ({ inode.iIc with
      icMode := Mode.ifreg.code, icSize := 0 } : ICommon).setDb 0 (balloc v).1 } : INode) = new
    have hwrite := written_writeInode hform (show new.iNumber.toNat < 512 by rw [← hnew]; exact hc)
    have hbefore := (later_balloc v).written.length_le
    have hafter := (later_addInodeToDirectory (writeInode (balloc v).2 new)
      (readInode (writeInode (balloc v).2 new) ⟨0, 0, (writeInode (balloc v).2 new).stkIc⟩ par) c
      name).written.length_le
    intro heq
    rw [heq] at hafter
    omega

theorem stored_iff_blind (h : Consistent own k.vol l) {ino : UInt32} (hi : (shape k.vol.disk).Live ino)
    (toks : List CStr) :
    (∀ x ∈ lookups k.vol ino toks, x.2 ≠ noAddr → (shape k.vol.disk).Dir x.1 ∧
      ∃ j < (shape k.vol.disk).count x.1, ((shape k.vol.disk).entry x.1 j).dIno = x.2) ↔ blind k.vol ino toks := by
  constructor
  · intro hs x hx hfile
    by_contra hfound
    exact hfile (isDir_of_dir h (hs x hx hfound).1)
  · exact h.navigable.stored (.inr hi)

theorem openFile_strays (h : Consistent own k.vol l) {path : CStr} {oflag : OFlag}
    (hb : blind k.vol rootDir (tokens path)) (hs : strays k.vol rootDir (tokens path))
    (hcreate : oflag = .ocreat → parentOf k.vol path = noAddr ∨ isDir k.vol (parentOf k.vol path) ∨
      ∀ i : UInt32, i.toNat < 512 → (inodeAt k.vol.disk i).icMode ≠ Mode.ifzero.code) :
    openFile k path oflag = (-1, k) ∨ openFile k path oflag = (-1, { k with vol := k.vol.log .noInode }) := by
  have hlost : pathToIno k.vol path rootDir = noAddr := hs.lost hb
  cases oflag with
  | oexist =>
    have hv : resolve k.vol path .oexist = (noAddr, k.vol) := by rw [resolve, hlost]
    exact .inl ((openFile_lost hv rfl).elim id id)
  | ocreat =>
    rcases pathToIno2_eq k.vol path with ⟨hfound, -⟩ | ⟨-, -, he⟩ | ⟨-, hpar, -, inode, name, he⟩
    · exact absurd hlost hfound
    · have hv : resolve k.vol path .ocreat = (noAddr, k.vol) := by rw [resolve, he]
      exact .inl ((openFile_lost hv rfl).elim id id)
    · obtain ⟨pre, tok, post, htoks, hpre, hfile, hfound, hnone⟩ := hs.gives_out hb
      have hwalk : parentOf k.vol path = walkPath k.vol (walkPath k.vol rootDir pre) (tok :: post).dropLast := by
        rw [parentOf, htoks, List.dropLast_append_of_ne_nil (by simp), walkPath_append]
      cases post with
      | cons tok' post =>
        -- the walk has given out before the last component
        have hstop : walkPath k.vol (walkPath k.vol rootDir pre) [tok] = noAddr := by
          rw [← walkPath_append]
          exact hnone
        rw [List.dropLast_cons_cons, ← List.singleton_append, walkPath_append, hstop, walkPath_noAddr] at hwalk
        exact absurd hwalk hpar
      | nil =>
        have hdir : ¬isDir k.vol (parentOf k.vol path) := by
          rw [hwalk]
          exact hfile
        have hall := ((hcreate rfl).resolve_left hpar).resolve_left hdir
        rcases getFreeInode_cases h.good.acct.formatted inode with ⟨hfull, -⟩ | ⟨i, hi, hfree, -⟩
        · have hv : resolve k.vol path .ocreat = (0xFFFFFFFE, k.vol.log .noInode) := by
            rw [resolve, he, createFile, hfull]
          exact openFile_lost hv rfl
        · exact absurd hfree (hall i hi)

theorem PathCall.clear.openFile {path : CStr} {oflag : OFlag} (hc : (PathCall.open path oflag).clear k)
    (h : Consistent own k.vol l) (hfd : getFD k ≠ none) (hs : Fs.strays k.vol rootDir (tokens path)) :
    openFile k path oflag = (-1, k) ∨ openFile k path oflag = (-1, { k with vol := k.vol.log .noInode }) := by
  obtain ⟨hblind, hlast⟩ := hc
  rw [PathCall.lookups, if_neg hfd] at hblind
  refine openFile_strays h hblind hs fun hcreat => ?_
  subst hcreat
  exact hlast hfd

theorem openFile_noFD (path : CStr) (oflag : OFlag) (h : getFD k = none) : openFile k path oflag = (-1, k) := by
  simp [openFile, h]

theorem exec_lost {path : CStr} (h : pathToIno k.vol path rootDir = noAddr) : exec k path = (-1, k) := by
  simp [exec, getProgramEntry, h]

theorem cd_lost {path : CStr} (h : pathToIno k.vol path k.cwd = noAddr) : cd k path = (-1, k) := by
  simp [cd, h]

theorem mv_lost {path : CStr} (name : CStr) (h : pathToIno k.vol path rootDir = noAddr) :
    (mv k name path).2 = k := by
  unfold mv
  split
  · rfl
  · simp [h]

theorem PathCall.stored_iff (h : Consistent own k.vol l) (hcwd : (shape k.vol.disk).Dir k.cwd) (c : PathCall) :
    (∀ x ∈ c.lookups k, x.2 ≠ noAddr → (shape k.vol.disk).Dir x.1 ∧
      ∃ j < (shape k.vol.disk).count x.1, ((shape k.vol.disk).entry x.1 j).dIno = x.2) ↔
    ∀ x ∈ c.lookups k, ¬isDir k.vol x.1 → x.2 = noAddr := by
  have hroot := h.tree.root.live
  cases c with
  | «open» path oflag =>
    rw [PathCall.lookups]
    split
    · simp
    · exact stored_iff_blind h hroot _
  | exec path =>
    rw [PathCall.lookups]
    split
    · simp only [List.append_nil]
      exact stored_iff_blind h hroot _
    · simp only [List.forall_mem_append]
      exact and_congr (stored_iff_blind h hroot _) (stored_iff_blind h hroot _)
  | cd path => exact stored_iff_blind h hcwd.live _
  | mv name path =>
    rw [PathCall.lookups]
    split
    · simp
    · exact stored_iff_blind h hroot _

theorem openFile_made (h : Consistent own k.vol l) {path : CStr} (hfd : getFD k ≠ none)
    (hlost : pathToIno k.vol path rootDir = noAddr) (hpar : parentOf k.vol path ≠ noAddr) {i : UInt32}
    (hi : i.toNat < 512) (hfree : (inodeAt k.vol.disk i).icMode = Mode.ifzero.code) :
    written (openFile k path .ocreat).2.vol ≠ written k.vol := by
  rw [(openFile_vol k path .ocreat).1, if_neg hfd]
  rcases pathToIno2_eq k.vol path with ⟨hfound, -⟩ | ⟨-, hno, -⟩ | ⟨-, -, -, inode, name, he⟩
  · exact absurd hlost hfound
  · exact absurd hno hpar
  · rw [resolve, he]
    exact createFile_writes h.good.acct inode _ name hi hfree

theorem strays_of_parent (h : Consistent own k.vol l) {path : CStr} (hpar : parentOf k.vol path ≠ noAddr)
    (hfile : ¬isDir k.vol (parentOf k.vol path)) : strays k.vol rootDir (tokens path) := by
  have hpre : (tokens path).dropLast ≠ [] := by
    intro he
    rw [parentOf, he] at hfile
    exact hfile (isDir_of_dir h h.tree.root)
  have htoks : tokens path ≠ [] := by
    intro he
    rw [he] at hpre
    exact hpre rfl
  exact ⟨_, [(tokens path).getLast htoks], (List.dropLast_append_getLast htoks).symm, hpre, by simp, hpar, hfile⟩

theorem PathCall.safe_iff_clear (h : Consistent own k.vol l) (hcwd : (shape k.vol.disk).Dir k.cwd)
    (c : PathCall) : c.Safe k ↔ c.clear k := by
  have hstored := c.stored_iff h hcwd
  constructor
  · intro hsafe
    have hblind := hstored.mp hsafe.stored
    refine ⟨hblind, ?_⟩
    cases c with
    | «open» path oflag =>
      cases oflag with
      | oexist => trivial
      | ocreat =>
        intro hfd
        by_contra hno
        push Not at hno
        obtain ⟨hpar, hfile, i, hi, hfree⟩ := hno
        have hs := strays_of_parent h hpar hfile
        rw [PathCall.lookups, if_neg hfd] at hblind
        exact openFile_made h hfd (hs.lost hblind) hpar hi hfree (hsafe.fails hs).2
    | exec path => trivial
    | cd path =>
      intro hfound
      by_contra hfile
      have hfail : (Core.cd k path).1 = -1 := (hsafe.fails (.inr ⟨hfound, hfile⟩)).1
      rw [Core.cd, if_neg hfound] at hfail
      exact absurd hfail (show (0 : Int) ≠ -1 by decide)
    | mv name path => trivial
  · rintro ⟨hblind, hlast⟩
    refine ⟨fun hs => ?_, hstored.mpr hblind⟩
    cases c with
    | «open» path oflag =>
      by_cases hfd : getFD k = none
      · rw [PathCall.fails, openFile_noFD path oflag hfd]
        exact ⟨rfl, rfl⟩
      · rw [PathCall.fails]
        rcases PathCall.clear.openFile ⟨hblind, hlast⟩ h hfd hs with he | he
        · rw [he]
          exact ⟨rfl, rfl⟩
        · rw [he]
          exact ⟨rfl, rfl⟩
    | exec path =>
      have hb : blind k.vol rootDir (tokens path) := fun x hx => hblind x (List.mem_append_left _ hx)
      rw [PathCall.fails, exec_lost (hs.lost hb)]
      exact ⟨rfl, rfl⟩
    | cd path =>
      rcases hs with hs | ⟨hfound, hfile⟩
      · rw [PathCall.fails, cd_lost (hs.lost hblind)]
        exact ⟨rfl, rfl⟩
      · exact absurd (hlast hfound) hfile
    | mv name path =>
      by_cases hdot : name.head? = some dot
      · rw [PathCall.fails, Core.mv, if_pos hdot]
      · rw [PathCall.lookups, if_neg hdot] at hblind
        rw [PathCall.fails, mv_lost name (hs.lost hblind)]

/-! What the two calls that a check leaves out keep. -/

theorem opensFile_strtokCut (hroot : isDir k.vol rootDir) {path : CStr}
    (hfound : pathToIno k.vol path rootDir ≠ noAddr)
    (hfile : pathToIno k.vol (strtokCut path) rootDir ≠ noAddr →
      ¬isDir k.vol (pathToIno k.vol (strtokCut path) rootDir)) : OpensFile k.vol (strtokCut path) := by
  refine ⟨?_, fun hnone => ?_, hfile⟩
  · rw [tokens_strtokCut]
    cases tokens path with
    | nil => trivial
    | cons tok rest => exact fun _ => ⟨hroot, trivial⟩
  · rw [pathToIno, tokens_strtokCut] at hnone
    rw [pathToIno, ← List.take_append_drop 1 (tokens path), walkPath_append, hnone, walkPath_noAddr] at hfound
    exact absurd rfl hfound

theorem FsckInv.getProgramEntry (h : FsckInv k) {path : CStr} (entry priority : UInt32)
    (hfile : pathToIno k.vol path rootDir ≠ noAddr → pathToIno k.vol (strtokCut path) rootDir ≠ noAddr →
      ¬isDir k.vol (pathToIno k.vol (strtokCut path) rootDir)) :
    FsckInv (getProgramEntry k path entry priority).2.2.2 ∧
      (shape k.vol.disk).Same (shape (getProgramEntry k path entry priority).2.2.2.vol.disk) := by
  have hrefl : (shape k.vol.disk).Same (shape k.vol.disk) := ⟨fun _ => rfl, fun _ _ => rfl, fun _ _ _ _ => rfl⟩
  unfold Core.getProgramEntry
  split
  · next hfound =>
    obtain ⟨⟨own, l, hf⟩, ht⟩ := h
    have hopens := opensFile_strtokCut (isDir_of_dir hf.disk hf.disk.tree.root) hfound (hfile hfound)
    obtain ⟨⟨own', l', hf', -⟩, ht'⟩ := hf.openFile ht hopens .oexist fun hno => by cases hno
    have hopen : FsckInv (openFile k (strtokCut path) .oexist).2 := ⟨⟨own', l', hf'⟩, ht'⟩
    have hvol := openFile_oexist_vol k (strtokCut path)
    dsimp only
    generalize openFile k (strtokCut path) .oexist = r at hopen hvol
    split
    · have hread := (hopen.fread r.1 4).fread r.1 4
      have hvol' : (Core.fread (Core.fread r.2 r.1 4).2.2 r.1 4).2.2.vol = k.vol := by
        obtain ⟨of₁, he₁⟩ := fread_kernel r.2 r.1 4
        obtain ⟨of₂, he₂⟩ := fread_kernel (Core.fread r.2 r.1 4).2.2 r.1 4
        rw [he₂, he₁]
        exact hvol
      refine ⟨hread.close r.1, ?_⟩
      obtain ⟨own₂, l₂, hf₂⟩ := hread.1
      have hsame := hf₂.same_close hread.2 r.1
      rw [hvol'] at hsame
      exact hsame
    · refine ⟨hopen, ?_⟩
      rw [hvol]
      exact hrefl
  · exact ⟨h, hrefl⟩

theorem FsckInv.exec (h : FsckInv k) {path : CStr}
    (hfile : pathToIno k.vol path rootDir ≠ noAddr → pathToIno k.vol (strtokCut path) rootDir ≠ noAddr →
      ¬isDir k.vol (pathToIno k.vol (strtokCut path) rootDir)) :
    FsckInv (exec k path).2 ∧ (shape k.vol.disk).Same (shape (exec k path).2.vol.disk) := by
  obtain ⟨hentry, hsame⟩ := h.getProgramEntry (word k.vol.stkBlk 0) (word k.vol.stkBlk 1) hfile
  unfold Core.exec
  dsimp only
  split
  · exact ⟨hentry, hsame⟩
  · refine ⟨hentry.same ?_ rfl rfl rfl, hsame⟩
    refine (hentry.2.setPcb _ _ fun i o ho => ?_).of_same (fun _ => .refl _) (fun _ => rfl)
      (fun _ _ => rfl) fun _ _ _ hfd => hfd
    simp [Pcb.zero] at ho

theorem Fsck.move (h : Fsck own l k) {own' : Owners} {l' : List UInt32} {v₁ v₂ : Vol} {e : Nat}
    {name name' : CStr} {q : UInt32} {c : UInt8} (ht : TakenOut own l k name v₁ e)
    (hq : (shape k.vol.disk).Dir q) (hc : c ≠ dot) (hg : Good own' v₂ l')
    (hm : (shape k.vol.disk).Moved (shape v₂.disk) k.cwd e q (c :: name'))
    (ha : Appended own own' v₁ v₂ l l' q (dirEntry k.vol.disk (inodeAt k.vol.disk k.cwd) e).dIno
      (c :: name')) : Fsck own' l' { k with vol := v₂ } := by
  obtain ⟨hdisk, hcwd, hsmall⟩ := ht.moved h.disk h.cwd h.small hq hc hg hm ha
  have hu := ht.unlisted
  refine ⟨hdisk, hsmall, fun s hs => ?_, hcwd⟩
  have hl := h.loaded s hs
  have hnp : (k.ai s).iNumber ≠ k.cwd := (hl.not_dir h.cwd).symm
  have hnq : (k.ai s).iNumber ≠ q := (hl.not_dir hq).symm
  have hmaps : Maps own v₁.disk (k.ai s).iNumber (k.ai s).iIc (blockCount (k.ai s).iIc) :=
    hl.maps.frame (fun _ _ ho => ho) fun hlarge => hu.frame _ _ _ (hl.maps.index hlarge) hnp
  refine ⟨hl.number, hl.regular, ?_, ha.others _ _ _ hmaps, hl.small⟩
  rw [ha.inodes _ hl.number hnq, hu.inodes _ hl.number hnp]
  exact hl.stored

theorem Fsck.updateSb (h : Fsck own l k) : Fsck own l { k with vol := updateSb k.vol } := by
  rw [h.disk.good.updateSb]
  exact ⟨h.disk.setTrace _, h.small, h.loaded, h.cwd⟩

theorem mv_kernel (k : Kernel) (name path : CStr) : ∃ v, (mv k name path).2 = { k with vol := v } := by
  unfold mv
  split
  · exact ⟨k.vol, rfl⟩
  · dsimp only
    split
    · exact ⟨k.vol, rfl⟩
    · split
      · exact ⟨k.vol, rfl⟩
      · exact ⟨_, rfl⟩

theorem FsckInv.mv (h : FsckInv k) {name path : CStr} (hok : mvOk k name path)
    (hfail : ¬Failed (mv k name path).2.vol) : FsckInv (mv k name path).2 ∧
      ∀ i, (shape (mv k name path).2.vol.disk).Live i → (shape k.vol.disk).Live i := by
  obtain ⟨⟨own, l, h⟩, ht⟩ := h
  have htab : Tables (Core.mv k name path).2 := by
    obtain ⟨v, he⟩ := mv_kernel k name path
    rw [he]
    exact ht.setVol v
  rcases mv_cases h.disk h.cwd (hok.imp_right And.left) with he | he | ⟨⟨hdot, hdest, hq⟩, e, hout, he⟩
  · rw [he]
    exact ⟨⟨⟨own, l, h⟩, ht⟩, fun _ hi => hi⟩
  · rw [he] at htab ⊢
    refine ⟨⟨⟨own, l, h.updateSb⟩, htab⟩, fun i hi => ?_⟩
    rw [h.disk.good.updateSb] at hi
    exact hi
  · rw [he] at hfail htab ⊢
    obtain ⟨own', l', c, rest, hc, hg, hm, ha⟩ := hout.appended_mv h.disk hok hdot hdest hq hfail
    have hf := h.move hout hq hc hg hm ha
    refine ⟨⟨⟨own', l', hf.updateSb⟩, htab⟩, fun i hi => ?_⟩
    dsimp only at hi
    rw [hg.updateSb, Shape.Live] at hi
    change (shape (movedVol k name path e).disk).mode i ≠ _ at hi
    rw [hm.mode] at hi
    exact hi

end

/-! Runs. -/

inductive VolCall where
  | fs (call : FsckCall)
  | exec (path : CStr)
  | mv (name path : CStr)

def volStep (k : Kernel) : Fin 8 × VolCall → Kernel
  | (p, .fs call) => fsckStep k (p, call)
  | (p, .exec path) => (exec { k with current := p } path).2
  | (p, .mv name path) => (mv { k with current := p } name path).2

/-- Paths are clear. Apart from that, `open` and `exec` open no directories,
`mv` takes regular files to other directories, names that are created are in
order, files stay below the indirect range, and no allocation has failed when a
call returns that makes some. -/
def pathOk (k : Kernel) (c : Fin 8 × VolCall) : Prop :=
  match c with
  | (p, .fs (.open path oflag)) => (PathCall.open path oflag).clear { k with current := p } ∧
    (pathToIno k.vol path rootDir = noAddr → ∀ t, (tokens path).getLast? = some t → nameOk t) ∧
    (pathToIno k.vol path rootDir ≠ noAddr → ¬isDir k.vol (pathToIno k.vol path rootDir)) ∧
    ¬Failed (volStep k c).vol
  | (p, .fs (.cd path)) => (PathCall.cd path).clear { k with current := p }
  | (p, .fs call) => fsckOk k (p, call)
  | (p, .exec path) => (PathCall.exec path).clear { k with current := p } ∧
    (pathToIno k.vol path rootDir ≠ noAddr → pathToIno k.vol (strtokCut path) rootDir ≠ noAddr →
      ¬isDir k.vol (pathToIno k.vol (strtokCut path) rootDir))
  | (p, .mv name path) => (PathCall.mv name path).clear { k with current := p } ∧
    (name.head? ≠ some dot → destDir k.vol path → ∀ e, Removable k name e → (∀ j < e, ¬Removable k name j) →
      let dir := dirEntry k.vol.disk (inodeAt k.vol.disk k.cwd) e
      (inodeAt k.vol.disk dir.dIno).icMode = Mode.ifreg.code ∧ nameOk (dNameString k.vol dir) ∧
        pathToIno k.vol path rootDir ≠ k.cwd) ∧ ¬Failed (volStep k c).vol

/-- The numbers that a call stores in directories: those of the file or the
directory it creates, and for the latter also that of the directory it is in. -/
def stores (k : Kernel) (c : Fin 8 × VolCall) (i : UInt32) : Prop :=
  match c with
  | (_, .fs (.open path .ocreat)) =>
    pathToIno k.vol path rootDir = noAddr ∧ (pathToIno2 k.vol path rootDir).1 = i
  | (_, .fs (.mkdir _)) => i = k.cwd ∨ (getFreeInode k.vol ⟨0, 0, k.vol.stkIc⟩).1.map INode.iNumber = some i
  | (_, .mv name _) => (removeFromCwd k name).child.dIno = i
  | _ => False

/-- A call that is in order keeps the invariant, and an inode that was not in use
before is one that it has stored. -/
structure VolStep (k : Kernel) (c : Fin 8 × VolCall) : Prop where
  inv : FsckInv (volStep k c)
  live : ∀ i, (shape (volStep k c).vol.disk).Live i → (shape k.vol.disk).Live i ∨ stores k c i

theorem VolStep.of_vol {k : Kernel} {c : Fin 8 × VolCall} (h : FsckInv (volStep k c))
    (hvol : (volStep k c).vol = k.vol) : VolStep k c := by
  refine ⟨h, fun i hi => ?_⟩
  rw [hvol] at hi
  exact .inl hi

section

variable {k : Kernel} {p : Fin 8}

theorem VolStep.openFile (h : FsckInv k) {path : CStr} {oflag : OFlag}
    (hok : pathOk k (p, .fs (.open path oflag))) : VolStep k (p, .fs (.open path oflag)) := by
  have hp := h.enter p
  have htp := hp.2
  obtain ⟨own, l, hf⟩ := hp.1
  obtain ⟨hclear, hlast, hfile, hfail⟩ := hok
  have hsame : ∀ r : Int, Core.openFile { k with current := p } path oflag = (r, { k with current := p }) →
      VolStep k (p, .fs (.open path oflag)) := fun r he => by
    have hstep : volStep k (p, .fs (.open path oflag)) = { k with current := p } := by rw [volStep, fsckStep, he]
    refine .of_vol ?_ (by rw [hstep])
    rw [hstep]
    exact hp
  by_cases hfd : getFD { k with current := p } = none
  · exact hsame _ (Core.openFile_noFD path oflag hfd)
  · by_cases hs : strays k.vol rootDir (tokens path)
    · rcases hclear.openFile hf.disk hfd hs with he | he
      · exact hsame _ he
      · refine absurd ⟨.noInode, ?_, rfl⟩ hfail
        rw [volStep, fsckStep, he]
        exact List.mem_cons_self
    · have halong := dirsAlong_of_not_strays (fun _ => isDir_of_dir hf.disk hf.disk.tree.root) hs
      obtain ⟨⟨own', l', hf', -⟩, ht'⟩ := hf.openFile htp ⟨halong, hlast, hfile⟩ oflag fun _ => .inl hfail
      refine ⟨⟨⟨own', l', hf'⟩, ht'⟩, fun i hi => ?_⟩
      have hvol := (Core.openFile_vol { k with current := p } path oflag).1
      rw [if_neg hfd] at hvol
      change ¬Failed (Core.openFile _ path oflag).2.vol at hfail
      change (shape (Core.openFile _ path oflag).2.vol.disk).Live i at hi
      rw [hvol] at hi hfail
      cases oflag with
      | oexist => exact .inl hi
      | ocreat =>
        rcases pathToIno2_created hf.disk halong hlast with
          ⟨hbad, -⟩ | ⟨he, -⟩ | ⟨hnone, own', l', ic, c, name, -, -, -, -, -, -, hext⟩
        · exact absurd hbad hfail
        · rw [resolve, he] at hi
          exact .inl hi
        · change (shape (pathToIno2 k.vol path rootDir).2.disk).Live i at hi
          rw [Shape.Live, hext.grown.mode] at hi
          split at hi
          · next hnew => exact .inr ⟨hnone, hnew.symm⟩
          · exact .inl hi

theorem VolStep.mkdir (h : FsckInv k) {name : CStr} (hok : pathOk k (p, .fs (.mkdir name))) :
    VolStep k (p, .fs (.mkdir name)) := by
  refine ⟨fsck_step k (p, .mkdir name) h hok, fun i hi => ?_⟩
  obtain ⟨own, l, hf⟩ := (h.enter p).1
  obtain ⟨hname, hfail⟩ := hok
  rcases mkdir_extended trivial_good (Good.sound hf.disk.good) hf.cwd (hf.disk.roomy hf.cwd)
    (le_trans hname.2.1 (by omega)) with ⟨hbad, -⟩ | ⟨own', l', i', ic, v', he, -, -, hfree, -, hext⟩
  · exact absurd hbad hfail
  · rw [volStep, fsckStep, he, Shape.Live, hext.grown.mode] at hi
    split at hi
    · next hnew =>
      subst hnew
      exact .inr (.inr hfree)
    · exact .inl hi

theorem VolStep.cd (h : FsckInv k) {path : CStr} (hok : pathOk k (p, .fs (.cd path))) :
    VolStep k (p, .fs (.cd path)) := by
  have hp := h.enter p
  obtain ⟨own, l, hf⟩ := hp.1
  obtain ⟨hblind, hend⟩ := hok
  obtain ⟨ino, he⟩ := cd_kernel { k with current := p } path
  refine .of_vol ?_ (by rw [volStep, fsckStep, he])
  by_cases hs : strays k.vol k.cwd (tokens path)
  · have hlost := cd_lost (k := { k with current := p }) (hs.lost hblind)
    rw [volStep, fsckStep, hlost]
    exact hp
  · have hok : cdOk { k with current := p } path :=
      ⟨dirsAlong_of_not_strays (fun _ => isDir_of_dir hf.disk hf.cwd) hs, hend⟩
    exact fsck_step k (p, .cd path) h hok

theorem VolStep.mv (h : FsckInv k) {name path : CStr} (hok : pathOk k (p, .mv name path)) :
    VolStep k (p, .mv name path) := by
  have hp := h.enter p
  obtain ⟨own, l, hf⟩ := hp.1
  obtain ⟨⟨hblind, -⟩, hmove, hfail⟩ := hok
  by_cases hs : name.head? ≠ some dot ∧ strays k.vol rootDir (tokens path)
  · rw [PathCall.lookups, if_neg hs.1] at hblind
    have hlost := mv_lost (k := { k with current := p }) name (hs.2.lost hblind)
    refine .of_vol ?_ (by rw [volStep, hlost])
    rw [volStep, hlost]
    exact hp
  · have hok : mvOk { k with current := p } name path := by
      by_cases hdot : name.head? = some dot
      · exact .inl hdot
      · exact .inr ⟨dirsAlong_of_not_strays (fun _ => isDir_of_dir hf.disk hf.disk.tree.root)
          fun hstray => hs ⟨hdot, hstray⟩, hmove hdot⟩
    obtain ⟨hinv, hlive⟩ := hp.mv hok hfail
    exact ⟨hinv, fun i hi => .inl (hlive i hi)⟩

theorem VolStep.exec (h : FsckInv k) {path : CStr} (hok : pathOk k (p, .exec path)) :
    VolStep k (p, .exec path) := by
  obtain ⟨hinv, hsame⟩ := (h.enter p).exec hok.2
  exact ⟨hinv, fun i hi => .inl (hsame.live.mp hi)⟩

theorem vol_step (c : Fin 8 × VolCall) (h : FsckInv k) (hok : pathOk k c) : VolStep k c := by
  obtain ⟨p, c⟩ := c
  cases c with
  | exec path => exact .exec h hok
  | mv name path => exact .mv h hok
  | fs call =>
    have hp := h.enter p
    obtain ⟨own, l, hf⟩ := hp.1
    cases call with
    | «open» path oflag => exact .openFile h hok
    | mkdir name => exact .mkdir h hok
    | cd path => exact .cd h hok
    | close fd =>
      refine ⟨fsck_step k (p, .close fd) h trivial, fun i hi => .inl ?_⟩
      exact (hf.same_close hp.2 fd).live.mp hi
    | lseek fd offset whence =>
      refine .of_vol (fsck_step k (p, .lseek fd offset whence) h trivial) ?_
      obtain ⟨of', he⟩ := lseek_kernel { k with current := p } fd offset whence
      rw [volStep, fsckStep, he]
    | fread fd n =>
      refine .of_vol (fsck_step k (p, .fread fd n) h trivial) ?_
      obtain ⟨of', he⟩ := fread_kernel { k with current := p } fd n
      rw [volStep, fsckStep, he]
    | fwrite fd data n =>
      refine ⟨fsck_step k (p, .fwrite fd data n) h hok, fun i hi => .inl ?_⟩
      obtain ⟨-, -, -, -, hsame⟩ := hf.fwrite hp.2 fd data n hok.1 (.inl hok.2)
      exact hsame.live.mp hi
    | unlink name =>
      refine ⟨fsck_step k (p, .unlink name) h hok, fun i hi => .inl ?_⟩
      rcases unlink_cases hf.disk hf.cwd hf.small name with he | ⟨e, v₁, v₂, l', he, ht, hb⟩
      · rw [volStep, fsckStep, he] at hi
        exact hi
      · rw [volStep, fsckStep, he] at hi
        exact ((shape_cut hf.disk ht.proper ht.notCwd ht.unlisted hb).live.mp hi).1

/-- The numbers that stood in directories at the start or were stored since. -/
def Recorded (k : Kernel) (calls : List (Fin 8 × VolCall)) (i : UInt32) : Prop :=
  (shape k.vol.disk).Lists i ∨
    ∃ before c after, calls = before ++ c :: after ∧ stores (run volStep k before) c i

/-- **Paths lead through directories.** In a run of such calls the working
directory is one, and every number in a directory was stored there by `wipe` or
by a call that creates. Then a call fails at an inode that is no directory, and
no lookup takes a number from its bytes, exactly if the call is clear. -/
theorem paths_through_directories (k₀ : Kernel) (h₀ : Ready k₀) (calls : List (Fin 8 × VolCall))
    (hc : Along volStep pathOk (wiped k₀) calls) :
    let k := run volStep (wiped k₀) calls
    (shape k.vol.disk).Dir k.cwd ∧ (∀ i, (shape k.vol.disk).Lists i → Recorded (wiped k₀) calls i) ∧
      ∀ p (c : PathCall), c.Safe { k with current := p } ↔ c.clear { k with current := p } := by
  intro k
  have hseed := wiped_seeded h₀
  obtain ⟨own₀, l₀, hf₀, -⟩ := hseed.fsck
  have hstart : FsckInv (wiped k₀) := ⟨⟨own₀, l₀, hf₀⟩, hseed.tables⟩
  have hstep : ∀ k c, FsckInv k → pathOk k c → FsckInv (volStep k c) := fun k c h hok => (vol_step c h hok).inv
  have hinv : FsckInv k := invariant hstep hstart hc
  obtain ⟨own, l, hf⟩ := hinv.1
  refine ⟨hf.cwd, fun i hi => ?_, fun p c => ?_⟩
  · rw [hf.disk.tree.lists_iff] at hi
    rw [Recorded, hf₀.disk.tree.lists_iff]
    exact since (P := fun k => (shape k.vol.disk).Live i) hstep
      (fun k c h hok hlive => (vol_step c h hok).live i hlive) hstart hc hi
  · obtain ⟨own, l, hfp⟩ := (hinv.enter p).1
    exact PathCall.safe_iff_clear hfp.disk hfp.cwd c

/-- The root directory is entered, nothing is moved, a file is executed and
deleted. -/
def pathCalls : List (Fin 8 × VolCall) :=
  [(0, .fs (.cd [slash])), (0, .mv [dot] [slash]), (0, .exec (cstr "P0")), (0, .fs (.unlink (cstr "P0")))]

end

theorem blind_single {v : Vol} (hroot : isDir v rootDir) (name : CStr) : blind v rootDir [name] := by
  intro x hx hfile
  rw [Fs.lookups, if_neg (by decide)] at hx
  obtain rfl := List.mem_singleton.mp hx
  exact absurd hroot hfile

theorem Seeded.pathCalls_ok {n : Nat} {k : Kernel} (h : Seeded n k) (hcwd : k.cwd = rootDir)
    (hcur : { k with current := 0 } = k) (htrace : k.vol.trace = []) : Along volStep pathOk k pathCalls := by
  obtain ⟨own, l, hf, -⟩ := h.fsck
  have hroot := isDir_of_dir hf.disk hf.disk.tree.root
  have hname : nameOk (cstr "P0") := by
    unfold nameOk
    decide
  have htok : tokens (cstr "P0") = [cstr "P0"] := by decide
  have hcut : strtokCut (cstr "P0") = cstr "P0" := by decide
  have hslash : tokens [slash] = [] := by decide
  have hdot : [dot].head? = some dot := rfl
  have hpath : pathToIno k.vol [slash] k.cwd = k.cwd := by rw [pathToIno, hslash, walkPath]
  have hcd : volStep k (0, .fs (.cd [slash])) = k := by
    rw [volStep, fsckStep, hcur, cd]
    split
    · rfl
    · rw [hpath]
  have hmv : volStep k (0, .mv [dot] [slash]) = k := by rw [volStep, hcur, mv, if_pos hdot]
  refine ⟨⟨fun x hx => ?_, fun _ => ?_⟩, ?_⟩
  · rw [hcur, PathCall.lookups, hslash] at hx
    cases hx
  · dsimp only
    rw [hpath, hcwd]
    exact hroot
  · rw [hcd]
    refine ⟨⟨⟨fun x hx => ?_, trivial⟩, fun hne => absurd hdot hne, ?_⟩, ?_⟩
    · rw [hcur, PathCall.lookups, if_pos hdot] at hx
      cases hx
    · rw [hmv]
      exact not_failed_of_trace htrace
    · rw [hmv]
      refine ⟨⟨⟨fun x hx => ?_, trivial⟩, fun _ hfound => ?_⟩, hname, trivial⟩
      · rw [hcur, PathCall.lookups, hcut, htok, List.mem_append] at hx
        rcases hx with hx | hx
        · exact blind_single hroot _ x hx
        · split at hx
          · cases hx
          · exact blind_single hroot _ x hx
      · rw [hcut] at hfound ⊢
        exact (h.openOk hname htok).2.2 hfound

theorem paths_through_directories_exec : ∃ k, k = run volStep (wiped blankKernel) pathCalls ∧
    (shape k.vol.disk).Dir k.cwd :=
  ⟨_, rfl, (paths_through_directories blankKernel ready_blankKernel pathCalls
    ((wiped_seeded ready_blankKernel).pathCalls_ok rfl rfl rfl)).1⟩

/-! A regular file as the working directory. -/

theorem Holds.not_isDir {v : Vol} {i : UInt32} {b : List UInt8} (h : Holds v.disk i b) (hf : Formatted v) :
    ¬isDir v i ∧ ¬(shape v.disk).Dir i := by
  rw [isDir, readInode_eq hf h.lt, Shape.Dir, shape_mode h.lt, h.regular]
  decide

theorem Stocked.cd_file {k : Kernel} (h : Stocked 8 k) (hcur : { k with current := 0 } = k) (j : Fin 8) :
    let path := objFiles.getD j.val []
    let k' := run volStep k [(0, .fs (.cd path))]
    ¬(PathCall.cd path).Safe k ∧ ¬(shape k'.vol.disk).Dir k'.cwd := by
  intro path k'
  obtain ⟨own, l, hf, -⟩ := h.seeded.fsck
  have hholds := h.holds j
  obtain ⟨hfile, hdir⟩ := hholds.not_isDir hf.disk.good.acct.formatted
  have hfound := ne_noAddr_of_lt hholds.lt
  change pathToIno k.vol path rootDir ≠ noAddr at hfound
  rw [← h.cwd] at hfile hdir hfound
  have hcd : cd k path = (0, { k with cwd := pathToIno k.vol path k.cwd }) := by rw [cd, if_neg hfound]
  have hk' : k' = { k with cwd := pathToIno k.vol path k.cwd } := by
    change (cd { k with current := 0 } path).2 = _
    rw [hcur, hcd]
  refine ⟨fun hsafe => ?_, ?_⟩
  · have hfail : (cd k path).1 = -1 := (hsafe.fails (.inr ⟨hfound, hfile⟩)).1
    rw [hcd] at hfail
    exact absurd hfail (show (0 : Int) ≠ -1 by decide)
  · rw [hk']
    exact hdir

theorem cd_into_file : ¬(PathCall.cd (cstr "P0")).Safe (wiped blankKernel) ∧
    ¬(shape (run volStep (wiped blankKernel) [(0, .fs (.cd (cstr "P0")))]).vol.disk).Dir
      (run volStep (wiped blankKernel) [(0, .fs (.cd (cstr "P0")))]).cwd :=
  (wiped_stocked ready_blankKernel).cd_file rfl 0

end ArmKernel.Core
