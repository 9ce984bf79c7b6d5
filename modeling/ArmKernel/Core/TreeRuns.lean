import ArmKernel.Core.PowerCycles
import ArmKernel.Core.Reformat

/-! What each event of the machine does to the tree of directories. -/
namespace ArmKernel.Core

open Lib Lib.Bytes Lib.Run Fs SuperBlock

/-- The step of the tree. A file is added to the directory that the rest of its
path leads to, a directory to the working one; one entry goes, which is not that
of a directory with entries, or goes to another directory under the name that is
stored with it. `wipe` leaves the root directory with the programs. -/
def TreeStep (k : Kernel) (S S' : Shape) : MachineEvent → Prop
  | .svc (.fs (.open path .ocreat)) => S.Same S' ∨
    pathToIno k.vol path rootDir = noAddr ∧ ∃ i name, (tokens path).getLast? = some name ∧
      S.Grown S' (parentOf k.vol path) i Mode.ifreg.code name
  | .svc (.fs (.mkdir name)) => ∃ i, S.Grown S' k.cwd i Mode.ifdir.code name
  | .svc (.fs (.unlink name)) => S.Same S' ∨ ∃ e, Takes k name e ∧ S.Cut S' k.cwd e ∧
    (S.Dir (S.entry k.cwd e).dIno → S.count (S.entry k.cwd e).dIno ≤ 2)
  | .svc (.fs (.mv name path)) => S.Same S' ∨ ∃ e, Takes k name e ∧
    S.Moved S' k.cwd e (pathToIno k.vol path rootDir) (dNameString k.vol (S.entry k.cwd e))
  | .svc (.fs .wipe) => (∀ D, S'.Dir D ↔ D = rootDir) ∧ S'.count rootDir = 9 ∧
    ∀ j : Fin 8, ∃ i, (S'.entry rootDir (j.val + 1)).Is i (objFiles.getD j.val [])
  | _ => S.Same S'

section

variable {own : Owners} {l : List UInt32} {k k' : Kernel} {S : Shape}

theorem same_refl (S : Shape) : S.Same S := ⟨fun _ => rfl, fun _ _ => rfl, fun _ _ _ _ => rfl⟩

theorem same_trans {S S₁ S' : Shape} (h : S.Same S₁) (h' : S₁.Same S') : S.Same S' := by
  refine ⟨fun i => (h'.mode i).trans (h.mode i), fun D hD => (h'.count D (h.dir.mpr hD)).trans (h.count D hD),
    fun D e hD he => (h'.entry D e (h.dir.mpr hD) ?_).trans (h.entry D e hD he)⟩
  rw [h.count D hD]
  exact he

theorem same_of_vol (hvol : k'.vol = k.vol) : (shape k.vol.disk).Same (shape k'.vol.disk) := by
  rw [hvol]
  exact same_refl _

theorem openFile_step (h : Fsck own l k) {path : CStr} (hok : OpensFile k.vol path) {oflag : OFlag}
    (hfail : oflag = .ocreat → ¬Failed (openFile k path oflag).2.vol) :
    TreeStep k (shape k.vol.disk) (shape (openFile k path oflag).2.vol.disk) (.svc (.fs (.open path oflag))) := by
  cases oflag with
  | oexist => exact same_of_vol (openFile_oexist_vol k path)
  | ocreat =>
    have hvol := (openFile_vol k path .ocreat).1
    by_cases hfd : getFD k = none
    · rw [if_pos hfd] at hvol
      exact .inl (same_of_vol hvol)
    · rw [if_neg hfd] at hvol
      change _ = (pathToIno2 k.vol path rootDir).2 at hvol
      have hnot := hfail rfl
      rw [hvol] at hnot ⊢
      rcases pathToIno2_created h.disk hok.along hok.last with
        ⟨hf, -⟩ | ⟨he, -⟩ | ⟨hnone, own', l', ic, c, name, hlast, -, -, hmode, -, -, hext⟩
      · exact absurd hf hnot
      · rw [he]
        exact .inl (same_refl _)
      · have hgrown := hext.grown
        rw [hmode] at hgrown
        exact .inr ⟨hnone, _, _, hlast, hgrown⟩

theorem mkdir_step (h : Fsck own l k) {name : CStr} (hname : nameOk name) (hfail : ¬Failed (mkdir k name).2.vol) :
    TreeStep k (shape k.vol.disk) (shape (mkdir k name).2.vol.disk) (.svc (.fs (.mkdir name))) := by
  rcases mkdir_extended trivial_good (Good.sound h.disk.good) h.cwd (h.disk.roomy h.cwd)
    (show name.length ≤ 26 from le_trans hname.2.1 (by omega)) with
    ⟨hf, -⟩ | ⟨own', l', i, ic, v', he, hmode, -, -, -, hext⟩
  · exact absurd hf hfail
  · have hgrown := hext.grown
    rw [hmode] at hgrown
    rw [he]
    exact ⟨i, hgrown⟩

theorem unlink_step (h : Fsck own l k) (name : CStr) :
    TreeStep k (shape k.vol.disk) (shape (unlink k name).2.vol.disk) (.svc (.fs (.unlink name))) := by
  rcases unlink_cases h.disk h.cwd h.small name with he | ⟨e, v₁, v₂, l', he, ht, hd⟩
  · exact .inl (same_of_vol (by rw [he]))
  · rw [he]
    exact .inr ⟨e, ht.first, shape_cut h.disk ht.proper ht.notCwd ht.unlisted hd, ht.empty⟩

theorem mv_step (h : Fsck own l k) {name path : CStr} (hok : mvOk k name path) (hfail : ¬Failed (mv k name path).2.vol) :
    TreeStep k (shape k.vol.disk) (shape (mv k name path).2.vol.disk) (.svc (.fs (.mv name path))) := by
  rcases mv_cases h.disk h.cwd (hok.imp_right And.left) with he | he | ⟨⟨hdot, hdest, hq⟩, e, ht, he⟩
  · exact .inl (same_of_vol (by rw [he]))
  · rw [he, h.disk.good.updateSb]
    exact .inl (same_refl _)
  · rw [he] at hfail ⊢
    obtain ⟨hreg, hname, hne⟩ := (hok.resolve_left hdot).2 hdest e ht.first.1 ht.first.2
    obtain ⟨own', l', hg, ha⟩ := ht.appended h.disk hq hne (le_trans hname.2.1 (by omega)) hfail
    have hlive := (h.disk.tree.names _ _ ht.proper).1
    have hmoved := shape_moved h.disk ht.proper ((shape_mode (lt_of_live hlive)).trans hreg) hq hne ht.unlisted ha
    rw [hg.updateSb]
    exact .inr ⟨e, ht.first, hmoved⟩

theorem wipe_step (h : Running own l k) (hidle : ∀ s, ¬Active k s) :
    TreeStep k (shape k.vol.disk) (shape (wipe k).vol.disk) (.svc (.fs .wipe)) := by
  have hnum := h.fsck.disk.good.acct.formatted.num
  have hs := (wipe_stocked (h.tables.idle_of_inactive hidle) hnum).1
  generalize wipe k = k' at hs
  obtain ⟨own', l', hf, -⟩ := hs.seeded.fsck
  refine ⟨fun D => ⟨hs.seeded.only D, ?_⟩, hs.count, fun j => ?_⟩
  · rintro rfl
    exact hf.disk.tree.root
  · obtain ⟨i, hi, -⟩ := hs.files j j.isLt
    exact ⟨i, hi⟩

theorem fread_vol (k : Kernel) (fd : Int) (n : UInt32) : (fread k fd n).2.2.vol = k.vol := by
  obtain ⟨of', he⟩ := fread_kernel k fd n
  rw [he]

theorem exec_same (h : Running own l k) {path : CStr}
    (hok : pathToIno k.vol path rootDir ≠ noAddr → openOk k.vol (strtokCut path)) :
    (shape k.vol.disk).Same (shape (exec k path).2.vol.disk) := by
  have hentry : (shape k.vol.disk).Same
      (shape (getProgramEntry k path (word k.vol.stkBlk 0) (word k.vol.stkBlk 1)).2.2.2.vol.disk) := by
    unfold getProgramEntry
    split
    · next hino =>
      obtain ⟨own', l', hrun⟩ := h.openFile .oexist (hok hino) fun ho => nomatch ho
      have hvol := openFile_oexist_vol k (strtokCut path)
      dsimp only
      generalize openFile k (strtokCut path) .oexist = r at hrun hvol
      split
      · have hread := (hrun.fread r.1 4).fread r.1 4
        have hclose := hread.fsck.same_close hread.tables r.1
        rwa [fread_vol, fread_vol, hvol] at hclose
      · exact same_of_vol hvol
    · exact same_refl _
  unfold exec
  dsimp only
  split
  · exact hentry
  · exact hentry

theorem trapBody_same (h : Running own l k) {c : Trap} (hok : eventOk k (.svc (.trap c))) :
    (shape k.vol.disk).Same (shape (trapBody k c).1.vol.disk) := by
  cases c with
  | yield => exact same_refl _
  | fork => exact same_of_vol ((sameFiles_fork k).trans (sameFiles_setGpr0 _ _)).vol
  | exec path => exact exec_same h hok
  | kill pid sig => exact same_of_vol (sameFiles_killSig k pid sig).vol
  | raise sig => exact same_of_vol (sameFiles_killSig k k.self.pid sig).vol
  | mqOpen name => exact same_of_vol ((sameFiles_mqOpen k name).trans (sameFiles_setGpr0 _ _)).vol
  | send m msg => exact same_of_vol ((sameFiles_mqSend k m msg).trans (sameFiles_setGpr0 _ _)).vol
  | receive m len => exact same_of_vol ((sameFiles_mqReceive k m len).trans (sameFiles_setGpr0 _ _)).vol
  | timer => exact same_refl _
  | uart =>
    simp only [trapBody]
    split
    · exact same_refl _
    · exact same_refl _

theorem fsBody_vol (k : Kernel) (c : FsCall) : (fsBody k c).vol = (fsCall k c).2.2.vol := by
  unfold fsBody
  rcases fsCall k c with ⟨r, x, k'⟩
  cases r with
  | none => rfl
  | some r => rfl

theorem fsBody_step (h : Running own l k) {c : FsCall} (hok : fsEventOk k c) :
    TreeStep k (shape k.vol.disk) (shape (fsBody k c).vol.disk) (.svc (.fs c)) := by
  rw [fsBody_vol]
  cases c with
  | console n => exact same_refl _
  | write fd data n =>
    obtain ⟨own', l', -, -, hsame⟩ := h.fsck.fwrite h.tables fd data n hok.1 (.inl hok.2)
    exact hsame
  | read fd n => exact same_of_vol (fread_vol k fd n)
  | lseek fd offset whence =>
    change (shape k.vol.disk).Same (shape (lseek k fd offset whence).2.vol.disk)
    obtain ⟨of', he⟩ := lseek_kernel k fd offset whence
    rw [he]
    exact same_refl _
  | wipe => exact wipe_step h hok.1
  | «open» path oflag => exact openFile_step h.fsck hok.1.opensFile fun _ => hok.2
  | close fd => exact h.fsck.same_close h.tables fd
  | mkdir name => exact mkdir_step h.fsck hok.1 hok.2
  | cd path =>
    change (shape k.vol.disk).Same (shape (cd k path).2.vol.disk)
    obtain ⟨ino, he⟩ := cd_kernel k path
    rw [he]
    exact same_refl _
  | unlink name => exact unlink_step h.fsck name
  | mv name path => exact mv_step h.fsck hok.1 hok.2
  | cp src dest => exact hok.elim
  | tell fd => exact same_refl _
  | mqUnlink m => exact same_of_vol (sameFiles_mqUnlink k m).vol
  | other => exact same_refl _

theorem eventStep_vol (k : Kernel) (c : Svc) : (eventStep k (.svc c)).vol = (svcBody k c).1.vol := by
  simp only [eventStep]
  rcases svcBody k c with ⟨k', again⟩
  cases again with
  | false => rfl
  | true =>
    dsimp only
    cases hs : scheduler k' with
    | none => rfl
    | some k'' => exact (sameFiles_scheduler hs).vol

theorem event_tree (h : Running own l k) {c : MachineEvent} (hc : eventOk k c) :
    TreeStep k (shape k.vol.disk) (shape (eventStep k c).vol.disk) c := by
  cases c with
  | svc c =>
    rw [eventStep_vol]
    cases c with
    | trap c => exact trapBody_same h hc
    | fs c => exact fsBody_step h hc
  | reset fs stkBlk stkIc => exact same_refl _

end

/-- **The machine is a machine on trees**: in every state that is reached, each
event takes the tree on disk through its own step. -/
theorem tree_refinement (k₀ : Kernel) (h₀ : Ready k₀) (before : List MachineEvent) (c : MachineEvent)
    (hc : Along eventStep eventOk (wiped k₀) (before ++ [c])) :
    let k := run eventStep (wiped k₀) before
    TreeStep k (shape k.vol.disk) (shape (run eventStep (wiped k₀) (before ++ [c])).vol.disk) c := by
  intro k
  rw [along_append] at hc
  obtain ⟨own, l, h⟩ : RunningInv k := invariant event_step (wiped_seeded h₀).running hc.1
  rw [run_append]
  exact event_tree h hc.2.1

/-- A file is deleted once the machine has been off and on. -/
theorem tree_refinement_unlink : Ready blankKernel ∧
    let k := run eventStep (wiped blankKernel) interruptedEvents
    let c : MachineEvent := .svc (.fs (.unlink (cstr "P0")))
    TreeStep k (shape k.vol.disk) (shape (run eventStep (wiped blankKernel) (interruptedEvents ++ [c])).vol.disk) c :=
  ⟨ready_blankKernel, tree_refinement blankKernel ready_blankKernel interruptedEvents _ ((along_append _).mpr
    ⟨interruptedEvents_ok (wiped_seeded ready_blankKernel) rfl, trivial, trivial⟩)⟩

/-! Entries that stay. -/

def Enters (S : Shape) (D : UInt32) (x : DirEnt) : Prop := ∃ e, S.Proper D e ∧ S.entry D e = x

/-- The event neither deletes nor moves file `i`, and does not format the disk. -/
def entryOk (i : UInt32) (k : Kernel) (c : MachineEvent) : Prop :=
  eventOk k c ∧
    match c with
    | .svc (.fs (.unlink name)) | .svc (.fs (.mv name _)) =>
      ∀ e, Takes k name e → (dirEntry k.vol.disk (inodeAt k.vol.disk k.cwd) e).dIno ≠ i
    | .svc (.fs .wipe) => False
    | _ => True

section

variable {S S' : Shape} {D : UInt32} {x : DirEnt}

theorem Enters.same (h : Enters S D x) (hs : S.Same S') : Enters S' D x := by
  obtain ⟨e, hp, rfl⟩ := h
  exact ⟨e, hs.proper.mpr hp, hs.entry D e hp.dir hp.lt⟩

theorem Enters.grown (h : Enters S D x) {p i m : UInt32} {name : CStr} (hg : S.Grown S' p i m name) :
    Enters S' D x := by
  obtain ⟨e, hp, rfl⟩ := h
  obtain ⟨hp', he⟩ := hg.proper hp
  exact ⟨e, hp', he⟩

theorem Enters.cut (h : Enters S D x) {p : UInt32} {j : Nat} (hc : S.Cut S' p j) (hD : D ≠ (S.entry p j).dIno)
    (hne : (S.entry p j).dIno ≠ x.dIno) : Enters S' D x := by
  obtain ⟨e, hp, rfl⟩ := h
  have hother : ¬(D = p ∧ e = j) := by
    rintro ⟨rfl, rfl⟩
    exact hne rfl
  exact hc.moved hp hD hother

theorem Enters.moved (h : Enters S D x) {p q : UInt32} {j : Nat} {name : CStr} (hm : S.Moved S' p j q name)
    (hne : (S.entry p j).dIno ≠ x.dIno) : Enters S' D x := by
  have hD : D ≠ (S.entry p j).dIno := by
    obtain ⟨e, hp, -⟩ := h
    exact hm.not_dir hp.dir
  exact (h.cut (Shape.cut_without hm.entryOf) hD hne).grown hm.grown

theorem Enters.step {k : Kernel} {c : MachineEvent} (h : Enters S D x) (ht : Tree S) (hs : S = shape k.vol.disk)
    (hstep : TreeStep k S S' c) (hok : entryOk x.dIno k c) : Enters S' D x := by
  obtain ⟨hev, hother⟩ := hok
  cases c with
  | reset fs stkBlk stkIc => exact h.same hstep
  | svc c =>
    cases c with
    | trap c => exact h.same hstep
    | fs c =>
      cases c with
      | wipe => exact hother.elim
      | «open» path oflag =>
        cases oflag with
        | oexist => exact h.same hstep
        | ocreat =>
          rcases hstep with hsame | ⟨-, i, name, -, hg⟩
          · exact h.same hsame
          · exact h.grown hg
      | mkdir name =>
        obtain ⟨i, hg⟩ := hstep
        exact h.grown hg
      | unlink name =>
        rcases hstep with hsame | ⟨e, htakes, hcut, hempty⟩
        · exact h.same hsame
        · have hD : D ≠ (S.entry k.cwd e).dIno := by
            rintro rfl
            obtain ⟨e', hp, -⟩ := h
            exact ht.not_proper (ht.names _ _ hcut.entryOf).2 (hempty hp.dir) hp
          subst hs
          exact h.cut hcut hD (hother e htakes)
      | mv name path =>
        rcases hstep with hsame | ⟨e, htakes, hm⟩
        · exact h.same hsame
        · subst hs
          exact h.moved hm (hother e htakes)
      | console _ | write _ _ _ | read _ _ | lseek _ _ _ | close _ | cd _ | cp _ _ | tell _ | mqUnlink _ | other =>
        exact h.same hstep

end

/-- **An entry stays where it is** through every run of the machine in which its
file is neither deleted nor moved, whatever happens to the other entries of its
directory, and however often the power fails. -/
theorem entry_stays (k₀ : Kernel) (h₀ : Ready k₀) (before events : List MachineEvent)
    (hbefore : Along eventStep eventOk (wiped k₀) before) (D : UInt32) (x : DirEnt)
    (hx : Enters (shape (run eventStep (wiped k₀) before).vol.disk) D x)
    (hc : Along eventStep (entryOk x.dIno) (run eventStep (wiped k₀) before) events) :
    Enters (shape (run eventStep (run eventStep (wiped k₀) before) events).vol.disk) D x := by
  have hrun : RunningInv (run eventStep (wiped k₀) before) :=
    invariant event_step (wiped_seeded h₀).running hbefore
  have hstep : ∀ k c, RunningInv k ∧ Enters (shape k.vol.disk) D x → entryOk x.dIno k c →
      RunningInv (eventStep k c) ∧ Enters (shape (eventStep k c).vol.disk) D x := by
    intro k c ⟨hinv, hk⟩ hok
    obtain ⟨own, l, h⟩ := id hinv
    exact ⟨event_step k c hinv hok.1, hk.step h.fsck.disk.tree rfl (event_tree h hok.1) hok⟩
  exact (invariant hstep ⟨hrun, hx⟩ hc).2

section

variable {k : Kernel}

theorem Stocked.proper (h : Stocked 8 k) (j : Fin 8) : (shape k.vol.disk).Proper rootDir (j.val + 1) := by
  obtain ⟨own, l, hf, -⟩ := h.seeded.fsck
  obtain ⟨i, his, -⟩ := h.files j j.isLt
  refine ⟨hf.disk.tree.root, ?_, fun hdots => ?_⟩
  · change j.val + 1 < entryCount (inodeAt k.vol.disk rootDir)
    rw [h.count]
    omega
  · have hapart := (objFiles_apart j).1
    cases hname : objFiles.getD j.val [] with
    | nil =>
      rw [hname] at his
      exact hdots.namlen his.namlen
    | cons c rest =>
      rw [hname] at his hapart
      have hc : c = dot := his.initial.symm.trans hdots.initial
      exact hapart (by simp [hc])

theorem Stocked.unlink_other (h : Stocked 8 k) {i j : Fin 8} (hij : i ≠ j) :
    entryOk (dirEntry k.vol.disk (inodeAt k.vol.disk rootDir) (i.val + 1)).dIno k
      (.svc (.fs (.unlink (objFiles.getD j.val [])))) := by
  obtain ⟨own, l, hf, -⟩ := h.seeded.fsck
  refine ⟨trivial, fun e he hsame => hij ?_⟩
  obtain ⟨⟨hlt, hmatch, -⟩, -⟩ := he
  rw [h.cwd] at hlt hmatch hsame
  rw [h.count] at hlt
  have he : e = j.val + 1 := (h.match_iff (le_refl 8) (lt_of_lt_of_le hlt (scanLimit_le _)) j).mp hmatch
  subst he
  obtain ⟨-, hone⟩ := hf.disk.tree.once _ _ _ _ (h.proper j) (h.proper i) hsame
  exact Fin.ext (by omega)

end

/-- `P0` stays when `P1` is deleted. -/
theorem entry_stays_program : ∃ i x, x.Is i (cstr "P0") ∧
    Enters (shape (wiped blankKernel).vol.disk) rootDir x ∧
    Enters (shape (run eventStep (wiped blankKernel) [.svc (.fs (.unlink (cstr "P1")))]).vol.disk) rootDir x := by
  have h := wiped_stocked ready_blankKernel
  obtain ⟨i, his, -⟩ := h.files 0 (by decide)
  have hx : Enters (shape (wiped blankKernel).vol.disk) rootDir _ := ⟨_, h.proper 0, rfl⟩
  exact ⟨i, _, his, hx, entry_stays blankKernel ready_blankKernel [] [.svc (.fs (.unlink (cstr "P1")))] trivial
    rootDir _ hx ⟨h.unlink_other (show (0 : Fin 8) ≠ 1 by decide), trivial⟩⟩

end ArmKernel.Core
