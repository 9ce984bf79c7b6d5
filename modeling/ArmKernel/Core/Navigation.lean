import ArmKernel.Core.PowerCycles
import ArmKernel.Fs.TreePaths

/-! Moving around in the tree with `cd`: along paths, and back again. -/
namespace ArmKernel.Core

open Lib Lib.Bytes Lib.Run Fs SuperBlock

/-! Along a path. -/

def cdEach (k : Kernel) : List CStr → Option Kernel
  | [] => some k
  | path :: rest => if (cd k path).1 = 0 then cdEach (cd k path).2 rest else none

theorem tokens_append (path rest : CStr) : tokens (path ++ slash :: rest) = tokens path ++ tokens rest := by
  unfold tokens
  rw [List.splitOn_eq_splitOnP, List.splitOn_eq_splitOnP, List.splitOn_eq_splitOnP,
    List.splitOnP_append_cons _ _ (by simp), List.filter_append]

theorem cd_eq (k : Kernel) (path : CStr) : cd k path =
    if walkPath k.vol k.cwd (tokens path) = noAddr then (-1, k)
    else (0, { k with cwd := walkPath k.vol k.cwd (tokens path) }) := rfl

theorem tokens_intercalate (paths : List CStr) :
    tokens ([slash].intercalate paths) = paths.flatMap tokens := by
  induction paths with
  | nil => rfl
  | cons path rest ih =>
    cases rest with
    | nil => simp
    | cons path' rest =>
      rw [List.intercalate_cons_cons, List.append_assoc, List.singleton_append, tokens_append, ih]
      rfl

theorem cdEach_eq {k : Kernel} (hcwd : k.cwd ≠ noAddr) (paths : List CStr) :
    cdEach k paths = if walkPath k.vol k.cwd (paths.flatMap tokens) = noAddr then none
      else some { k with cwd := walkPath k.vol k.cwd (paths.flatMap tokens) } := by
  induction paths generalizing k with
  | nil =>
    rw [List.flatMap_nil, walkPath, if_neg hcwd]
    rfl
  | cons path rest ih =>
    rw [List.flatMap_cons, walkPath_append, cdEach, cd_eq]
    by_cases hlost : walkPath k.vol k.cwd (tokens path) = noAddr
    · rw [if_pos hlost, hlost, walkPath_noAddr, if_pos rfl]
      rfl
    · rw [if_neg hlost, if_pos rfl, ih hlost]

/-- **A path is gone along all the way or not at all.** `cd` of paths joined by
slashes does what a `cd` of each does, one after another, if none of them fails;
otherwise it fails and stays. -/
theorem cd_joined (k : Kernel) (hcwd : k.cwd ≠ noAddr) (paths : List CStr) :
    cd k ([slash].intercalate paths) = ((cdEach k paths).map fun k' => (0, k')).getD (-1, k) := by
  rw [cd_eq, tokens_intercalate, cdEach_eq hcwd]
  split
  · rfl
  · rfl

/-! Back again. -/

section

variable {own : Owners} {l : List UInt32} {k : Kernel} {name : CStr}

theorem cd_name (h : Running own l k) (hlen : name.length ≤ 25) (htok : tokens name = [name]) :
    cd k name = if (shape k.vol.disk).lookup k.cwd name = noAddr then (-1, k)
      else (0, { k with cwd := (shape k.vol.disk).lookup k.cwd name }) := by
  have hne : k.cwd ≠ noAddr := ne_noAddr_of_lt (lt_of_live h.fsck.cwd.live)
  rw [cd_eq, htok, walkPath_single _ _ hne, h.fsck.disk.navigable.lookup_shape h.fsck.cwd hlen]

theorem cd_up (h : Running own l k) : cd k [dot, dot] =
    if (shape k.vol.disk).count k.cwd = 16 then (-1, k)
    else if ((shape k.vol.disk).entry k.cwd 0).second = dot then (0, k)
    else if k.cwd = rootDir then (-1, k)
    else (0, { k with cwd := ((shape k.vol.disk).entry k.cwd 1).dIno }) := by
  have htree := h.fsck.disk.tree
  have hcwd : k.cwd ≠ noAddr := ne_noAddr_of_lt (lt_of_live h.fsck.cwd.live)
  rw [cd_name h (by decide) (tokens_single (by decide) (by decide)), htree.lookup_dots h.fsck.cwd]
  split
  · rw [if_pos rfl]
  · split
    · next hsecond =>
      rfl
    · split
      · rw [if_pos rfl]
      · next hroot =>
        obtain ⟨-, -, p, j, hup, hp, -⟩ := htree.dots _ h.fsck.cwd hroot
        rw [hup.ino, if_neg (ne_noAddr_of_lt (lt_of_live hp.dir.live))]

theorem proper_of_lookup (h : Running own l k) (hname : nameOk name)
    (hfound : (shape k.vol.disk).lookup k.cwd name ≠ noAddr) : ∃ e, (shape k.vol.disk).Proper k.cwd e ∧
      ((shape k.vol.disk).entry k.cwd e).dIno = (shape k.vol.disk).lookup k.cwd name := by
  obtain ⟨c, rest, rfl, hc⟩ := nameOk_cons hname
  unfold Shape.lookup at hfound ⊢
  cases hfind : (List.range (scanLimit ((shape k.vol.disk).count k.cwd))).find? fun e =>
      ((shape k.vol.disk).entry k.cwd e).answers (c :: rest) with
  | none =>
    rw [hfind] at hfound
    exact absurd rfl hfound
  | some e =>
    have hlt := lt_of_lt_of_le (List.mem_range.mp (List.mem_of_find?_eq_some hfind)) (scanLimit_le _)
    refine ⟨e, ⟨h.fsck.cwd, hlt, fun hdots => ?_⟩, rfl⟩
    have hmatch := List.find?_some hfind
    exact hc ((DirEnt.initial_of_answers hmatch).symm.trans hdots.initial)

structure GoesUp (k : Kernel) : Prop where
  full : (shape k.vol.disk).count k.cwd = 16 → cd k [dot, dot] = (-1, k)
  shadowed : (shape k.vol.disk).count k.cwd ≠ 16 → ((shape k.vol.disk).entry k.cwd 0).second = dot →
    cd k [dot, dot] = (0, k)
  root : (shape k.vol.disk).count k.cwd ≠ 16 → ((shape k.vol.disk).entry k.cwd 0).second ≠ dot →
    k.cwd = rootDir → cd k [dot, dot] = (-1, k)
  parent : (shape k.vol.disk).count k.cwd ≠ 16 → ((shape k.vol.disk).entry k.cwd 0).second ≠ dot →
    k.cwd ≠ rootDir → ∃ p, cd k [dot, dot] = (0, { k with cwd := p }) ∧
      (∃ j, (shape k.vol.disk).Proper p j ∧ ((shape k.vol.disk).entry p j).dIno = k.cwd) ∧
      ∀ q j, (shape k.vol.disk).Proper q j → ((shape k.vol.disk).entry q j).dIno = k.cwd → q = p

theorem goesUp (h : Running own l k) : GoesUp k := by
  have hup := cd_up h
  refine ⟨fun h16 => ?_, fun h16 hsecond => ?_, fun h16 hsecond hroot => ?_, fun h16 hsecond hroot => ?_⟩
  · exact hup.trans (if_pos h16)
  · exact hup.trans ((if_neg h16).trans (if_pos hsecond))
  · exact hup.trans ((if_neg h16).trans ((if_neg hsecond).trans (if_pos hroot)))
  · rw [if_neg h16, if_neg hsecond, if_neg hroot] at hup
    have hrooted : Rooted (shape k.vol.disk) := ⟨h.fsck.disk.tree, h.reach⟩
    obtain ⟨-, -, -, p, hp, hentry, honly⟩ := hrooted.parentLinks k.cwd h.fsck.cwd hroot
    rw [hp.ino] at hup
    exact ⟨p, hup, hentry, honly⟩

/-- A name that is gone to is that of an entry, other than `.` and `..`. -/
theorem cd_enters (h : Running own l k) (hname : nameOk name) (hslash : slash ∉ name) (hzero : (cd k name).1 = 0) :
    ∃ e, (shape k.vol.disk).Proper k.cwd e ∧
      cd k name = (0, { k with cwd := ((shape k.vol.disk).entry k.cwd e).dIno }) := by
  have hne : name ≠ [] := by
    rintro rfl
    exact absurd hname.1 (by decide)
  have hcd := cd_name h hname.2.1 (tokens_single hne hslash)
  have hfound : (shape k.vol.disk).lookup k.cwd name ≠ noAddr := fun hlost => by
    rw [hcd, if_pos hlost] at hzero
    cases hzero
  rw [if_neg hfound] at hcd
  obtain ⟨e, hp, he⟩ := proper_of_lookup h hname hfound
  rw [← he] at hcd
  exact ⟨e, hp, hcd⟩

theorem cd_back_iff (h : Running own l k) (hname : nameOk name) (hslash : slash ∉ name) (hok : cdOk k name)
    (hzero : (cd k name).1 = 0) : (cd (cd k name).2 [dot, dot]).2 = k ↔
      (shape k.vol.disk).count (cd k name).2.cwd ≠ 16 ∧
        ((shape k.vol.disk).entry (cd k name).2.cwd 0).second ≠ dot := by
  have hrun : Running own l (cd k name).2 := h.cd hok
  obtain ⟨e, hp, hcd⟩ := cd_enters h hname hslash hzero
  rw [hcd] at hrun ⊢
  dsimp only at hrun ⊢
  have hother : ((shape k.vol.disk).entry k.cwd e).dIno ≠ k.cwd :=
    Rooted.not_self ⟨h.fsck.disk.tree, h.reach⟩ hp
  have hroot := (h.fsck.disk.tree.names _ _ hp).2
  generalize hD : ((shape k.vol.disk).entry k.cwd e).dIno = D at hrun hother hroot ⊢
  have hup := goesUp hrun
  constructor
  · intro hback
    -- otherwise it ends at `D`
    refine ⟨fun h16 => hother ?_, fun hsecond => hother ?_⟩
    · rw [hup.full h16] at hback
      exact congrArg Kernel.cwd hback
    · by_cases h16 : (shape k.vol.disk).count D = 16
      · rw [hup.full h16] at hback
        exact congrArg Kernel.cwd hback
      · rw [hup.shadowed h16 hsecond] at hback
        exact congrArg Kernel.cwd hback
  · rintro ⟨h16, hsecond⟩
    obtain ⟨p, hp', -, honly⟩ := hup.parent h16 hsecond hroot
    rw [hp', ← honly k.cwd e hp hD]

end

/-- **`..` leads to the parent**, from every directory that is reached, but for
two: one of exactly 16 entries, where nothing is looked at, and one whose `.` has
another dot behind it, which answers first. The root has no parent. -/
theorem cd_parent (k₀ : Kernel) (h₀ : Ready k₀) (events : List MachineEvent)
    (hc : Along eventStep eventOk (wiped k₀) events) : GoesUp (run eventStep (wiped k₀) events) := by
  obtain ⟨own, l, h⟩ := invariant event_step (wiped_seeded h₀).running hc
  exact goesUp h

theorem cd_parent_after_reset : Ready blankKernel ∧ GoesUp (run eventStep (wiped blankKernel) interruptedEvents) :=
  ⟨ready_blankKernel, cd_parent blankKernel ready_blankKernel interruptedEvents
    (interruptedEvents_ok (wiped_seeded ready_blankKernel) rfl)⟩

/-- **There and back**: the `..` after a `cd` leads back if and only if the
directory in between is neither of the two. -/
theorem cd_there_and_back (k₀ : Kernel) (h₀ : Ready k₀) (events : List MachineEvent)
    (hc : Along eventStep eventOk (wiped k₀) events) (name : CStr) (hname : nameOk name) (hslash : slash ∉ name)
    (hok : cdOk (run eventStep (wiped k₀) events) name)
    (hzero : (cd (run eventStep (wiped k₀) events) name).1 = 0) :
    let k := run eventStep (wiped k₀) events
    let S := shape k.vol.disk
    let D := (cd k name).2.cwd
    (cd (cd k name).2 [dot, dot]).2 = k ↔ S.count D ≠ 16 ∧ (S.entry D 0).second ≠ dot := by
  intro k S D
  obtain ⟨own, l, h⟩ : RunningInv k := invariant event_step (wiped_seeded h₀).running hc
  exact cd_back_iff h hname hslash hok hzero

theorem Seeded.enter {n : Nat} {k : Kernel} (h : Seeded (n+1) k) (hcwd : k.cwd = rootDir)
    (hidle : ∀ s, ¬Active k s) (htrace : k.vol.trace = []) :
    let events : List MachineEvent := [.svc (.fs (.mkdir (cstr "x")))]
    Along eventStep eventOk k events ∧ cdOk (run eventStep k events) (cstr "x") ∧
      (cd (run eventStep k events) (cstr "x")).1 = 0 ∧
      (shape (run eventStep k events).vol.disk).count (cd (run eventStep k events) (cstr "x")).2.cwd = 2 := by
  have hname : nameOk (cstr "x") := by
    unfold nameOk
    decide
  obtain ⟨own, l, i, m, hnew, -⟩ := h.newInRoot hcwd hidle
  have hok := h.mkdir_ok hcwd htrace (cstr "x")
  intro events
  obtain ⟨x, hx⟩ : ∃ x, run eventStep k events = setGpr0 (mkdir k (cstr "x")).2 x := ⟨_, rfl⟩
  refine ⟨⟨⟨hname, hok⟩, trivial⟩, ?_⟩
  rw [hx]
  generalize hk : (mkdir k (cstr "x")).2 = k' at hnew
  have hread : ∀ D, (shape k'.vol.disk).Dir D →
      (readInode k'.vol ⟨0, 0, k'.vol.stkIc⟩ D).iIc.icMode = Mode.ifdir.code := fun D hD => by
    obtain ⟨hlt, hmode⟩ := mode_of_dir hD
    rw [readInode_eq hnew.disk.good.acct.formatted hlt]
    exact hmode
  have hpath : pathToIno (setGpr0 k' x).vol (cstr "x") (setGpr0 k' x).cwd = i := by
    change pathToIno k'.vol (cstr "x") k'.cwd = i
    rw [hnew.cwd]
    exact hnew.found
  have hi : i ≠ noAddr := ne_noAddr_of_lt (mode_of_dir hnew.dir).1
  have hcd : cd (setGpr0 k' x) (cstr "x") = (0, { setGpr0 k' x with cwd := i }) := by
    unfold cd
    dsimp only
    rw [hpath, if_neg hi]
  rw [hcd]
  refine ⟨⟨?_, ?_⟩, rfl, ?_⟩
  · rw [not_seedInitial.2.1]
    refine fun _ => ⟨?_, trivial⟩
    change (readInode k'.vol ⟨0, 0, k'.vol.stkIc⟩ k'.cwd).iIc.icMode = _
    rw [hnew.cwd]
    exact hread _ hnew.disk.tree.root
  · rw [hpath]
    exact fun _ => hread i hnew.dir
  · change entryCount (inodeAt k'.vol.disk i) = 2
    rw [entryCount, hnew.size]
    rfl

theorem new_entered : ∃ own l k, Running own l k ∧ cdOk k (cstr "x") ∧ (cd k (cstr "x")).1 = 0 ∧
    (shape k.vol.disk).count (cd k (cstr "x")).2.cwd = 2 := by
  obtain ⟨hevents, hok, hzero, hcount⟩ :=
    (wiped_seeded ready_blankKernel).enter rfl (wiped_idle ready_blankKernel) rfl
  obtain ⟨own, l, h⟩ := invariant event_step (wiped_seeded ready_blankKernel).running hevents
  exact ⟨own, l, _, h, hok, hzero, hcount⟩

/-- Into a new directory and out of it again. -/
theorem cd_joined_two : ∃ k k' : Kernel, k.cwd ≠ noAddr ∧ cdEach k [cstr "x", [dot, dot]] = some k' ∧
    cd k ([slash].intercalate [cstr "x", [dot, dot]]) = (0, k') := by
  have hname : nameOk (cstr "x") ∧ slash ∉ cstr "x" := by
    unfold nameOk
    decide
  obtain ⟨own, l, k, h, hok, hzero, hcount⟩ := new_entered
  have hcwd : k.cwd ≠ noAddr := ne_noAddr_of_lt (lt_of_live h.fsck.cwd.live)
  obtain ⟨e, hp, hcd⟩ := cd_enters h hname.1 hname.2 hzero
  have hup : (cd (cd k (cstr "x")).2 [dot, dot]).1 = 0 := by
    have hrun : Running own l (cd k (cstr "x")).2 := h.cd hok
    have hroot := (h.fsck.disk.tree.names _ _ hp).2
    rw [hcd] at hrun hcount ⊢
    rw [cd_up hrun]
    dsimp only at hcount ⊢
    rw [hcount, if_neg (by decide), if_neg hroot]
    split <;> rfl
  have heach : cdEach k [cstr "x", [dot, dot]] = some (cd (cd k (cstr "x")).2 [dot, dot]).2 := by
    rw [cdEach, if_pos hzero, cdEach, if_pos hup, cdEach]
  have hjoined := cd_joined k hcwd [cstr "x", [dot, dot]]
  rw [heach] at hjoined
  exact ⟨k, _, hcwd, heach, hjoined⟩

theorem cd_there_and_back_new : ∃ events : List MachineEvent, cdOk (run eventStep (wiped blankKernel) events) (cstr "x") ∧
    let k := run eventStep (wiped blankKernel) events
    let D := (cd k (cstr "x")).2.cwd
    (cd (cd k (cstr "x")).2 [dot, dot]).2 = k ↔
      (shape k.vol.disk).count D ≠ 16 ∧ ((shape k.vol.disk).entry D 0).second ≠ dot := by
  have hname : nameOk (cstr "x") ∧ slash ∉ cstr "x" := by
    unfold nameOk
    decide
  obtain ⟨hevents, hok, hzero, -⟩ := (wiped_seeded ready_blankKernel).enter rfl (wiped_idle ready_blankKernel) rfl
  exact ⟨_, hok, cd_there_and_back blankKernel ready_blankKernel _ hevents (cstr "x") hname.1 hname.2 hok hzero⟩

end ArmKernel.Core
