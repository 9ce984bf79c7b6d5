import ArmKernel.Core.Descriptors
import ArmKernel.Core.ParentLinks
import ArmKernel.Core.PathSafety

/-! The whole machine on one disk. Any process makes any call, interrupts come
in between, and the power goes off and on again. Memory is lost then: the
processes, the working directory, and the open files with the sizes that they
have grown to and that no `close` has written back. -/
namespace ArmKernel.Core

open Lib Lib.Bytes Lib.Run Fs SuperBlock

inductive MachineEvent where
  | svc (c : Svc)
  | reset (fs : SuperBlock) (stkBlk : Block) (stkIc : ICommon)

/-- The disk is found as it was left, and memory in any state. -/
def powerCycle (k : Kernel) (fs : SuperBlock) (stkBlk : Block) (stkIc : ICommon) : Kernel :=
  boot { k.vol with fs := fs, trace := [], stkBlk := stkBlk, stkIc := stkIc } k.link

/-- Where `scheduler` looks for a process for ever, the kernel is left as it
was when it started to. -/
def eventStep (k : Kernel) : MachineEvent → Kernel
  | .svc c =>
    match svcBody k c with
    | (k, true) => (scheduler k).getD k
    | (k, false) => k
  | .reset fs stkBlk stkIc => powerCycle k fs stkBlk stkIc

/-- Paths lead through directories to files, names are in order, files stay
below the indirect range, regular files are moved to other directories, the
disk is formatted from its root when no file is open, nothing is copied, and no
allocation has failed when a call returns that makes some. -/
def fsEventOk (k : Kernel) : FsCall → Prop
  | .write fd data n => (writeEnd k fd n).toNat < 11 * 512 ∧ ¬Failed (fwrite k fd data n).2.vol
  | .wipe => (∀ s, ¬Active k s) ∧ k.cwd = rootDir
  | .open path oflag => openOk k.vol path ∧ ¬Failed (openFile k path oflag).2.vol
  | .mkdir name => nameOk name ∧ ¬Failed (mkdir k name).2.vol
  | .cd path => cdOk k path
  | .mv name path => mvOk k name path ∧ ¬Failed (mv k name path).2.vol
  | .cp _ _ => False
  | .mqUnlink m => m ≠ 32
  | _ => True

def eventOk (k : Kernel) : MachineEvent → Prop
  | .svc (.fs c) => fsEventOk k c
  | .svc (.trap (.exec path)) => pathToIno k.vol path rootDir ≠ noAddr → openOk k.vol (strtokCut path)
  | .svc (.trap (.kill pid _)) => pid ≠ 8
  | _ => True

/-- Entry `e` of the working directory is the one that `remove` takes. -/
def Takes (k : Kernel) (name : CStr) (e : Nat) : Prop := Removable k name e ∧ ∀ j < e, ¬Removable k name j

structure Running (own : Owners) (l : List UInt32) (k : Kernel) : Prop where
  fsck : Fsck own l k
  tables : Tables k
  reach : ∀ i, (shape k.vol.disk).Live i → (shape k.vol.disk).Reach i

def RunningInv (k : Kernel) : Prop := ∃ own l, Running own l k

section

variable {own own' : Owners} {l l' : List UInt32} {k k' k₁ : Kernel}

theorem Running.linked (h : Running own l k) : Linked own l k :=
  ⟨h.fsck.disk, h.reach, h.fsck.small, h.fsck.cwd⟩

/-! Processes, channels and the scheduler do not reach the disk. -/

structure SameFiles (k k' : Kernel) : Prop where
  tables : SameTables k k'
  vol : k'.vol = k.vol
  cwd : k'.cwd = k.cwd

theorem SameFiles.refl (k : Kernel) : SameFiles k k := ⟨.refl k, rfl, rfl⟩

theorem SameFiles.trans (h : SameFiles k k₁) (h' : SameFiles k₁ k') : SameFiles k k' :=
  ⟨h.tables.trans h'.tables, h'.vol.trans h.vol, h'.cwd.trans h.cwd⟩

theorem sameFiles_setMq (k : Kernel) (m : Fin 32) (x : Mqueue) : SameFiles k (setMq k m x) :=
  ⟨sameTables_setMq k m x, rfl, rfl⟩

theorem sameFiles_setGpr0 (k : Kernel) (x : UInt32) : SameFiles k (setGpr0 k x) :=
  ⟨⟨rfl, rfl, fun _ => rfl⟩, rfl, rfl⟩

theorem sameFiles_kill (k : Kernel) (pid : Int) (sig : Sig) : SameFiles k (kill k pid sig) := by
  have ht := sameTables_kill k pid sig
  obtain ⟨pcb, rq, n, he, -⟩ := kill_eq k pid sig
  rw [he] at ht ⊢
  exact ⟨ht, rfl, rfl⟩

theorem sameFiles_killSig (k : Kernel) (pid : Int) (sig : Option Sig) : SameFiles k (killSig k pid sig) := by
  cases sig with
  | none => exact .refl k
  | some sig => exact sameFiles_kill k pid sig

theorem sameFiles_setPcb (k : Kernel) (p : Fin 8) {x : Pcb} (hx : x.fd = (k.pcb p).fd) :
    SameFiles k (k.setPcb p x) := by
  refine ⟨⟨rfl, rfl, fun q => ?_⟩, rfl, rfl⟩
  change (Function.update k.pcb p x q).fd = (k.pcb q).fd
  by_cases hq : q = p
  · subst hq
    rw [Function.update_self, hx]
  · rw [Function.update_of_ne hq]

theorem sameFiles_rqAdd (k : Kernel) (p : Fin 8) : SameFiles k (rqAdd k p) := by
  unfold rqAdd
  split <;> exact ⟨⟨rfl, rfl, fun _ => rfl⟩, rfl, rfl⟩

theorem sameFiles_fork (k : Kernel) : SameFiles k (fork k).2 := by
  obtain ⟨-, he⟩ | ⟨p, x, -, -, -, hfd, he, -⟩ := pcb_fork k
  · rw [he]
    exact .refl k
  · rw [he]
    exact (sameFiles_setPcb k p hfd).trans (sameFiles_rqAdd _ p)

theorem sameFiles_mqOpen (k : Kernel) (name : Int) : SameFiles k (mqOpen k name).2 := by
  obtain ⟨mq', he⟩ := mqOpen_eq k name
  rw [he]
  exact ⟨⟨rfl, rfl, fun _ => rfl⟩, rfl, rfl⟩

theorem sameFiles_mqSend (k : Kernel) (m : Fin 32) (msg : List UInt8) : SameFiles k (mqSend k m msg).2 := by
  have hwait := (sameFiles_setMq k m { k.mq m with msgLspid := k.self.pid }).trans
    (sameFiles_kill _ (setMq k m { k.mq m with msgLspid := k.self.pid }).self.pid .sigwait)
  unfold mqSend
  dsimp only
  split
  · split
    · apply hwait.trans
      apply (sameFiles_setMq _ _ _).trans
      apply (sameFiles_kill _ _ _).trans
      apply sameFiles_setMq
    · exact hwait.trans (sameFiles_setMq _ _ _)
  · exact hwait

theorem sameFiles_mqReceive (k : Kernel) (m : Fin 32) (len : Nat) : SameFiles k (mqReceive k m len).2.2 := by
  unfold mqReceive
  dsimp only
  split
  · apply (sameFiles_setMq _ _ _).trans
    apply (sameFiles_setMq _ _ _).trans
    apply sameFiles_kill
  · apply (sameFiles_setMq _ _ _).trans
    apply (sameFiles_setMq _ _ _).trans
    apply sameFiles_kill

theorem sameFiles_mqUnlink (k : Kernel) (m : Int) : SameFiles k (mqUnlink k m).2 := by
  unfold mqUnlink
  split
  · split
    · exact sameFiles_setMq k _ _
    · exact .refl k
  · exact .refl k

theorem sameFiles_dispatch (k : Kernel) (p : Fin 8) : SameFiles k (dispatch k p) := by
  refine ⟨sameTables_dispatch k p, ?_, ?_⟩
  all_goals
    unfold dispatch
    dsimp only
    split <;> split <;> (try split) <;> rfl

theorem sameFiles_scheduler (hk : scheduler k = some k') : SameFiles k k' := by
  unfold scheduler rqRotate at hk
  obtain ⟨k₁, hr, rfl⟩ := Option.map_eq_some_iff.mp hk
  have h₁ : SameFiles k k₁ := by
    rw [rotateLoop_eq hr]
    exact ⟨⟨rfl, rfl, fun _ => rfl⟩, rfl, rfl⟩
  split
  · exact h₁.trans (sameFiles_dispatch k₁ _)
  · exact h₁

/-! The calls on files. -/

theorem Running.keep (h : Running own l k) (ht : Tables k') (hvol : k'.vol = k.vol) (hcwd : k'.cwd = k.cwd)
    (hai : k'.ai = k.ai) : Running own l k' := by
  refine ⟨h.fsck.setAi hvol hcwd fun s hs => ?_, ht, ?_⟩
  · rw [Active, hai] at hs
    rw [hai]
    exact h.fsck.loaded s hs
  · rw [hvol]
    exact h.reach

theorem Running.sameFiles (h : Running own l k) (hs : SameFiles k k') : Running own l k' := by
  refine h.keep (h.tables.of_same (fun s => ?_) (fun o => ?_) (fun o _ => ?_) fun p i o ho => ?_) hs.vol hs.cwd
    hs.tables.ai
  · rw [hs.tables.ai]
    exact .refl _
  · rw [inptr, hs.tables.of, inptr]
  · rw [hs.tables.of]
  · rwa [hs.tables.fd] at ho

theorem reach_of_same {S S' : Shape} (h : S.Same S') {i : UInt32} (hi : S.Reach i) : S'.Reach i := by
  induction hi with
  | root => exact .root
  | @entry D j hD hp ih =>
    rw [← h.entry D j hp.dir hp.lt]
    exact .entry ih (h.proper.mpr hp)

theorem Running.same (h : Running own l k) (hs : (shape k.vol.disk).Same (shape k'.vol.disk)) :
    ∀ i, (shape k'.vol.disk).Live i → (shape k'.vol.disk).Reach i :=
  fun i hi => reach_of_same hs (h.reach i (hs.live.mp hi))

theorem Running.fread (h : Running own l k) (fd : Int) (n : UInt32) : Running own l (fread k fd n).2.2 := by
  have ht := h.tables.fread fd n
  obtain ⟨of', he⟩ := fread_kernel k fd n
  rw [he] at ht ⊢
  exact h.keep ht rfl rfl rfl

theorem Running.lseek (h : Running own l k) (fd : Int) (offset : UInt32) (whence : Option Whence) :
    Running own l (lseek k fd offset whence).2 := by
  have ht := h.tables.lseek fd offset whence
  obtain ⟨of', he⟩ := lseek_kernel k fd offset whence
  rw [he] at ht ⊢
  exact h.keep ht rfl rfl rfl

theorem Running.close (h : Running own l k) (fd : Int) : Running own l (close k fd).2 :=
  ⟨h.fsck.close h.tables fd, h.tables.close fd, h.same (h.fsck.same_close h.tables fd)⟩

theorem Running.fwrite (h : Running own l k) {fd : Int} (data : Nat → UInt8) {n : UInt32}
    (hend : (writeEnd k fd n).toNat < 11 * 512)
    (hroom : ¬Failed (fwrite k fd data n).2.vol ∨ (writeEnd k fd n).toNat < 512) :
    RunningInv (fwrite k fd data n).2 := by
  obtain ⟨own', l', hf, -, hsame⟩ := h.fsck.fwrite h.tables fd data n hend hroom
  exact ⟨own', l', hf, h.tables.fwrite fd data n, h.same hsame⟩

theorem Running.openFile (h : Running own l k) {path : CStr} (oflag : OFlag) (hok : openOk k.vol path)
    (hfail : oflag = .ocreat → ¬Failed (openFile k path oflag).2.vol) : RunningInv (openFile k path oflag).2 := by
  obtain ⟨⟨own', l', hf, -⟩, ht⟩ := h.fsck.openFile h.tables hok.opensFile oflag fun ho => .inl (hfail ho)
  refine ⟨own', l', hf, ht, ?_⟩
  cases oflag with
  | oexist =>
    rw [openFile_oexist_vol]
    exact h.reach
  | ocreat =>
    obtain ⟨_, _, hl⟩ := h.linked.openFile hok.2.1 (fun t htok => hok.1 t (List.mem_of_getLast? htok)) (hfail rfl)
    exact hl.reach

theorem Running.mkdir (h : Running own l k) {name : CStr} (hname : nameOk name)
    (hfail : ¬Failed (mkdir k name).2.vol) : RunningInv (mkdir k name).2 := by
  obtain ⟨own', l', hf⟩ := h.fsck.mkdir hname hfail
  obtain ⟨_, _, hl⟩ := h.linked.mkdir hname hfail
  refine ⟨own', l', hf, ?_, hl.reach⟩
  obtain ⟨v, he⟩ := mkdir_kernel k name
  rw [he]
  exact h.tables.setVol v

theorem Running.cd (h : Running own l k) {path : CStr} (hok : cdOk k path) : Running own l (cd k path).2 := by
  have hf := h.fsck.cd hok
  have hl := h.linked.cd hok
  obtain ⟨ino, he⟩ := cd_kernel k path
  rw [he] at hf hl ⊢
  exact ⟨hf, h.tables.setVolume k.vol ino, hl.reach⟩

theorem Running.unlink (h : Running own l k) (name : CStr) : RunningInv (unlink k name).2 := by
  obtain ⟨own', l', hf⟩ := h.fsck.unlink name
  obtain ⟨_, _, hl⟩ := h.linked.unlink name
  exact ⟨own', l', hf, h.tables.unlink name, hl.reach⟩

theorem Running.mv (h : Running own l k) {name path : CStr} (hok : mvOk k name path)
    (hfail : ¬Failed (mv k name path).2.vol) : RunningInv (mv k name path).2 := by
  obtain ⟨_, _, hl⟩ := h.linked.mv hok hfail
  have hreach := hl.reach
  have hset : ∀ v, Tables { k with vol := v } := h.tables.setVol
  rcases mv_cases h.fsck.disk h.fsck.cwd (hok.imp_right And.left) with he | he | ⟨⟨hdot, hdest, hq⟩, e, ht, he⟩
  · rw [he]
    exact ⟨own, l, h⟩
  · rw [he] at hreach ⊢
    exact ⟨own, l, h.fsck.updateSb, hset _, hreach⟩
  · rw [he] at hfail hreach ⊢
    obtain ⟨own', l', c, rest, hc, hg, hm, ha⟩ := ht.appended_mv h.fsck.disk hok hdot hdest hq hfail
    exact ⟨own', l', (h.fsck.move ht hq hc hg hm ha).updateSb, hset _, hreach⟩

theorem Seeded.running {n : Nat} (h : Seeded n k) : RunningInv k := by
  obtain ⟨own, l, hf, -⟩ := h.fsck
  obtain ⟨_, _, hl⟩ := h.linked
  exact ⟨own, l, hf, h.tables, hl.reach⟩

theorem Running.wipe (h : Running own l k) (hidle : ∀ s, ¬Active k s) (hcwd : k.cwd = rootDir) :
    RunningInv (wipe k) :=
  (format_seeded (h.tables.idle_of_inactive hidle) hcwd h.fsck.disk.good.acct.formatted.num).createObjFiles.running

/-! `exec` reads a file and closes it again. -/

theorem Running.getProgramEntry (h : Running own l k) {path : CStr} (entry priority : UInt32)
    (hok : pathToIno k.vol path rootDir ≠ noAddr → openOk k.vol (strtokCut path)) :
    RunningInv (getProgramEntry k path entry priority).2.2.2 := by
  unfold Core.getProgramEntry
  split
  · next hino =>
    obtain ⟨own', l', hopen⟩ := h.openFile .oexist (hok hino) fun ho => nomatch ho
    dsimp only
    split
    · exact ⟨own', l', ((hopen.fread _ _).fread _ _).close _⟩
    · exact ⟨own', l', hopen⟩
  · exact ⟨own, l, h⟩

theorem Running.exec (h : Running own l k) {path : CStr}
    (hok : pathToIno k.vol path rootDir ≠ noAddr → openOk k.vol (strtokCut path)) :
    RunningInv (exec k path).2 := by
  obtain ⟨own', l', hentry⟩ := h.getProgramEntry (word k.vol.stkBlk 0) (word k.vol.stkBlk 1) hok
  unfold Core.exec
  dsimp only
  split
  · exact ⟨own', l', hentry⟩
  · refine ⟨own', l', hentry.keep ((hentry.tables.setPcb _ _ fun i o ho => ?_).of_same (fun _ => .refl _)
      (fun _ => rfl) (fun _ _ => rfl) fun _ _ _ hfd => hfd) rfl rfl rfl⟩
    simp [Pcb.zero] at ho

/-! Events. -/

theorem Running.trapBody (h : Running own l k) {c : Trap} (hok : eventOk k (.svc (.trap c))) :
    RunningInv (trapBody k c).1 := by
  have hsame : ∀ {k' : Kernel}, SameFiles k k' → RunningInv k' := fun hs => ⟨own, l, h.sameFiles hs⟩
  cases c with
  | yield => exact hsame (.refl k)
  | fork => exact hsame ((sameFiles_fork k).trans (sameFiles_setGpr0 _ _))
  | exec path =>
    obtain ⟨own', l', he⟩ := h.exec hok
    exact ⟨own', l', he.sameFiles (sameFiles_setGpr0 _ _)⟩
  | kill pid sig => exact hsame (sameFiles_killSig k pid sig)
  | raise sig => exact hsame (sameFiles_killSig k k.self.pid sig)
  | mqOpen name => exact hsame ((sameFiles_mqOpen k name).trans (sameFiles_setGpr0 _ _))
  | send m msg => exact hsame ((sameFiles_mqSend k m msg).trans (sameFiles_setGpr0 _ _))
  | receive m len => exact hsame ((sameFiles_mqReceive k m len).trans (sameFiles_setGpr0 _ _))
  | timer => exact hsame (.refl k)
  | uart =>
    simp only [Core.trapBody]
    split
    · exact hsame (sameFiles_setPcb k 0 rfl)
    · exact hsame (.refl k)

theorem fsBody_inv {c : FsCall} (h : RunningInv (fsCall k c).2.2) : RunningInv (fsBody k c) := by
  unfold fsBody
  rcases hc : fsCall k c with ⟨r, x, k'⟩
  rw [hc] at h
  cases r with
  | none => exact h
  | some r =>
    obtain ⟨own, l, h⟩ := h
    exact ⟨own, l, h.sameFiles (sameFiles_setGpr0 k' r)⟩

theorem Running.fsBody (h : Running own l k) {c : FsCall} (hok : fsEventOk k c) : RunningInv (fsBody k c) := by
  apply fsBody_inv
  cases c with
  | console n => exact ⟨own, l, h⟩
  | write fd data n => exact h.fwrite data hok.1 (.inl hok.2)
  | read fd n => exact ⟨own, l, h.fread fd n⟩
  | lseek fd offset whence => exact ⟨own, l, h.lseek fd offset whence⟩
  | wipe => exact h.wipe hok.1 hok.2
  | «open» path oflag => exact h.openFile oflag hok.1 fun _ => hok.2
  | close fd => exact ⟨own, l, h.close fd⟩
  | mkdir name => exact h.mkdir hok.1 hok.2
  | cd path => exact ⟨own, l, h.cd hok⟩
  | unlink name => exact h.unlink name
  | mv name path => exact h.mv hok.1 hok.2
  | cp src dest => exact hok.elim
  | tell fd => exact ⟨own, l, h⟩
  | mqUnlink m => exact ⟨own, l, h.sameFiles (sameFiles_mqUnlink k m)⟩
  | other => exact ⟨own, l, h⟩

theorem idle_powerCycle (k : Kernel) (fs : SuperBlock) (stkBlk : Block) (stkIc : ICommon) :
    Idle (powerCycle k fs stkBlk stkIc) := by
  refine ⟨fun s => ⟨rfl, rfl⟩, fun o => rfl, fun p i => ?_⟩
  change ((Function.update (fun _ => Pcb.zero) 0 _ : Fin 8 → Pcb) p).fd i = none
  by_cases hp : p = 0
  · subst hp
    rw [Function.update_self]
    rfl
  · rw [Function.update_of_ne hp]
    rfl

theorem Running.powerCycle (h : Running own l k) (fs : SuperBlock) (stkBlk : Block) (stkIc : ICommon) :
    Running own l (powerCycle k fs stkBlk stkIc) := by
  have hvol : (Core.powerCycle k fs stkBlk stkIc).vol =
      { k.vol with trace := [], stkBlk := stkBlk, stkIc := stkIc } := by
    change mount { k.vol with fs := fs, trace := [], stkBlk := stkBlk, stkIc := stkIc } = _
    have hnum := h.fsck.disk.good.acct.formatted.num
    rw [mount, diskRd_lt _ _ (by dsimp only; rw [hnum]; decide)]
    dsimp only
    rw [h.fsck.disk.good.synced]
  have hidle := idle_powerCycle k fs stkBlk stkIc
  have hdisk := (h.fsck.disk.setTrace []).setStack stkBlk stkIc
  rw [← hvol] at hdisk
  refine ⟨⟨hdisk, ?_, fun s hs => absurd (hidle.ai s).2 hs, hdisk.tree.root⟩, hidle.tables, ?_⟩
  · rw [hvol]
    exact h.fsck.small
  · rw [hvol]
    exact h.reach

theorem event_step (k : Kernel) (c : MachineEvent) (h : RunningInv k) (hc : eventOk k c) :
    RunningInv (eventStep k c) := by
  obtain ⟨own, l, h⟩ := h
  cases c with
  | svc c =>
    have hbody : RunningInv (svcBody k c).1 := by
      cases c with
      | trap c => exact h.trapBody hc
      | fs c => exact h.fsBody hc
    simp only [eventStep]
    rcases hb : svcBody k c with ⟨k', b⟩
    rw [hb] at hbody
    obtain ⟨own', l', h'⟩ := hbody
    cases b with
    | false => exact ⟨own', l', h'⟩
    | true =>
      dsimp only
      cases hk : scheduler k' with
      | none => exact ⟨own', l', h'⟩
      | some k'' => exact ⟨own', l', h'.sameFiles (sameFiles_scheduler hk)⟩
  | reset fs stkBlk stkIc => exact ⟨own, l, h.powerCycle fs stkBlk stkIc⟩

end

/-! The check. -/

/-- What a file system check finds: the superblock in memory is that on disk; no
free block is in use, and none is in use twice; and everything can be reached
from the root of a tree whose directories know their parents. -/
structure CleanDisk (k : Kernel) : Prop where
  synced : k.vol.disk 1 = k.vol.fs
  free : ∃ l, FreeList k.vol.disk k.vol.fs l ∧ ∀ ino ic, InUse k ino ic →
    ∀ p, Place.In (blockCount ic) p → placeAddr k.vol.disk ic p ∉ l
  distinct : ∀ ino ic ino' ic', InUse k ino ic → InUse k ino' ic' → ∀ p q, Place.In (blockCount ic) p →
    Place.In (blockCount ic') q → placeAddr k.vol.disk ic p = placeAddr k.vol.disk ic' q → ino = ino'
  rooted : Rooted (shape k.vol.disk)

theorem Running.cleanDisk {own : Owners} {l : List UInt32} {k : Kernel} (h : Running own l k) : CleanDisk k := by
  have hacct := h.fsck.disk.good.acct
  refine ⟨h.fsck.disk.good.synced, ⟨l, hacct.free, fun ino ic hu p hp => ?_⟩,
    fun ino ic ino' ic' hu hu' p q hp hq he => ?_, h.fsck.disk.tree, h.reach⟩
  · obtain ⟨r, hr⟩ := (h.fsck.maps_inUse hu).owns hp
    exact (hacct.owned _ _ hr).2
  · obtain ⟨r, hr⟩ := (h.fsck.maps_inUse hu).owns hp
    obtain ⟨r', hr'⟩ := (h.fsck.maps_inUse hu').owns hq
    rw [he, hr'] at hr
    simp only [Option.some.injEq, Prod.mk.injEq] at hr
    exact hr.1.symm

/-- **The disk stays consistent through every run of the machine**, whatever
calls its processes make and however often the power fails between them. -/
theorem power_cycles_clean (k₀ : Kernel) (h₀ : Ready k₀) (events : List MachineEvent)
    (hc : Along eventStep eventOk (wiped k₀) events) : CleanDisk (run eventStep (wiped k₀) events) := by
  obtain ⟨own, l, h⟩ := invariant event_step (wiped_seeded h₀).running hc
  exact h.cleanDisk

/-- A file is open and a child is there when the power fails. -/
def interruptedEvents : List MachineEvent :=
  [.svc (.fs (.open (cstr "P0") .oexist)), .svc (.trap .fork), .reset fullVol.fs fullVol.stkBlk fullVol.stkIc,
    .svc (.trap .timer)]

theorem interruptedEvents_ok {n : Nat} {k : Kernel} (h : Seeded n k) (htrace : k.vol.trace = []) :
    Along eventStep eventOk k interruptedEvents := by
  have hname : nameOk (cstr "P0") := by
    unfold nameOk
    decide
  refine ⟨⟨h.openOk hname (by decide), ?_⟩, trivial, trivial, trivial, trivial⟩
  rw [openFile_oexist_vol]
  exact not_failed_of_trace htrace

theorem power_cycles_clean_open : Ready blankKernel ∧
    CleanDisk (run eventStep (wiped blankKernel) interruptedEvents) :=
  ⟨ready_blankKernel, power_cycles_clean blankKernel ready_blankKernel interruptedEvents
    (interruptedEvents_ok (wiped_seeded ready_blankKernel) rfl)⟩

end ArmKernel.Core
