import ArmKernel.Core.PowerCycles

/-! Runs in which no file is created, written or deleted. They still write to
the disk, since the last `close` of a file stores its inode; but what is stored
is what was read. Nothing is assumed about the disk, which may hold anything. -/
namespace ArmKernel.Core

open Lib Lib.Bytes Lib.Run Fs SuperBlock

def readOnlyCall : FsCall → Bool
  | .write _ _ _ | .wipe | .open _ .ocreat | .mkdir _ | .unlink _ | .mv _ _ | .cp _ _ => false
  | .mqUnlink m => m != 32
  | _ => true

def readOnly : MachineEvent → Bool
  | .svc (.fs c) => readOnlyCall c
  | .svc (.trap (.kill pid _)) => pid != 8
  | _ => true

def OnDisk (v : Vol) (x : INode) : Prop :=
  let a := fsIblkno v.fs + UInt32.ofNat (x.iNumber.toNat / 8)
  a.toNat < v.num → getIc (v.disk a) (x.iNumber.toNat % 8) = x.iIc

/-- The slot holds an inode that an open file or a later `open` may find. -/
def Occupied (k : Kernel) (s : Fin 128) : Prop := Active k s ∨ ∃ o, inptr k o = some s

structure Unwritten (d : Image) (k : Kernel) : Prop where
  disk : k.vol.disk = d
  counted : Counted k
  stored : ∀ s, Occupied k s → OnDisk k.vol (k.ai s)

section

variable {d : Image} {k k' : Kernel} {v : Vol} {x : INode}

theorem onDisk_readInode (v : Vol) (x : INode) (ino : UInt32) : OnDisk v (readInode v x ino) := by
  intro ha
  simp only [readInode] at ha ⊢
  rw [diskRd, if_pos ha]

theorem OnDisk.writeInode (h : OnDisk v x) : ∃ t, writeInode v x = { v with trace := t } := by
  unfold OnDisk at h
  unfold Fs.writeInode diskRd diskWr
  dsimp only at h ⊢
  by_cases ha : (fsIblkno v.fs + UInt32.ofNat (x.iNumber.toNat / 8)).toNat < v.num
  · rw [if_pos ha, if_pos ha, overlay_all _ _ le_rfl, ← h ha, setIc_getIc, Function.update_eq_self]
    exact ⟨_, rfl⟩
  · rw [if_neg ha]
    exact ⟨_, rfl⟩

theorem Unwritten.keep (h : Unwritten d k) {t : List Event} (hvol : k'.vol = { k.vol with trace := t })
    (hcounted : Counted k') (hslots : ∀ s, Occupied k' s → Occupied k s ∧
      (k'.ai s).iNumber = (k.ai s).iNumber ∧ (k'.ai s).iIc = (k.ai s).iIc) : Unwritten d k' := by
  refine ⟨by rw [hvol]; exact h.disk, hcounted, fun s hs => ?_⟩
  obtain ⟨hocc, hnum, hic⟩ := hslots s hs
  have hstored := h.stored s hocc
  unfold OnDisk at hstored ⊢
  rw [hvol, hnum, hic]
  exact hstored

theorem Unwritten.sameFiles (h : Unwritten d k) (hs : SameFiles k k') : Unwritten d k' := by
  have hin : ∀ o, inptr k' o = inptr k o := fun o => by rw [inptr, hs.tables.of, inptr]
  refine h.keep (t := k.vol.trace) hs.vol (h.counted.of_same (fun s => by rw [hs.tables.ai]) hin fun p i o ho => ?_)
    fun s hocc => ?_
  · rwa [hs.tables.fd] at ho
  · rw [hs.tables.ai]
    refine ⟨hocc.imp (fun ha => ?_) (Exists.imp fun o ho => (hin o).symm.trans ho), rfl, rfl⟩
    rwa [Active, hs.tables.ai] at ha

theorem Unwritten.setHead (h : Unwritten d k) (o : Fin 128) (head : UInt32) :
    Unwritten d { k with of := Function.update k.of o { k.of o with oHead := head } } := by
  have hin : ∀ o', inptr { k with of := Function.update k.of o { k.of o with oHead := head } } o' = inptr k o' := by
    intro o'
    by_cases hoo : o' = o
    · subst hoo
      simp only [inptr, Function.update_self]
    · simp only [inptr, Function.update_of_ne hoo]
  exact h.keep (t := k.vol.trace) rfl (h.counted.of_same (fun _ => rfl) hin fun _ _ _ ho => ho)
    fun s hocc => ⟨hocc.imp id (Exists.imp fun o ho => (hin o).symm.trans ho), rfl, rfl⟩

/-! `open`. -/

theorem Unwritten.getAIT (h : Unwritten d k) (ino : UInt32) : Unwritten d (getAIT k ino).2 ∧
    ∀ s, (getAIT k ino).1 = some s → OnDisk (getAIT k ino).2.vol ((getAIT k ino).2.ai s) := by
  rcases getAIT_cases k ino with ⟨he, -⟩ | ⟨s, he, -, hact⟩ | ⟨s, he, -⟩
  · rw [he]
    exact ⟨h, fun s hs => nomatch hs⟩
  · rw [he]
    refine ⟨h, fun t ht => ?_⟩
    cases ht
    exact h.stored s (.inl hact)
  · rw [he]
    have hnew : OnDisk k.vol (readInode k.vol (k.ai s) ino) := onDisk_readInode k.vol (k.ai s) ino
    refine ⟨⟨h.disk, h.counted.load s ino, fun t ht => ?_⟩, fun t ht => ?_⟩
    · dsimp only
      by_cases hts : t = s
      · subst hts
        rw [Function.update_self]
        exact hnew
      · rw [Function.update_of_ne hts]
        refine h.stored t (ht.imp (fun ha => ?_) id)
        simpa [Active, hts] using ha
    · cases ht
      dsimp only
      rw [Function.update_self]
      exact hnew

theorem Unwritten.linkFile (h : Unwritten d k) {i : Fin 16} {o s : Fin 128} (ho : inptr k o = none)
    (hs : OnDisk k.vol (k.ai s)) : Unwritten d (linkFile k i o s) := by
  have hin := inptr_linkFile k i o s
  refine ⟨h.disk, h.counted.linkFile ho s, fun t ht => ?_⟩
  by_cases hts : t = s
  · subst hts
    simp only [Core.linkFile, Kernel.setPcb, Function.update_self]
    exact hs
  · simp only [Core.linkFile, Kernel.setPcb, Function.update_of_ne hts]
    refine h.stored t (ht.imp (active_linkFile k i o s t).1.mp ?_)
    rintro ⟨o', ho'⟩
    rw [hin] at ho'
    by_cases hoo : o' = o
    · subst hoo
      rw [Function.update_self] at ho'
      exact absurd (Option.some.inj ho').symm hts
    · rw [Function.update_of_ne hoo] at ho'
      exact ⟨o', ho'⟩

theorem Unwritten.openFile (h : Unwritten d k) (path : CStr) : Unwritten d (openFile k path .oexist).2 := by
  obtain ⟨hait, hstored⟩ := h.getAIT (pathToIno k.vol path rootDir)
  rcases openFile_cases k path .oexist rfl rfl with ⟨-, he⟩ | ⟨i, -, -, he⟩ | ⟨i, -, -, he⟩ |
    ⟨i, s, o, -, -, hs, ho, he⟩
  · rw [he]
    exact h
  · rw [he]
    exact h
  · rw [he]
    exact hait
  · rw [he]
    exact hait.linkFile (getOFT_some ho) (hstored s hs)

/-! `close`. -/

theorem Unwritten.unlinkFile (h : Unwritten d k) {i : Fin 16} {o s : Fin 128}
    (hi : (k.pcb k.current).fd i = some o) (hs : inptr k o = some s) : Unwritten d (unlinkFile k i o s) := by
  have hcounted : Counted (Core.unlinkFile k i o s) := h.counted.unlinkFile hi hs
  have hvol : ∃ t, (Core.unlinkFile k i o s).vol = { k.vol with trace := t } := by
    rw [vol_unlinkFile]
    split
    · exact OnDisk.writeInode (x := { k.ai s with iLinks := (k.ai s).iLinks - 1 }) (h.stored s (.inr ⟨o, hs⟩))
    · exact ⟨k.vol.trace, rfl⟩
  obtain ⟨t, hvol⟩ := hvol
  refine h.keep hvol hcounted fun u hu => ?_
  by_cases hus : u = s
  · subst hus
    have hmore : (k.ai u).iLinks - 1 ≠ 0 := by
      intro hlast
      have hlinks := hcounted.links u
      rw [(ai_unlinkFile_self k i o u).2.1, hlast] at hlinks
      rcases hu with hact | ⟨o', ho'⟩
      · exact not_active_unlinkFile hlast i o hact
      · exact refs_eq_zero.mp hlinks.symm o' ho'
    rw [ai_unlinkFile_more hmore i o]
    exact ⟨.inr ⟨o, hs⟩, rfl, rfl⟩
  · have hai := ai_unlinkFile k i o hus
    rw [hai]
    refine ⟨hu.imp (fun ha => ?_) ?_, rfl, rfl⟩
    · rwa [Active, hai] at ha
    · rintro ⟨o', ho'⟩
      rw [inptr_unlinkFile] at ho'
      by_cases hoo : o' = o
      · subst hoo
        rw [Function.update_self] at ho'
        cases ho'
      · rw [Function.update_of_ne hoo] at ho'
        exact ⟨o', ho'⟩

theorem Unwritten.close (h : Unwritten d k) (fd : Int) : Unwritten d (close k fd).2 := by
  cases hfd : fdEntry k fd with
  | none =>
    simp only [Core.close, hfd]
    exact h
  | some e =>
    obtain ⟨i, o⟩ := e
    have hi := (fdEntry_some hfd).2
    obtain ⟨s, hs⟩ := Option.ne_none_iff_exists'.mp (h.counted.opened _ _ _ hi)
    rw [close_eq hfd hs]
    exact h.unlinkFile hi hs

/-! The other calls. -/

theorem Unwritten.fread (h : Unwritten d k) (fd : Int) (n : UInt32) : Unwritten d (fread k fd n).2.2 := by
  unfold Core.fread
  split
  · exact h
  · split
    · exact h
    · dsimp only
      split
      · exact h
      · exact h.setHead _ _

theorem Unwritten.lseek (h : Unwritten d k) (fd : Int) (offset : UInt32) (whence : Option Whence) :
    Unwritten d (lseek k fd offset whence).2 := by
  unfold Core.lseek
  split
  · exact h
  · exact h
  · exact h.setHead _ _

theorem Unwritten.cd (h : Unwritten d k) (path : CStr) : Unwritten d (cd k path).2 := by
  obtain ⟨ino, he⟩ := cd_kernel k path
  rw [he]
  exact h.keep (t := k.vol.trace) rfl (h.counted.of_same (fun _ => rfl) (fun _ => rfl) fun _ _ _ ho => ho)
    fun s hs => ⟨hs, rfl, rfl⟩

theorem Unwritten.exec (h : Unwritten d k) (path : CStr) : Unwritten d (exec k path).2 := by
  have hentry : Unwritten d (getProgramEntry k path (word k.vol.stkBlk 0) (word k.vol.stkBlk 1)).2.2.2 := by
    unfold getProgramEntry
    split
    · dsimp only
      split
      · exact (((h.openFile _).fread _ _).fread _ _).close _
      · exact h.openFile _
    · exact h
  unfold Core.exec
  dsimp only
  split
  · exact hentry
  · refine hentry.keep (t := _) rfl (hentry.counted.of_same (fun _ => rfl) (fun _ => rfl) fun p i o ho => ?_)
      fun s hs => ⟨hs, rfl, rfl⟩
    by_cases hp : p = (getProgramEntry k path (word k.vol.stkBlk 0) (word k.vol.stkBlk 1)).2.2.2.current
    · subst hp
      simp [Kernel.setPcb, Pcb.zero] at ho
    · simpa only [Kernel.setPcb, Function.update_of_ne hp] using ho

theorem Unwritten.trapBody (h : Unwritten d k) (c : Trap) : Unwritten d (trapBody k c).1 := by
  cases c with
  | yield => exact h
  | fork => exact h.sameFiles ((sameFiles_fork k).trans (sameFiles_setGpr0 _ _))
  | exec path => exact (h.exec path).sameFiles (sameFiles_setGpr0 _ _)
  | kill pid sig => exact h.sameFiles (sameFiles_killSig k pid sig)
  | raise sig => exact h.sameFiles (sameFiles_killSig k k.self.pid sig)
  | mqOpen name => exact h.sameFiles ((sameFiles_mqOpen k name).trans (sameFiles_setGpr0 _ _))
  | send m msg => exact h.sameFiles ((sameFiles_mqSend k m msg).trans (sameFiles_setGpr0 _ _))
  | receive m len => exact h.sameFiles ((sameFiles_mqReceive k m len).trans (sameFiles_setGpr0 _ _))
  | timer => exact h
  | uart =>
    simp only [Core.trapBody]
    split
    · exact h.sameFiles (sameFiles_setPcb k 0 rfl)
    · exact h

theorem Unwritten.fsBody (h : Unwritten d k) {c : FsCall} (hc : readOnlyCall c = true) : Unwritten d (fsBody k c) := by
  have hcall : Unwritten d (fsCall k c).2.2 := by
    cases c with
    | console n => exact h
    | read fd n => exact h.fread fd n
    | lseek fd offset whence => exact h.lseek fd offset whence
    | «open» path oflag =>
      cases oflag with
      | oexist => exact h.openFile path
      | ocreat => cases hc
    | close fd => exact h.close fd
    | cd path => exact h.cd path
    | tell fd => exact h
    | mqUnlink m => exact h.sameFiles (sameFiles_mqUnlink k m)
    | other => exact h
    | write _ _ _ | wipe | mkdir _ | unlink _ | mv _ _ | cp _ _ => cases hc
  unfold Core.fsBody
  rcases hf : fsCall k c with ⟨r, x, k'⟩
  rw [hf] at hcall
  cases r with
  | none => exact hcall
  | some r => exact hcall.sameFiles (sameFiles_setGpr0 k' r)

theorem Idle.unwritten (h : Idle k) : Unwritten k.vol.disk k := by
  refine ⟨rfl, h.tables.counted, ?_⟩
  rintro s (hact | ⟨o, ho⟩)
  · exact absurd (h.ai s).2 hact
  · rw [inptr, h.of o] at ho
    cases ho

theorem unwritten_step (c : MachineEvent) (hc : readOnly c = true) (h : Unwritten d k) :
    Unwritten d (eventStep k c) := by
  cases c with
  | svc c =>
    have hbody : Unwritten d (svcBody k c).1 := by
      cases c with
      | trap c => exact h.trapBody c
      | fs c => exact h.fsBody hc
    simp only [eventStep]
    rcases hb : svcBody k c with ⟨k', b⟩
    rw [hb] at hbody
    cases b with
    | false => exact hbody
    | true =>
      dsimp only
      cases hk : scheduler k' with
      | none => exact hbody
      | some k'' => exact hbody.sameFiles (sameFiles_scheduler hk)
  | reset fs stkBlk stkIc =>
    have hnew := (idle_powerCycle k fs stkBlk stkIc).unwritten
    rwa [show (powerCycle k fs stkBlk stkIc).vol.disk = k.vol.disk from rfl, h.disk] at hnew

end

/-- **Reading leaves the disk as it is**, whatever the disk holds, whatever the
processes do besides, and however often the power fails. -/
theorem read_only_runs (k : Kernel) (hk : Idle k) (events : List MachineEvent)
    (hro : ∀ c ∈ events, readOnly c = true) : (run eventStep k events).vol.disk = k.vol.disk := by
  have hrun : ∀ k', Unwritten k.vol.disk k' → Unwritten k.vol.disk (run eventStep k' events) := by
    induction events with
    | nil => exact fun _ h => h
    | cons c rest ih =>
      intro k' h
      have hrest := ih fun c' hc' => hro c' (List.mem_cons_of_mem c hc')
      exact hrest _ (unwritten_step c (hro c List.mem_cons_self) h)
  exact (hrun k hk.unwritten).disk

/-- A program is started and a file read on a disk that nobody has formatted. -/
def readingEvents : List MachineEvent :=
  [.svc (.trap .fork), .svc (.trap (.exec (cstr "P0"))), .svc (.fs (.open (cstr "P1") .oexist)),
    .svc (.fs (.read 0 4)), .svc (.fs (.close 0)), .reset fullVol.fs fullVol.stkBlk fullVol.stkIc]

theorem read_only_blank : (run eventStep blankKernel readingEvents).vol.disk = blankKernel.vol.disk :=
  read_only_runs blankKernel ready_blankKernel.idle readingEvents (by decide)

end ArmKernel.Core
