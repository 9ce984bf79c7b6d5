import Mathlib.Data.Fintype.EquivFin
import Mathlib.Data.Fintype.Prod
import Mathlib.Tactic.FinCases
import ArmKernel.Core.SlotReuse

/-! Descriptors and the processes that hold them. The open-file table has an
entry for each descriptor of each process, so it cannot run out while every
used entry belongs to a descriptor; neither `kill` nor `exec` gives entries
back, and `getOFT` counts on it that they are. -/
namespace ArmKernel.Core

open Lib Lib.Bytes Lib.Run Fs

structure SameTables (k k' : Kernel) : Prop where
  ai : k'.ai = k.ai
  of : k'.of = k.of
  fd : ∀ p, (k'.pcb p).fd = (k.pcb p).fd

section

variable {k k' k₁ k₂ : Kernel}

theorem SameTables.refl (k : Kernel) : SameTables k k := ⟨rfl, rfl, fun _ => rfl⟩

theorem SameTables.trans (h : SameTables k k₁) (h' : SameTables k₁ k₂) : SameTables k k₂ :=
  ⟨h'.ai.trans h.ai, h'.of.trans h.of, fun p => (h'.fd p).trans (h.fd p)⟩

theorem graft_own (k : Kernel) : k.graft (fun p => some (k.pcb p).fd) = k := rfl

theorem fd_of_graft {f : Kernel → Kernel} (h : ∀ g k, f (Kernel.graft g k) = (f k).graft g) (k : Kernel)
    (p : Fin 8) : ((f k).pcb p).fd = (k.pcb p).fd := by
  have hk := h (fun p => some (k.pcb p).fd) k
  rw [graft_own] at hk
  rw [hk]
  rfl

/-! Processes, channels and the scheduler. -/

theorem sameTables_setMq (k : Kernel) (m : Fin 32) (x : Mqueue) : SameTables k (setMq k m x) :=
  ⟨rfl, rfl, fun _ => rfl⟩

theorem sameTables_kill (k : Kernel) (pid : Int) (sig : Sig) : SameTables k (kill k pid sig) := by
  obtain ⟨pcb, rq, n, he, hp⟩ := kill_eq k pid sig
  rw [he]
  exact ⟨rfl, rfl, fun p => (hp p).2⟩

theorem sameTables_fork (k : Kernel) : SameTables k (fork k).2 := by
  have hfd := fd_of_graft (f := fun k => (fork k).2) fun g k => by rw [fork_graft]
  obtain ⟨-, he⟩ | ⟨p, x, -, -, -, -, he, -⟩ := pcb_fork k
  · rw [he]
    exact .refl k
  · obtain ⟨hai, hof, -⟩ := rqAdd_tables (k.setPcb p x) p
    refine ⟨?_, ?_, hfd k⟩
    · rw [he]
      exact hai
    · rw [he]
      exact hof

theorem sameTables_mqOpen (k : Kernel) (name : Int) : SameTables k (mqOpen k name).2 := by
  obtain ⟨mq', he⟩ := mqOpen_eq k name
  rw [he]
  exact ⟨rfl, rfl, fun _ => rfl⟩

theorem sameTables_mqSend (k : Kernel) (m : Fin 32) (msg : List UInt8) : SameTables k (mqSend k m msg).2 := by
  have hwait := (sameTables_setMq k m { k.mq m with msgLspid := k.self.pid }).trans
    (sameTables_kill _ (setMq k m { k.mq m with msgLspid := k.self.pid }).self.pid .sigwait)
  unfold mqSend
  dsimp only
  split
  · split
    · apply hwait.trans
      apply (sameTables_setMq _ _ _).trans
      apply (sameTables_kill _ _ _).trans
      apply sameTables_setMq
    · exact hwait.trans (sameTables_setMq _ _ _)
  · exact hwait

theorem sameTables_mqReceive (k : Kernel) (m : Fin 32) (len : Nat) :
    SameTables k (mqReceive k m len).2.2 := by
  unfold mqReceive
  dsimp only
  split
  · apply (sameTables_setMq _ _ _).trans
    apply (sameTables_setMq _ _ _).trans
    apply sameTables_kill
  · apply (sameTables_setMq _ _ _).trans
    apply (sameTables_setMq _ _ _).trans
    apply sameTables_kill

theorem sameTables_dispatch (k : Kernel) (p : Fin 8) : SameTables k (dispatch k p) := by
  have hfd := fd_of_graft (f := (dispatch · p)) (fun g k => dispatch_graft k p) k
  have hreset : (if (k.pcb p).prio = 0 then resetPriorities k else k).ai = k.ai ∧
      (if (k.pcb p).prio = 0 then resetPriorities k else k).of = k.of := by
    split <;> exact ⟨rfl, rfl⟩
  have htables : (dispatch k p).ai = k.ai ∧ (dispatch k p).of = k.of := by
    unfold dispatch
    dsimp only
    generalize (if (k.pcb p).prio = 0 then resetPriorities k else k) = k₁ at hreset
    split
    · exact hreset
    · dsimp only
      split <;> exact hreset
  exact ⟨htables.1, htables.2, hfd⟩

theorem sameTables_scheduler (hk : scheduler k = some k') : SameTables k k' := by
  unfold scheduler rqRotate at hk
  cases hr : rotateLoop 8 k with
  | none =>
    rw [hr] at hk
    cases hk
  | some k₁ =>
    rw [hr, Option.map_some] at hk
    have he := rotateLoop_eq hr
    have h₁ : SameTables k k₁ := by
      rw [he]
      exact ⟨rfl, rfl, fun _ => rfl⟩
    cases hq : k₁.rq 0 with
    | none =>
      rw [hq] at hk
      cases hk
      exact h₁
    | some p =>
      rw [hq] at hk
      cases hk
      exact h₁.trans (sameTables_dispatch k₁ p)

/-! The calls on files that open and close nothing. -/

theorem sameTables_vol (k : Kernel) (v : Vol) (ino : UInt32) : SameTables k { k with vol := v, cwd := ino } :=
  ⟨rfl, rfl, fun _ => rfl⟩

theorem sameTables_mkdir (k : Kernel) (name : CStr) : SameTables k (mkdir k name).2 := by
  unfold mkdir
  split <;> exact sameTables_vol k _ k.cwd

theorem sameTables_cd (k : Kernel) (path : CStr) : SameTables k (cd k path).2 := by
  unfold cd
  dsimp only
  split
  · exact .refl k
  · exact sameTables_vol k k.vol _

theorem sameTables_unlink (k : Kernel) (name : CStr) : SameTables k (unlink k name).2 := by
  unfold unlink
  dsimp only
  split
  · exact .refl k
  · split
    · exact sameTables_vol k _ k.cwd
    · exact .refl k

theorem sameTables_mv (k : Kernel) (name path : CStr) : SameTables k (mv k name path).2 := by
  unfold mv
  dsimp only
  split
  · exact .refl k
  · split
    · exact .refl k
    · split
      · exact .refl k
      · exact sameTables_vol k _ k.cwd

theorem sameTables_cp (k : Kernel) (src dest : CStr) : SameTables k (cp k src dest).2 := by
  unfold cp
  dsimp only
  split
  · exact .refl k
  · split
    · exact .refl k
    · split
      · exact .refl k
      · exact sameTables_vol k _ k.cwd

theorem sameTables_mqUnlink (k : Kernel) (m : Int) : SameTables k (mqUnlink k m).2 := by
  unfold mqUnlink
  split
  · split
    · exact sameTables_setMq k _ _
    · exact .refl k
  · exact .refl k

/-! The invariant. -/

/-- Every used open file belongs to a descriptor, and every active inode to a
used open file. -/
structure Held (k : Kernel) : Prop where
  counted : Counted k
  active : ∀ s, Active k s → ∃ o, inptr k o = some s
  owned : ∀ o, inptr k o ≠ none → ∃ p i, (k.pcb p).fd i = some o

theorem Held.of_same (h : Held k) (hai : ∀ s, (k'.ai s).iLinks = (k.ai s).iLinks ∧
      (k'.ai s).iIc.icMode = (k.ai s).iIc.icMode)
    (hof : ∀ o, inptr k' o = inptr k o) (hfd : ∀ p, (k'.pcb p).fd = (k.pcb p).fd) : Held k' := by
  refine ⟨h.counted.of_same (fun s => (hai s).1) hof fun p i o ho => ?_, fun s hs => ?_, fun o ho => ?_⟩
  · rwa [hfd] at ho
  · rw [Active, (hai s).2] at hs
    obtain ⟨o, ho⟩ := h.active s hs
    exact ⟨o, (hof o).trans ho⟩
  · rw [hof] at ho
    obtain ⟨p, i, hi⟩ := h.owned o ho
    exact ⟨p, i, by rw [hfd]; exact hi⟩

theorem Held.sameTables (h : Held k) (hs : SameTables k k') : Held k' := by
  refine h.of_same (fun s => ?_) (fun o => ?_) hs.fd
  · rw [hs.ai]
    exact ⟨rfl, rfl⟩
  · rw [inptr, hs.of, inptr]

theorem Held.getOFT (h : Held k) {i : Fin 16} (hi : k.self.fd i = none) : getOFT k ≠ none := by
  intro hnone
  have hused : ∀ o, inptr k o ≠ none := fun o ho => by
    have := find_finRange_none hnone o
    simp only [inptr] at ho
    simp [ho] at this
  choose p j hpj using fun o => h.owned o (hused o)
  have hinj : Function.Injective fun o => (p o, j o) := by
    intro o o' he
    have h1 : p o = p o' := congrArg Prod.fst he
    have h2 : j o = j o' := congrArg Prod.snd he
    have ho := hpj o
    rw [h1, h2, hpj o'] at ho
    exact (Option.some.inj ho).symm
  have hbij := (Fintype.bijective_iff_injective_and_card _).mpr ⟨hinj, by simp⟩
  obtain ⟨o, ho⟩ := hbij.2 (k.current, i)
  have h1 : p o = k.current := congrArg Prod.fst ho
  have h2 : j o = i := congrArg Prod.snd ho
  have hfd := hpj o
  rw [h1, h2, show (k.pcb k.current).fd i = none from hi] at hfd
  cases hfd

/-! Opening and closing. -/

theorem Held.linkFile (hcounted : Counted k) {i : Fin 16} {o s : Fin 128}
    (hactive : ∀ t, t ≠ s → Active k t → ∃ o, inptr k o = some t)
    (howned : ∀ o, inptr k o ≠ none → ∃ p i, (k.pcb p).fd i = some o) (hi : k.self.fd i = none)
    (ho : inptr k o = none) : Held (linkFile k i o s) := by
  have hin := inptr_linkFile k i o s
  have hfd : ∀ p j, ((Core.linkFile k i o s).pcb p).fd j =
      if p = k.current ∧ j = i then some o else (k.pcb p).fd j := fun p j => self_fd_update
  refine ⟨hcounted.linkFile ho s, fun t ht => ?_, fun o' ho' => ?_⟩
  · by_cases hts : t = s
    · exact ⟨o, by rw [hin, Function.update_self, hts]⟩
    · obtain ⟨o', ho'⟩ := hactive t hts ((active_linkFile k i o s t).1.mp ht)
      have hoo : o' ≠ o := by
        rintro rfl
        rw [ho] at ho'
        cases ho'
      exact ⟨o', by rw [hin, Function.update_of_ne hoo, ho']⟩
  · by_cases hoo : o' = o
    · exact ⟨k.current, i, by rw [hfd, if_pos ⟨rfl, rfl⟩, hoo]⟩
    · rw [hin, Function.update_of_ne hoo] at ho'
      obtain ⟨p, j, hj⟩ := howned o' ho'
      have hne : ¬(p = k.current ∧ j = i) := by
        rintro ⟨rfl, rfl⟩
        rw [show (k.pcb k.current).fd j = none from hi] at hj
        cases hj
      exact ⟨p, j, by rw [hfd, if_neg hne, hj]⟩

theorem Held.openFile_cases (h : Held k) (path : CStr) (oflag : OFlag) :
    ((openFile k path oflag).1 = -1 ∧ SameTables k (openFile k path oflag).2) ∨
    ∃ (i : Fin 16) (o s : Fin 128) (k₁ : Kernel), k.self.fd i = none ∧ inptr k₁ o = none ∧
      k₁.pcb = k.pcb ∧ k₁.current = k.current ∧ openFile k path oflag = ((i.val : Int), Core.linkFile k₁ i o s) ∧
      Held (Core.linkFile k₁ i o s) := by
  unfold openFile
  cases hfd : getFD k with
  | none => exact .inl ⟨rfl, .refl k⟩
  | some i =>
    have hi := getFD_some hfd
    obtain ⟨ino, v⟩ := resolve k.vol path oflag
    have hv : SameTables k { k with vol := v } := sameTables_vol k v k.cwd
    dsimp only
    split
    · exact .inl ⟨rfl, hv⟩
    · have hkv := h.sameTables hv
      have ho : ∀ k₁ : Kernel, k₁.of = k.of → ∃ o, Core.getOFT k₁ = some o ∧ inptr k₁ o = none := by
        intro k₁ hof
        have hsame : Core.getOFT k₁ = Core.getOFT k := by rw [Core.getOFT, hof, Core.getOFT]
        obtain ⟨o, ho⟩ := Option.ne_none_iff_exists'.mp (h.getOFT hi)
        exact ⟨o, hsame.trans ho, getOFT_some (hsame.trans ho)⟩
      rcases getAIT_cases { k with vol := v } ino with ⟨he, -⟩ | ⟨s, he, -⟩ | ⟨s, he, hidle, -⟩
      · rw [he]
        exact .inl ⟨rfl, hv⟩
      · obtain ⟨o, hoft, ho⟩ := ho { k with vol := v } rfl
        rw [he]
        dsimp only
        rw [hoft]
        exact .inr ⟨i, o, s, _, hi, ho, rfl, rfl, rfl,
          Held.linkFile hkv.counted (fun t _ => hkv.active t) hkv.owned hi ho⟩
      · obtain ⟨o, hoft, ho⟩ := ho { k with
          vol := v, ai := Function.update k.ai s (readInode v (k.ai s) ino) } rfl
        rw [he]
        dsimp only
        rw [hoft]
        refine .inr ⟨i, o, s, _, hi, ho, rfl, rfl, rfl,
          Held.linkFile (hkv.counted.load s ino) (fun t hts ht => ?_) hkv.owned hi ho⟩
        apply hkv.active t
        simpa [Active, hts] using ht

theorem Held.openFile (h : Held k) (path : CStr) (oflag : OFlag) : Held (openFile k path oflag).2 := by
  obtain ⟨-, hs⟩ | ⟨i, o, s, k₁, -, -, -, -, he, hheld⟩ := h.openFile_cases path oflag
  · exact h.sameTables hs
  · rw [he]
    exact hheld

theorem Held.unlinkFile (h : Held k) {i : Fin 16} {o s : Fin 128} (hi : (k.pcb k.current).fd i = some o)
    (hs : inptr k o = some s) : Held (unlinkFile k i o s) := by
  have hin := inptr_unlinkFile k i o s
  have hcounted : Counted (Core.unlinkFile k i o s) := h.counted.unlinkFile hi hs
  refine ⟨hcounted, fun t ht => ?_, fun o' ho' => ?_⟩
  · by_cases hts : t = s
    · subst hts
      -- a slot that stays active has links left, so some entry counts among them
      obtain ⟨-, hlinks, hmode⟩ := ai_unlinkFile_self k i o t
      rw [Active, hmode] at ht
      have hne : (k.ai t).iLinks - 1 ≠ 0 := fun hz => ht (if_pos hz)
      have hrefs := hcounted.links t
      rw [hlinks] at hrefs
      by_contra hno
      push Not at hno
      rw [refs_eq_zero.mpr hno] at hrefs
      exact hne (UInt32.toNat_inj.mp hrefs)
    · rw [Active, ai_unlinkFile k i o hts] at ht
      obtain ⟨o', ho'⟩ := h.active t ht
      have hoo : o' ≠ o := by
        rintro rfl
        rw [hs] at ho'
        exact hts (Option.some.inj ho').symm
      exact ⟨o', by rw [hin, Function.update_of_ne hoo, ho']⟩
  · have hoo : o' ≠ o := by
      rintro rfl
      rw [hin, Function.update_self] at ho'
      exact ho' rfl
    rw [hin, Function.update_of_ne hoo] at ho'
    obtain ⟨p, j, hj⟩ := h.owned o' ho'
    have hne : ¬(p = k.current ∧ j = i) := by
      rintro ⟨rfl, rfl⟩
      rw [hi] at hj
      exact hoo (Option.some.inj hj).symm
    exact ⟨p, j, by rw [fd_unlinkFile, if_neg hne, hj]⟩

theorem Held.fdEntry (h : Held k) {fd : Int} {i : Fin 16} {o : Fin 128} (he : fdEntry k fd = some (i, o)) :
    ∃ s, inptr k o = some s :=
  Option.ne_none_iff_exists'.mp (h.counted.opened _ _ _ (fdEntry_some he).2)

theorem Held.close (h : Held k) (fd : Int) : Held (close k fd).2 := by
  cases he : Core.fdEntry k fd with
  | none => simpa [Core.close, he] using h
  | some io =>
    obtain ⟨i, o⟩ := io
    obtain ⟨s, hs⟩ := h.fdEntry he
    rw [close_eq he hs]
    exact h.unlinkFile (fdEntry_some he).2 hs

theorem Held.setHead (h : Held k) (o : Fin 128) (head : UInt32) {ai : ActiveInodes}
    (hai : ∀ s, SameFile (k.ai s) (ai s)) (v : Vol) :
    Held { k with of := Function.update k.of o { k.of o with oHead := head }, ai := ai, vol := v } := by
  refine h.of_same (fun s => (hai s).2) (fun o' => ?_) fun _ => rfl
  by_cases hoo : o' = o
  · subst hoo
    simp [inptr]
  · simp [inptr, hoo]

theorem Held.fwrite (h : Held k) (fd : Int) (data : Nat → UInt8) (n : UInt32) : Held (fwrite k fd data n).2 := by
  unfold Core.fwrite
  split
  · exact h
  · next o _ =>
    split
    · exact h
    · next s hs =>
      dsimp only
      apply h.setHead
      intro t
      by_cases ht : t = s
      · subst ht
        rw [Function.update_self]
        split
        · exact allocateDataBlocks_sameFile ..
        · exact .refl _
      · rw [Function.update_of_ne ht]
        exact .refl _

theorem Held.fread (h : Held k) (fd : Int) (n : UInt32) : Held (fread k fd n).2.2 := by
  unfold Core.fread
  split
  · exact h
  · next o _ =>
    split
    · exact h
    · dsimp only
      split
      · exact h
      · exact h.setHead o _ (fun _ => .refl _) k.vol

theorem Held.lseek (h : Held k) (fd : Int) (offset : UInt32) (whence : Option Whence) :
    Held (lseek k fd offset whence).2 := by
  unfold Core.lseek
  split
  · exact h
  · exact h
  · next o _ _ => exact h.setHead o _ (fun _ => .refl _) k.vol

/-! A file that is opened and closed again leaves the `fd` tables as they were. -/

theorem fdEntry_val {i : Fin 16} {o : Fin 128} (h : k.self.fd i = some o) :
    fdEntry k i.val = some (i, o) := by
  have hr : (0 : Int) ≤ i.val ∧ (i.val : Int) < 16 := by omega
  unfold fdEntry
  rw [dif_pos hr]
  change (k.self.fd i).map _ = _
  rw [h]
  rfl

theorem fd_close {fd : Int} {i : Fin 16} {o : Fin 128} (h : fdEntry k fd = some (i, o)) (p : Fin 8)
    (j : Fin 16) : ((close k fd).2.pcb p).fd j = if p = k.current ∧ j = i then none else (k.pcb p).fd j := by
  unfold close
  rw [h]
  dsimp only
  cases (k.of o).oInptr with
  | none => exact self_fd_update
  | some s =>
    obtain ⟨v, he⟩ := unlinkAit_eq k s
    simp only [he]
    exact self_fd_update

theorem Held.fd_openClose (h : Held k) (path : CStr) (oflag : OFlag)
    (hpcb : k₂.pcb = (Core.openFile k path oflag).2.pcb)
    (hcur : k₂.current = (Core.openFile k path oflag).2.current) (p : Fin 8) :
    ((Core.close k₂ (Core.openFile k path oflag).1).2.pcb p).fd = (k.pcb p).fd := by
  obtain ⟨he, hs⟩ | ⟨i, o, s, k₁, hi, -, hp₁, hc₁, he, -⟩ := h.openFile_cases path oflag
  · have hnone : Core.fdEntry k₂ (-1) = none := dif_neg (by omega)
    rw [he, Core.close, hnone, hpcb]
    exact hs.fd p
  · have hfd : ∀ q j, (k₂.pcb q).fd j =
        if q = k.current ∧ j = i then some o else (k.pcb q).fd j := by
      intro q j
      rw [hpcb, he, ← hp₁, ← hc₁]
      exact self_fd_update
    have hcur' : k₂.current = k.current := by
      rw [hcur, he]
      exact hc₁
    have hself : k₂.self.fd i = some o := by
      rw [Kernel.self, hfd, if_pos ⟨hcur', rfl⟩]
    rw [he]
    funext j
    rw [fd_close (fdEntry_val hself), hfd, hcur']
    split
    · next hj =>
      rw [hj.1, hj.2]
      exact hi.symm
    · rfl

theorem fwrite_pcb (k : Kernel) (fd : Int) (data : Nat → UInt8) (n : UInt32) :
    (fwrite k fd data n).2.pcb = k.pcb := by
  unfold fwrite
  split
  · rfl
  · split <;> rfl

theorem fread_pcb (k : Kernel) (fd : Int) (n : UInt32) : (fread k fd n).2.2.pcb = k.pcb := by
  obtain ⟨of', he⟩ := fread_kernel k fd n
  rw [he]

theorem Held.createObjFile (h : Held k) (name : CStr) (entry : UInt32) :
    Held (createObjFile k name entry) ∧
      ∀ p, ((createObjFile k name entry).pcb p).fd = (k.pcb p).fd := by
  unfold Core.createObjFile
  dsimp only
  refine ⟨(((h.openFile name .ocreat).fwrite _ _ _).fwrite _ _ _).close _, ?_⟩
  apply h.fd_openClose
  · rw [fwrite_pcb, fwrite_pcb]
  · rw [(sameProcs_fwrite _ _ _ _).current, (sameProcs_fwrite _ _ _ _).current]

theorem Held.wipe (h : Held k) : Held (wipe k) ∧ ∀ p, ((wipe k).pcb p).fd = (k.pcb p).fd := by
  have hrun : ∀ (is : List (Fin 8)) (k : Kernel), Held k →
      Held (is.foldl (fun k i => Core.createObjFile k (objFiles.getD i.val []) (k.link.entry i)) k) ∧
      ∀ p, ((is.foldl (fun k i => Core.createObjFile k (objFiles.getD i.val []) (k.link.entry i)) k).pcb p).fd =
        (k.pcb p).fd := by
    intro is
    induction is with
    | nil => exact fun k h => ⟨h, fun _ => rfl⟩
    | cons i rest ih =>
      intro k h
      obtain ⟨h₁, hfd₁⟩ := h.createObjFile (objFiles.getD i.val []) (k.link.entry i)
      obtain ⟨h₂, hfd₂⟩ := ih _ h₁
      exact ⟨h₂, fun p => (hfd₂ p).trans (hfd₁ p)⟩
  unfold Core.wipe createObjFiles
  exact hrun _ _ (h.sameTables (sameTables_vol k (format k.vol) k.cwd))

/-! `exec`. -/

theorem Held.getProgramEntry (h : Held k) (path : CStr) (entry priority : UInt32) :
    Held (getProgramEntry k path entry priority).2.2.2 ∧
      ∀ p, ((getProgramEntry k path entry priority).2.2.2.pcb p).fd = (k.pcb p).fd := by
  unfold Core.getProgramEntry
  split
  · dsimp only
    split
    · refine ⟨(((h.openFile _ .oexist).fread _ _).fread _ _).close _, ?_⟩
      apply h.fd_openClose
      · rw [fread_pcb, fread_pcb]
      · rw [(sameProcs_fread _ _ _).current, (sameProcs_fread _ _ _).current]
    · next hfail =>
      push Not at hfail
      refine ⟨h.openFile _ .oexist, ?_⟩
      obtain ⟨-, hs⟩ | ⟨i, o, s, k₁, -, -, -, -, he, -⟩ := h.openFile_cases (strtokCut path) .oexist
      · exact hs.fd
      · rw [he] at hfail
        have := i.isLt
        simp only at hfail
        omega
  · exact ⟨h, fun _ => rfl⟩

/-- The program is not found, or there is no descriptor to read it with. -/
def execFails (k : Kernel) (path : CStr) : Prop :=
  pathToIno k.vol path rootDir = noAddr ∨ getFD k = none ∨
    isNeg (pathToIno k.vol (strtokCut path) rootDir) = true

theorem getProgramEntry_fails {path : CStr} (h : execFails k path) (entry priority : UInt32) :
    (getProgramEntry k path entry priority).1 = -1 := by
  unfold getProgramEntry
  split
  · next hino =>
    have hopen : (openFile k (strtokCut path) .oexist).1 = -1 := by
      obtain hno | hnone | hneg := h
      · exact absurd hno hino
      · unfold openFile
        rw [hnone]
      · unfold openFile
        cases getFD k with
        | none => rfl
        | some i =>
          simp only [resolve, hneg, if_true]
    dsimp only
    rw [hopen]
    rfl
  · rfl

theorem Held.exec (h : Held k) {path : CStr} (hok : (∀ i, k.self.fd i = none) ∨ execFails k path) :
    Held (exec k path).2 ∧ ∀ p, ((exec k path).2.pcb p).fd = (k.pcb p).fd := by
  obtain ⟨h₁, hfd₁⟩ := h.getProgramEntry path (word k.vol.stkBlk 0) (word k.vol.stkBlk 1)
  have hcur := (sameProcs_getProgramEntry k path (word k.vol.stkBlk 0) (word k.vol.stkBlk 1)).current
  have hfail := fun hf : execFails k path => getProgramEntry_fails hf (word k.vol.stkBlk 0)
    (word k.vol.stkBlk 1)
  unfold Core.exec
  generalize Core.getProgramEntry k path (word k.vol.stkBlk 0) (word k.vol.stkBlk 1) = r at h₁ hfd₁ hcur hfail
  obtain ⟨r, entry, priority, k₁⟩ := r
  dsimp only at h₁ hfd₁ hcur hfail ⊢
  split
  · exact ⟨h₁, hfd₁⟩
  · next hne =>
    have hempty : ∀ i, k.self.fd i = none := by
      obtain he | hf := hok
      · exact he
      · exact absurd (hfail hf) hne
    have hfd : ∀ (x : Pcb) (ctx : Ctx), (x.fd = fun _ => none) → ∀ p,
        (({ k₁.setPcb k₁.current x with ctx := ctx }).pcb p).fd = (k₁.pcb p).fd := by
      intro x ctx hx p
      by_cases hp : p = k₁.current
      · subst hp
        simp only [Kernel.setPcb, Function.update_self, hx]
        funext i
        rw [hfd₁, hcur]
        exact (hempty i).symm
      · simp [Kernel.setPcb, hp]
    refine ⟨h₁.of_same (fun _ => ⟨rfl, rfl⟩) (fun _ => rfl) (hfd _ _ rfl), fun p => ?_⟩
    exact (hfd _ _ rfl p).trans (hfd₁ p)

/-! Who terminates. -/

def NoDeath (k k' : Kernel) : Prop := ∀ p, (k'.pcb p).pst = .terminated → (k.pcb p).pst = .terminated

theorem NoDeath.refl (k : Kernel) : NoDeath k k := fun _ => id

theorem NoDeath.trans (h : NoDeath k k₁) (h' : NoDeath k₁ k₂) : NoDeath k k₂ := fun p hp => h p (h' p hp)

theorem SameProcs.noDeath (h : SameProcs k k') : NoDeath k k' := fun p hp => by rwa [(h.pcb p).2.1] at hp

def killed (pid : Int) (p : Fin 8) : Prop := pid = p.val ∨ pid = 9 ∧ p ≠ 0

theorem kill_terminated {pid : Int} {sig : Sig} {p : Fin 8}
    (h : ((kill k pid sig).pcb p).pst = .terminated) :
    (k.pcb p).pst = .terminated ∨ sig = .sigkill ∧ killed pid p := by
  by_cases hr : 0 ≤ pid ∧ pid < 8
  · rw [pst_kill k hr] at h
    split at h
    · next hp =>
      cases sig with
      | sigkill => exact .inr ⟨rfl, .inl hp⟩
      | sigwait => cases h
      | sigcont =>
        left
        unfold signalPst at h
        dsimp only at h
        split at h
        · cases h
        · exact h
      | sigpri0 => exact .inl h
    · exact .inl h
  · unfold kill at h
    split at h
    · rw [dif_neg (by omega)] at h
      exact .inl h
    · split at h
      · next h9 =>
        dsimp only at h
        split at h
        · exact .inl h
        · next h0 => exact .inr ⟨h9.2, .inr ⟨h9.1, h0⟩⟩
      · exact .inl h

theorem noDeath_kill (k : Kernel) (pid : Int) {sig : Sig} (hs : sig ≠ .sigkill) : NoDeath k (kill k pid sig) :=
  fun _ hp => (kill_terminated hp).resolve_right fun h => hs h.1

theorem noDeath_fork (k : Kernel) : NoDeath k (fork k).2 := by
  intro q hq
  obtain ⟨-, he⟩ | ⟨p, x, -, -, hpst, -, he, hpcb⟩ := pcb_fork k
  · rwa [he] at hq
  · rw [he, hpcb] at hq
    split at hq
    · rw [hpst] at hq
      cases hq
    · exact hq

theorem noDeath_exec (k : Kernel) (path : CStr) : NoDeath k (exec k path).2 := by
  intro q hq
  obtain ⟨k₁, hs, he | ⟨x, -, hpst, he⟩⟩ := exec_cases k path
  · rw [he] at hq
    exact hs.noDeath q hq
  · rw [he] at hq
    by_cases hc : q = k₁.current
    · subst hc
      simp [Kernel.setPcb, hpst] at hq
    · simp only [Kernel.setPcb, Function.update_of_ne hc] at hq
      exact hs.noDeath q hq

theorem noDeath_mqSend (k : Kernel) (m : Fin 32) (msg : List UInt8) : NoDeath k (mqSend k m msg).2 := by
  have hwait : NoDeath k (kill (setMq k m { k.mq m with msgLspid := k.self.pid })
      (setMq k m { k.mq m with msgLspid := k.self.pid }).self.pid .sigwait) := noDeath_kill _ _ (by decide)
  unfold mqSend
  dsimp only
  split
  · split
    · exact hwait.trans (noDeath_kill (setMq _ _ _) _ (by decide))
    · exact hwait
  · exact hwait

theorem noDeath_mqReceive (k : Kernel) (m : Fin 32) (len : Nat) : NoDeath k (mqReceive k m len).2.2 := by
  unfold mqReceive
  dsimp only
  split
  · exact noDeath_kill (setMq (setMq k m _) m _) _ (by decide)
  · exact noDeath_kill (setMq (setMq k m _) m _) _ (by decide)

theorem noDeath_scheduler (hk : scheduler k = some k') : NoDeath k k' := by
  unfold scheduler rqRotate at hk
  cases hr : rotateLoop 8 k with
  | none =>
    rw [hr] at hk
    cases hk
  | some k₁ =>
    rw [hr, Option.map_some] at hk
    have h₁ : NoDeath k k₁ := by
      rw [rotateLoop_eq hr]
      exact .refl k
    cases hq : k₁.rq 0 with
    | none =>
      rw [hq] at hk
      cases hk
      exact h₁
    | some p =>
      rw [hq] at hk
      cases hk
      apply h₁.trans
      intro q hq
      rwa [(dispatch_switched k₁ p).1.pst] at hq

/-! Runs. -/

/-- No descriptor is left to a process that has terminated. -/
structure Released (k : Kernel) : Prop where
  held : Held k
  dead : ∀ p, (k.pcb p).pst = .terminated → ∀ i, (k.pcb p).fd i = none

theorem Released.of_same (h : Released k) (hheld : Held k') (hfd : ∀ p, (k'.pcb p).fd = (k.pcb p).fd)
    (hd : NoDeath k k') : Released k' :=
  ⟨hheld, fun p hp i => by rw [hfd]; exact h.dead p (hd p hp) i⟩

theorem Released.sameTables (h : Released k) (hs : SameTables k k') (hd : NoDeath k k') : Released k' :=
  h.of_same (h.held.sameTables hs) hs.fd hd

theorem Released.setGpr0 (h : Released k) (x : UInt32) : Released (setGpr0 k x) :=
  h.sameTables ⟨rfl, rfl, fun _ => rfl⟩ (.refl k)

/-- The processes SIGKILL goes to have no descriptors, `exec` succeeds only for
a process that has none, and no process that was killed while it ran calls
`open`. -/
def releaseOk (k : Kernel) : Svc → Prop
  | .trap (.exec path) => (∀ i, k.self.fd i = none) ∨ execFails k path
  | .trap (.kill pid (some .sigkill)) => ∀ p, killed pid p → ∀ i, (k.pcb p).fd i = none
  | .trap (.raise (some .sigkill)) => ∀ p, killed k.self.pid p → ∀ i, (k.pcb p).fd i = none
  | .fs (.open _ _) => k.self.pst ≠ .terminated
  | _ => True

theorem Released.kill (h : Released k) {pid : Int} {sig : Sig}
    (hok : sig = .sigkill → ∀ p, killed pid p → ∀ i, (k.pcb p).fd i = none) : Released (kill k pid sig) := by
  have hs := sameTables_kill k pid sig
  refine ⟨h.held.sameTables hs, fun p hp i => ?_⟩
  rw [hs.fd]
  obtain ht | ⟨hsig, hkilled⟩ := kill_terminated hp
  · exact h.dead p ht i
  · exact hok hsig p hkilled i

theorem Released.trapBody (h : Released k) {c : Trap} (hok : releaseOk k (.trap c)) :
    Released (trapBody k c).1 := by
  cases c with
  | yield => exact h
  | fork => exact (h.sameTables (sameTables_fork k) (noDeath_fork k)).setGpr0 _
  | exec path =>
    obtain ⟨hheld, hfd⟩ := h.held.exec hok
    exact (h.of_same hheld hfd (noDeath_exec k path)).setGpr0 _
  | kill pid sig =>
    cases sig with
    | none => exact h
    | some sig =>
      apply h.kill
      rintro rfl
      exact hok
  | raise sig =>
    cases sig with
    | none => exact h
    | some sig =>
      apply h.kill
      rintro rfl
      exact hok
  | mqOpen name =>
    have hd : NoDeath k (mqOpen k name).2 := by
      obtain ⟨mq', he⟩ := mqOpen_eq k name
      rw [he]
      exact .refl k
    exact (h.sameTables (sameTables_mqOpen k name) hd).setGpr0 _
  | send m msg => exact (h.sameTables (sameTables_mqSend k m msg) (noDeath_mqSend k m msg)).setGpr0 _
  | receive m len =>
    exact (h.sameTables (sameTables_mqReceive k m len) (noDeath_mqReceive k m len)).setGpr0 _
  | timer => exact h
  | uart =>
    refine h.sameTables ⟨?_, ?_, fun p => ?_⟩ (sameProcs_uart k).noDeath
    · unfold Core.trapBody
      dsimp only
      split <;> rfl
    · unfold Core.trapBody
      dsimp only
      split <;> rfl
    · exact fd_of_graft (f := fun k => (Core.trapBody k .uart).1)
        (fun g k => by rw [trapBody_graft (c := .uart) fun hu => hu.elim]) k p

theorem Released.fsCall (h : Released k) {c : FsCall} (hok : releaseOk k (.fs c)) :
    Released (fsCall k c).2.2 := by
  have hd := (sameProcs_fsCall k c).noDeath
  cases c with
  | console n => exact h
  | write fd data n =>
    have hfd : ∀ p, ((Core.fwrite k fd data n).2.pcb p).fd = (k.pcb p).fd := fun p => by rw [fwrite_pcb]
    exact h.of_same (h.held.fwrite fd data n) hfd hd
  | read fd n =>
    have hfd : ∀ p, ((Core.fread k fd n).2.2.pcb p).fd = (k.pcb p).fd := fun p => by rw [fread_pcb]
    exact h.of_same (h.held.fread fd n) hfd hd
  | lseek fd offset whence =>
    have hfd : ∀ p, ((Core.lseek k fd offset whence).2.pcb p).fd = (k.pcb p).fd := by
      intro p
      obtain ⟨of', he⟩ := lseek_kernel k fd offset whence
      rw [he]
    exact h.of_same (h.held.lseek fd offset whence) hfd hd
  | wipe =>
    obtain ⟨hheld, hfd⟩ := h.held.wipe
    exact h.of_same hheld hfd hd
  | «open» path oflag =>
    refine ⟨h.held.openFile path oflag, fun p hp i => ?_⟩
    change ((Core.openFile k path oflag).2.pcb p).fd i = none
    obtain ⟨-, hs⟩ | ⟨j, o, s, k₁, -, -, hp₁, hc₁, he, -⟩ := h.held.openFile_cases path oflag
    · rw [hs.fd]
      exact h.dead p (hd p hp) i
    · have hne : p ≠ k.current := by
        rintro rfl
        exact hok (hd k.current hp)
      have hfd : ((Core.linkFile k₁ j o s).pcb p).fd i =
          if p = k₁.current ∧ i = j then some o else (k₁.pcb p).fd i := self_fd_update
      rw [he, hfd, if_neg fun hc => hne (hc.1.trans hc₁), hp₁]
      exact h.dead p (hd p hp) i
  | close fd =>
    refine ⟨h.held.close fd, fun p hp i => ?_⟩
    change ((Core.close k fd).2.pcb p).fd i = none
    cases he : Core.fdEntry k fd with
    | none =>
      rw [Core.close, he]
      exact h.dead p (hd p hp) i
    | some e =>
      rw [fd_close he]
      split
      · rfl
      · exact h.dead p (hd p hp) i
  | mkdir name => exact h.sameTables (sameTables_mkdir k name) hd
  | cd path => exact h.sameTables (sameTables_cd k path) hd
  | unlink name => exact h.sameTables (sameTables_unlink k name) hd
  | mv name path => exact h.sameTables (sameTables_mv k name path) hd
  | cp src dest => exact h.sameTables (sameTables_cp k src dest) hd
  | tell fd => exact h
  | mqUnlink m => exact h.sameTables (sameTables_mqUnlink k m) hd
  | other => exact h

theorem Released.svc (h : Released k) {c : Svc} (hok : releaseOk k c) (hk : svc k c = some k') :
    Released k' := by
  have hbody : Released (svcBody k c).1 := by
    cases c with
    | trap c => exact h.trapBody hok
    | fs c =>
      have hfs := h.fsCall hok
      change Released (fsBody k c)
      unfold fsBody
      generalize Core.fsCall k c = r at hfs
      obtain ⟨_ | r, x, k₁⟩ := r
      · exact hfs
      · exact hfs.setGpr0 r
  unfold Core.svc at hk
  generalize svcBody k c = r at hbody hk
  obtain ⟨k₁, b⟩ := r
  cases b with
  | true => exact hbody.sameTables (sameTables_scheduler hk) (noDeath_scheduler hk)
  | false =>
    cases hk
    exact hbody

end

def releaseStepOk (s : Option Kernel) (c : Svc) : Prop := ∀ k, s = some k → releaseOk k c

def ReleasedReached (s : Option Kernel) : Prop := ∀ k, s = some k → Released k

theorem releasedReached_step (s : Option Kernel) (c : Svc) (h : ReleasedReached s)
    (hok : releaseStepOk s c) : ReleasedReached (svcStep s c) := by
  intro k' hk'
  obtain ⟨k, hk, hs⟩ := svcStep_eq_some hk'
  exact (h k hk).svc (hok k hk) hs

theorem released_boot (v : Vol) (link : Link) : Released (boot v link) := by
  have hnone : ∀ p i, ((boot v link).pcb p).fd i = none := by
    intro p i
    unfold boot kernelHandlerRst
    dsimp only
    rw [(rqAdd_tables _ _).2.2]
    by_cases hp : p = 0
    · subst hp
      rfl
    · simp [Kernel.setPcb, hp, powerOn, Pcb.zero]
  have ht := tables_boot v link
  have hin : ∀ o, inptr (boot v link) o = none := by
    intro o
    unfold inptr boot kernelHandlerRst
    dsimp only
    rw [(rqAdd_tables _ _).2.1]
    rfl
  refine ⟨⟨ht.counted, fun s hs => ?_, fun o ho => absurd (hin o) ho⟩, fun p _ => hnone p⟩
  unfold Active boot kernelHandlerRst at hs
  dsimp only at hs
  rw [(rqAdd_tables _ _).1] at hs
  exact absurd rfl hs

/-- **Descriptors are released with their process.** In every state reached by
calls that meet the condition, each used open file belongs to a descriptor of a
process that has not terminated, the open-file table does not run out before
the caller's descriptors do, and an inode is active only while such a process
has it open. -/
theorem descriptors_released (v : Vol) (link : Link) (calls : List Svc)
    (hc : Along svcStep releaseStepOk (some (boot v link)) calls) (k : Kernel)
    (hk : run svcStep (some (boot v link)) calls = some k) :
    (∀ o, (k.of o).oInptr ≠ none → ∃ p i, (k.pcb p).pst ≠ .terminated ∧ (k.pcb p).fd i = some o) ∧
    (getFD k ≠ none → getOFT k ≠ none) ∧
    ∀ s, Active k s → ∃ p i o, (k.pcb p).pst ≠ .terminated ∧ (k.pcb p).fd i = some o ∧
      (k.of o).oInptr = some s := by
  have hboot : ReleasedReached (some (boot v link)) := by
    rintro k ⟨⟩
    exact released_boot v link
  have h : Released k := invariant releasedReached_step hboot hc k hk
  have howned : ∀ o, inptr k o ≠ none → ∃ p i, (k.pcb p).pst ≠ .terminated ∧ (k.pcb p).fd i = some o := by
    intro o ho
    obtain ⟨p, i, hi⟩ := h.held.owned o ho
    refine ⟨p, i, fun hp => ?_, hi⟩
    rw [h.dead p hp i] at hi
    cases hi
  refine ⟨howned, fun hfd => ?_, fun s hs => ?_⟩
  · obtain ⟨i, hi⟩ := Option.ne_none_iff_exists'.mp hfd
    exact h.held.getOFT (getFD_some hi)
  · obtain ⟨o, ho⟩ := h.held.active s hs
    obtain ⟨p, i, hp, hi⟩ := howned o (by rw [ho]; simp)
    exact ⟨p, i, o, hp, hi, ho⟩

/-- The first process is killed, and the second one holds the root directory. -/
theorem descriptors_released_open : ∃ k, run svcStep (some (boot rootVol noLink))
      [.trap .fork, .trap .timer, .fs (.open [] .oexist), .trap (.kill 0 (some .sigkill))] = some k ∧
    (k.of 0).oInptr ≠ none ∧ ∃ p i, (k.pcb p).pst ≠ .terminated ∧ (k.pcb p).fd i = some 0 := by
  have hc : Along svcStep releaseStepOk (some (boot rootVol noLink))
      [.trap .fork, .trap .timer, .fs (.open [] .oexist), .trap (.kill 0 (some .sigkill))] := by
    refine ⟨?_, ?_, ?_, ?_, trivial⟩
    · rintro k ⟨⟩
      trivial
    · rintro k ⟨⟩
      trivial
    · rintro k ⟨⟩ ⟨⟩
    · rintro k ⟨⟩ p (hp | ⟨h9, -⟩) i
      · have h0 : p = 0 := Fin.ext (by simpa using hp.symm)
        subst h0
        rfl
      · cases h9
  have hused : ∃ k, run svcStep (some (boot rootVol noLink))
      [.trap .fork, .trap .timer, .fs (.open [] .oexist), .trap (.kill 0 (some .sigkill))] = some k ∧
      (k.of 0).oInptr ≠ none := ⟨_, rfl, by rintro ⟨⟩⟩
  obtain ⟨k, hk, ho⟩ := hused
  exact ⟨k, hk, ho, (descriptors_released rootVol noLink _ hc k hk).1 0 ho⟩

/-- An open file of a process that exited stays in use. -/
theorem exit_keeps_open_file : ∃ k, run svcStep (some (boot rootVol noLink)) openThenExit = some k ∧
    (k.of 0).oInptr ≠ none ∧ ∀ p i, (k.pcb p).pst ≠ .terminated → (k.pcb p).fd i ≠ some 0 := by
  refine ⟨_, rfl, by rintro ⟨⟩, fun p i hp hi => ?_⟩
  fin_cases p
  · cases hi
  · exact hp rfl
  all_goals cases hi

end ArmKernel.Core
