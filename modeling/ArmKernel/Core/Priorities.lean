import ArmKernel.Core.RoundRobin
import ArmKernel.Core.Turns

/-! Priorities. All calls and the reset loop of the scheduler leave a process
with its priorities or with two equal ones; only the scheduler counts `prio`
down, for a process that stays on the processor. -/
namespace ArmKernel.Core

open Lib Lib.Bytes Lib.Run Fs

/-- No process in the queue has more left than its default priority. -/
def PrioBounded (k : Kernel) : Prop :=
  ∀ (i : Fin 8) p, i.val < k.rqSize → k.rq i = some p → (k.pcb p).prio ≤ (k.pcb p).defp

/-- The first executing process behind the head of the queue. -/
def inTurn (k : Kernel) : Option (Fin 8) := firstExecuting k (((List.finRange 8).filterMap k.rq).rotate 1)

/-- If the scheduler is called, it does not leave a process of default priority
zero on the processor. -/
def KeepsPriority (k : Kernel) (c : Trap) : Prop :=
  (trapBody k c).2 = true → inTurn (trapBody k c).1 = some (trapBody k c).1.current → (trapBody k c).1.self.defp ≠ 0

def prioStepOk (s : Option Kernel) (c : Trap) : Prop := ∀ k, s = some k → pidInRange (.trap c) ∧ KeepsPriority k c

/-! Equal or unchanged priorities. -/

def Leveled (k k' : Kernel) : Prop :=
  ∀ p, (k'.pcb p).prio = (k.pcb p).prio ∧ (k'.pcb p).defp = (k.pcb p).defp ∨ (k'.pcb p).prio = (k'.pcb p).defp

section

variable {k k₁ k' : Kernel}

theorem Leveled.trans (h : Leveled k k₁) (h' : Leveled k₁ k') : Leveled k k' := by
  intro p
  rcases h' p with ⟨hprio, hdefp⟩ | heq
  · rw [hprio, hdefp]
    exact h p
  · exact .inr heq

theorem leveled_of_pcb (h : k'.pcb = k.pcb) : Leveled k k' := by
  intro p
  rw [h]
  exact .inl ⟨rfl, rfl⟩

theorem Leveled.refl (k : Kernel) : Leveled k k := leveled_of_pcb rfl

theorem leveled_setPcb (k : Kernel) {p : Fin 8} {x : Pcb}
    (h : x.prio = (k.pcb p).prio ∧ x.defp = (k.pcb p).defp ∨ x.prio = x.defp) : Leveled k (k.setPcb p x) := by
  intro q
  by_cases hq : q = p
  · subst hq
    simpa [Kernel.setPcb] using h
  · exact .inl (by simp [Kernel.setPcb, hq])

theorem leveled_setPst (k : Kernel) (p : Fin 8) (s : Pst) : Leveled k (setPst k p s) := leveled_setPcb k (.inl ⟨rfl, rfl⟩)

theorem leveled_signal (k : Kernel) (p : Fin 8) (sig : Sig) : Leveled k (signal k p sig) := by
  cases sig with
  | sigkill =>
    obtain ⟨rq, n, he⟩ := rqRm_eq (setPst k p .terminated) p.val
    rw [signal, he]
    exact (leveled_setPst k p _).trans (leveled_of_pcb rfl)
  | sigwait => exact leveled_setPst k p _
  | sigcont =>
    rw [signal]
    split
    · exact leveled_setPst k p _
    · exact .refl k
  | sigpri0 => exact leveled_setPcb k (.inr rfl)

theorem leveled_kill (k : Kernel) (pid : Int) (sig : Sig) : Leveled k (kill k pid sig) := by
  unfold kill
  split
  · split
    · exact leveled_signal k _ sig
    · exact .refl k
  · split
    · intro p
      dsimp only
      split <;> exact .inl ⟨rfl, rfl⟩
    · exact .refl k

theorem leveled_killSig (k : Kernel) (pid : Int) (sig : Option Sig) : Leveled k (killSig k pid sig) := by
  cases sig with
  | none => exact .refl k
  | some sig => exact leveled_kill k pid sig

theorem leveled_fork (k : Kernel) : Leveled k (fork k).2 := by
  have hadd : ∀ (k : Kernel) (p : Fin 8), Leveled k (rqAdd k p) := by
    intro k p
    unfold rqAdd
    split <;> exact leveled_of_pcb rfl
  unfold fork
  split
  · exact (leveled_setPcb k (.inr rfl)).trans (hadd _ _)
  · exact .refl k

theorem leveled_linkFile (k : Kernel) (i : Fin 16) (o s : Fin 128) : Leveled k (linkFile k i o s) := by
  have hlink : (linkFile k i o s).pcb =
      (k.setPcb k.current { k.self with fd := Function.update k.self.fd i (some o) }).pcb := rfl
  intro p
  rw [hlink]
  apply leveled_setPcb
  exact .inl ⟨rfl, rfl⟩

theorem leveled_openFile (k : Kernel) (path : CStr) (oflag : OFlag) : Leveled k (openFile k path oflag).2 := by
  have hait : ∀ (k : Kernel) (ino : UInt32), Leveled k (getAIT k ino).2 := by
    intro k ino
    rcases getAIT_cases k ino with ⟨he, -⟩ | ⟨s, he, -⟩ | ⟨s, he, -⟩ <;> rw [he] <;> exact leveled_of_pcb rfl
  rcases hv : resolve k.vol path oflag with ⟨ino, v⟩
  have hvol : Leveled k { k with vol := v } := leveled_of_pcb rfl
  rcases openFile_cases k path oflag hv rfl with ⟨-, he⟩ | ⟨i, -, -, he⟩ | ⟨i, -, -, he⟩ |
    ⟨i, s, o, -, -, -, -, he⟩
  · rw [he]
    exact .refl k
  · rw [he]
    exact hvol
  · rw [he]
    exact hvol.trans (hait _ ino)
  · rw [he]
    exact (hvol.trans (hait _ ino)).trans (leveled_linkFile _ i o s)

theorem leveled_close (k : Kernel) (fd : Int) : Leveled k (close k fd).2 := by
  unfold close
  split
  · exact .refl k
  · refine Leveled.trans (leveled_of_pcb ?_) (leveled_setPcb _ (.inl ⟨rfl, rfl⟩))
    split
    · unfold unlinkAit
      dsimp only
      split <;> rfl
    · rfl

theorem leveled_fread (k : Kernel) (fd : Int) (n : UInt32) : Leveled k (fread k fd n).2.2 := by
  obtain ⟨of', he⟩ := fread_kernel k fd n
  rw [he]
  exact leveled_of_pcb rfl

theorem leveled_exec (k : Kernel) (path : CStr) : Leveled k (exec k path).2 := by
  have hread : Leveled k (getProgramEntry k path (word k.vol.stkBlk 0) (word k.vol.stkBlk 1)).2.2.2 := by
    unfold getProgramEntry
    split
    · have hopen := leveled_openFile k (strtokCut path) .oexist
      dsimp only
      split
      · exact ((hopen.trans (leveled_fread _ _ _)).trans (leveled_fread _ _ _)).trans (leveled_close _ _)
      · exact hopen
    · exact .refl k
  unfold exec
  dsimp only
  split
  · exact hread
  · exact hread.trans ((leveled_setPcb _ (.inr rfl)).trans (leveled_of_pcb rfl))

theorem leveled_setMq (k : Kernel) (m : Fin 32) (x : Mqueue) : Leveled k (setMq k m x) := leveled_of_pcb rfl

theorem leveled_mqSend (k : Kernel) (m : Fin 32) (msg : List UInt8) : Leveled k (mqSend k m msg).2 := by
  have hwait := (leveled_setMq k m { k.mq m with msgLspid := k.self.pid }).trans (leveled_kill _ k.self.pid .sigwait)
  unfold mqSend
  dsimp only
  split
  · split
    · exact ((hwait.trans (leveled_setMq _ _ _)).trans (leveled_kill _ _ _)).trans (leveled_setMq _ _ _)
    · exact hwait.trans (leveled_setMq _ _ _)
  · exact hwait

theorem leveled_mqReceive (k : Kernel) (m : Fin 32) (len : Nat) : Leveled k (mqReceive k m len).2.2 := by
  by_cases h : takes k m
  · rw [mqReceive_take len h]
    exact (leveled_setMq _ _ _).trans (leveled_kill _ _ _)
  · rw [mqReceive_wait len h]
    exact (leveled_setMq _ _ _).trans (leveled_kill _ _ _)

theorem leveled_setGpr0 (k : Kernel) (x : UInt32) : Leveled k (setGpr0 k x) := leveled_of_pcb rfl

theorem leveled_trapBody (k : Kernel) (c : Trap) : Leveled k (trapBody k c).1 := by
  cases c with
  | yield => exact .refl k
  | fork => exact (leveled_fork k).trans (leveled_setGpr0 _ _)
  | exec path => exact (leveled_exec k path).trans (leveled_setGpr0 _ _)
  | kill pid sig => exact leveled_killSig k pid sig
  | raise sig => exact leveled_killSig k _ sig
  | mqOpen name =>
    obtain ⟨mq', he⟩ := mqOpen_eq k name
    have hopen : Leveled k (mqOpen k name).2 := leveled_of_pcb (by rw [he])
    exact hopen.trans (leveled_setGpr0 _ _)
  | send m msg => exact (leveled_mqSend k m msg).trans (leveled_setGpr0 _ _)
  | receive m len => exact (leveled_mqReceive k m len).trans (leveled_setGpr0 _ _)
  | timer => exact .refl k
  | uart =>
    unfold trapBody
    dsimp only
    split
    · exact leveled_setPcb k (.inr rfl)
    · exact .refl k

/-! The countdown. -/

def AllBounded (k : Kernel) : Prop := ∀ p, (k.pcb p).prio ≤ (k.pcb p).defp

theorem AllBounded.leveled (h : AllBounded k) (hl : Leveled k k') : AllBounded k' := by
  intro p
  rcases hl p with ⟨hprio, hdefp⟩ | heq
  · rw [hprio, hdefp]
    exact h p
  · rw [heq]
    exact UInt32.le_refl _

theorem AllBounded.prioBounded (h : AllBounded k) : PrioBounded k := by
  intro _ p _ _
  exact h p

theorem sub_one_le {a b : UInt32} (h0 : a ≠ 0) (h : a ≤ b) : a - 1 ≤ b := by
  have hpos : a.toNat ≠ 0 := fun h => h0 (UInt32.toNat_inj.mp h)
  have hle := UInt32.le_iff_toNat_le.mp h
  have hsub : (a - 1).toNat = a.toNat - 1 := by
    apply UInt32.toNat_sub_of_le
    rw [UInt32.le_iff_toNat_le, UInt32.toNat_one]
    omega
  rw [UInt32.le_iff_toNat_le, hsub]
  omega

theorem leveled_resetPriorities (k : Kernel) : Leveled k (resetPriorities k) := by
  intro p
  unfold resetPriorities
  dsimp only
  split
  · exact .inr rfl
  · exact .inl ⟨rfl, rfl⟩

theorem head_priority {p : Fin 8} (hp : k.rq 0 = some p) (hsize : 0 < k.rqSize) :
    ((if (k.pcb p).prio = 0 then resetPriorities k else k).pcb p).prio =
        (if (k.pcb p).prio = 0 then (k.pcb p).defp else (k.pcb p).prio) ∧
      ((if (k.pcb p).prio = 0 then resetPriorities k else k).pcb p).defp = (k.pcb p).defp := by
  have hmem : ((List.finRange 8).any fun i => i.val < k.rqSize && k.rq i == some p) = true := by
    rw [List.any_eq_true]
    exact ⟨0, List.mem_finRange 0, by simp [hp, hsize]⟩
  split
  · unfold resetPriorities
    dsimp only
    rw [if_pos hmem]
    exact ⟨rfl, rfl⟩
  · exact ⟨rfl, rfl⟩

/-- A process that is dispatched keeps within its default priority, unless it
stays on the processor with a default priority of zero. -/
theorem AllBounded.dispatch (h : AllBounded k) {p : Fin 8} (hp : k.rq 0 = some p) (hsize : 0 < k.rqSize)
    (hd : k.current = p → (k.pcb p).defp ≠ 0) : AllBounded (dispatch k p) := by
  obtain ⟨hprio, hdefp⟩ := head_priority hp hsize
  have hcur : (if (k.pcb p).prio = 0 then resetPriorities k else k).current = k.current := by
    split <;> rfl
  have hreset : AllBounded (if (k.pcb p).prio = 0 then resetPriorities k else k) := by
    split
    · exact h.leveled (leveled_resetPriorities k)
    · exact h
  unfold Core.dispatch
  dsimp only
  generalize (if (k.pcb p).prio = 0 then resetPriorities k else k) = k₁ at hprio hdefp hcur hreset
  split
  · next hstay =>
    have hpos : (k₁.pcb p).prio ≠ 0 := by
      rw [hprio]
      split
      · exact hd (hcur ▸ hstay)
      · assumption
    intro q
    by_cases hq : q = p
    · subst hq
      simpa [Kernel.setPcb] using sub_one_le hpos (hreset q)
    · simpa [Kernel.setPcb, hq] using hreset q
  · intro q
    split
    · apply hreset.leveled (leveled_setPcb k₁ _) q
      exact .inl ⟨rfl, rfl⟩
    · exact hreset q

theorem dispatch_wraps (h : AllBounded k) {p : Fin 8} (hp : k.rq 0 = some p) (hsize : 0 < k.rqSize)
    (hcur : k.current = p) (hd : (k.pcb p).defp = 0) : ¬PrioBounded (dispatch k p) := by
  obtain ⟨hprio, hdefp⟩ := head_priority hp hsize
  have hzero : (k.pcb p).prio = 0 := by
    have := UInt32.le_iff_toNat_le.mp (h p)
    rw [hd] at this
    exact UInt32.toNat_inj.mp (Nat.le_zero.mp this)
  intro hbound
  obtain ⟨-, hrq, hsize'⟩ := dispatch_switched k p
  have := hbound 0 p (by rw [hsize']; exact hsize) (by rw [hrq]; exact hp)
  unfold dispatch at this
  rw [if_pos hzero] at this hprio hdefp
  dsimp only at this
  rw [if_pos (show (resetPriorities k).current = p from hcur)] at this
  simp only [Kernel.setPcb, Function.update_self] at this
  rw [hprio, hdefp, if_pos hzero, hd] at this
  exact absurd this (by decide)

/-! The scheduler. -/

variable {l : List (Fin 8)}

theorem Lined.inTurn_eq (h : Lined k l) : inTurn k = firstExecuting k (l.rotate 1) := by
  rw [inTurn, h.queue.holds.filterMap]

theorem scheduler_dispatch (hk : scheduler k = some k') : ∃ rq', rq' 0 = none ∧ k' = { k with rq := rq' } ∨
    ∃ p, rq' 0 = some p ∧ k' = dispatch { k with rq := rq' } p := by
  unfold scheduler at hk
  obtain ⟨k₁, hrot, hk₁⟩ := Option.map_eq_some_iff.mp hk
  have he := rotateLoop_eq hrot
  refine ⟨k₁.rq, ?_⟩
  split at hk₁
  · next p hp => exact .inr ⟨p, hp, by rw [← he, hk₁]⟩
  · next hp => exact .inl ⟨hp, by rw [← he, hk₁]⟩

theorem Lined.dispatches_inTurn (h : Lined k l) (hk : Core.scheduler k = some k') :
    inTurn k = none ∧ k'.pcb = k.pcb ∨
      ∃ p rq', inTurn k = some p ∧ 0 < k.rqSize ∧ rq' 0 = some p ∧ k' = dispatch { k with rq := rq' } p := by
  rw [h.inTurn_eq]
  cases l with
  | nil =>
    rw [h.queue.scheduler_nil] at hk
    cases hk
    exact .inl ⟨rfl, rfl⟩
  | cons x rest =>
    rw [List.rotate_cons_succ, List.rotate_zero]
    have hsize : 0 < k.rqSize := by
      rw [h.queue.size]
      exact Nat.succ_pos _
    cases hnext : firstExecuting k (rest ++ [x]) with
    | none =>
      rcases h.queue.scheduler_cases hk with ⟨hnil, -⟩ | ⟨x', rest', pre, y, post, hl, hsplit, hy, -⟩
      · cases hnil
      · cases hl
        have hmem : y ∈ rest ++ [x] := by
          rw [hsplit]
          simp
        have hsome := firstExecuting_isSome.mpr ⟨y, hmem, hy⟩
        rw [hnext] at hsome
        cases hsome
    | some y =>
      obtain ⟨k₁, hk₁, hcur, l', hq, hrot⟩ := h.dispatches hnext
      rw [hk] at hk₁
      cases hk₁
      obtain ⟨rq', ⟨hnone, he⟩ | ⟨p, hp, he⟩⟩ := scheduler_dispatch hk
      · -- the queue is not empty, so there is a process at its head
        have hlen : 0 < l'.length := by
          rw [hrot.perm.length_eq]
          exact Nat.succ_pos _
        have hhead := hq.holds.cell_lt (i := 0) hlen
        rw [he] at hhead
        exact absurd (hnone.symm.trans hhead) (by simp)
      · have hpy : p = y := by
          rw [← hcur, he]
          exact (dispatch_switched _ p).1.current.symm
        subst hpy
        exact .inr ⟨p, rq', rfl, hsize, hp, he⟩

theorem AllBounded.scheduler (hb : AllBounded k) (h : Lined k l) (hk : Core.scheduler k = some k')
    (hd : inTurn k = some k.current → k.self.defp ≠ 0) : AllBounded k' := by
  rcases h.dispatches_inTurn hk with ⟨-, he⟩ | ⟨p, rq', hp, hsize, hhead, rfl⟩
  · exact hb.leveled (leveled_of_pcb he)
  · have hturned : AllBounded { k with rq := rq' } := hb
    apply hturned.dispatch hhead hsize
    rintro rfl
    exact hd hp

theorem prioBounded_scheduler_iff (hb : AllBounded k) (h : Lined k l) (hk : Core.scheduler k = some k') :
    PrioBounded k' ↔ (inTurn k = some k.current → k.self.defp ≠ 0) := by
  constructor
  · intro hbound hcur hd
    rcases h.dispatches_inTurn hk with ⟨hnone, -⟩ | ⟨p, rq', hp, hsize, hhead, rfl⟩
    · rw [hnone] at hcur
      cases hcur
    · rw [hp] at hcur
      cases hcur
      have hturned : AllBounded { k with rq := rq' } := hb
      exact dispatch_wraps hturned hhead hsize rfl hd hbound
  · intro hd
    exact (hb.scheduler h hk hd).prioBounded

end

/-! Runs. -/

section

variable {k k' : Kernel} {l : List (Fin 8)} {c : Trap}

theorem AllBounded.trap (hb : AllBounded k) (h : Lined k l) (hc : pidInRange (.trap c)) (hkeep : KeepsPriority k c)
    (hk : trap k c = some k') : AllBounded k' := by
  obtain ⟨l₁, h₁⟩ := h.trapBody hc
  have hb₁ := hb.leveled (leveled_trapBody k c)
  unfold KeepsPriority at hkeep
  unfold Core.trap at hk
  generalize trapBody k c = r at h₁ hb₁ hkeep hk
  obtain ⟨k₁, b⟩ := r
  cases b with
  | true => exact hb₁.scheduler h₁ hk (hkeep rfl)
  | false =>
    cases hk
    exact hb₁

theorem prioBounded_trap_iff (hb : AllBounded k) (h : Lined k l) (hc : pidInRange (.trap c)) (hk : trap k c = some k') :
    PrioBounded k' ↔ KeepsPriority k c := by
  obtain ⟨l₁, h₁⟩ := h.trapBody hc
  have hb₁ := hb.leveled (leveled_trapBody k c)
  unfold KeepsPriority
  unfold Core.trap at hk
  generalize trapBody k c = r at h₁ hb₁ hk ⊢
  obtain ⟨k₁, b⟩ := r
  cases b with
  | true =>
    rw [prioBounded_scheduler_iff hb₁ h₁ hk]
    simp
  | false =>
    cases hk
    simp [hb₁.prioBounded]

def BoundedReached (s : Option Kernel) : Prop := ∀ k, s = some k → AllBounded k ∧ ∃ l, Lined k l

theorem boundedReached_step (s : Option Kernel) (c : Trap) (h : BoundedReached s) (hok : prioStepOk s c) :
    BoundedReached (trapStep s c) := by
  intro k' hk'
  obtain ⟨k, hk, ht⟩ := Option.bind_eq_some_iff.mp hk'
  obtain ⟨hb, l, hl⟩ := h k hk
  obtain ⟨hc, hkeep⟩ := hok k hk
  exact ⟨hb.trap hl hc hkeep ht, Lined.svc (c := .trap c) hl hc ht⟩

theorem allBounded_boot (v : Vol) (link : Link) : AllBounded (boot v link) := by
  intro p
  by_cases hp : p = 0
  · subst hp
    exact UInt32.le_refl _
  · have hzero : (boot v link).pcb p = Pcb.zero := by
      simp [boot, kernelHandlerRst, rqAdd, Kernel.setPcb, hp, powerOn]
    rw [hzero]
    exact UInt32.le_refl _

end

/-- Priorities do not wrap around in a run in which no call of the scheduler
leaves a process of default priority zero on the processor; and in every state
such a run reaches, the next trap keeps them bounded if and only if it does not
either. -/
theorem priorities_bounded (v : Vol) (link : Link) (calls : List Trap)
    (hc : Along trapStep prioStepOk (some (boot v link)) calls) (k : Kernel)
    (hk : run trapStep (some (boot v link)) calls = some k) :
    PrioBounded k ∧ ∀ c k', pidInRange (.trap c) → trap k c = some k' → (PrioBounded k' ↔ KeepsPriority k c) := by
  have hboot : BoundedReached (some (boot v link)) := by
    rintro k ⟨⟩
    exact ⟨allBounded_boot v link, [0], (rqInv_boot v link).lined⟩
  obtain ⟨hb, l, hl⟩ := invariant boundedReached_step hboot hc k hk
  exact ⟨hb.prioBounded, fun c k' hin ht => prioBounded_trap_iff hb hl hin ht⟩

/-- A second process takes over from one that has lowered its priority. -/
theorem priorities_bounded_two : ∃ k,
    run trapStep (some (boot fullVol noLink)) [.fork, .raise (some .sigpri0)] = some k ∧ PrioBounded k ∧
      (k.pcb 0).defp = 0 := by
  have hc : Along trapStep prioStepOk (some (boot fullVol noLink)) [.fork, .raise (some .sigpri0)] := by
    refine ⟨?_, ?_, trivial⟩
    · rintro k ⟨⟩
      exact ⟨trivial, fun h => absurd h (by decide)⟩
    · rintro k ⟨⟩
      refine ⟨trivial, fun _ hturn => absurd hturn ?_⟩
      decide
  exact ⟨_, rfl, (priorities_bounded fullVol noLink _ hc _ rfl).1, rfl⟩

/-- The only process lowers its priority, as `init` does after each command. -/
theorem only_process_wraps : ∃ k, run trapStep (some (boot fullVol noLink)) [.raise (some .sigpri0)] = some k ∧
    ¬PrioBounded k ∧ (k.pcb 0).prio = 0xFFFFFFFF ∧ (k.pcb 0).defp = 0 := by
  refine ⟨_, rfl, fun h => ?_, rfl, rfl⟩
  exact absurd (h 0 0 (by decide) rfl) (by decide)

end ArmKernel.Core
