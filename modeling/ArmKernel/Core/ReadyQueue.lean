import ArmKernel.Core.Scheduler
import ArmKernel.Core.ChannelDelivery
import ArmKernel.Core.Tables
import ArmKernel.Lib.Slots

/-! The ready queue over whole runs: the array holds a list without repetition
of exactly the processes that have not terminated. -/
namespace ArmKernel.Core

open Lib Lib.Bytes Lib.Run Lib.Slots Fs

structure Queue (k : Kernel) (l : List (Fin 8)) : Prop where
  holds : Holds k.rq l
  size : k.rqSize = l.length

section

variable {k k' : Kernel} {l : List (Fin 8)} {p : Fin 8}

theorem Queue.congr (h : Queue k l) (hrq : k'.rq = k.rq) (hsize : k'.rqSize = k.rqSize) : Queue k' l := by
  refine ⟨?_, hsize.trans h.size⟩
  rw [hrq]
  exact h.holds

theorem length_le_seven (hl : l.Nodup) (hp : p ∉ l) : l.length < 8 := by
  have := (List.nodup_cons.mpr ⟨hp, hl⟩).length_le_card
  simp only [List.length_cons, Fintype.card_fin] at this
  omega

/-! Its operations. -/

theorem Queue.add (h : Queue k l) (hlt : l.length < 8) (p : Fin 8) : Queue (rqAdd k p) (l ++ [p]) := by
  have hk : k.rqSize < 8 := by rw [h.size]; exact hlt
  unfold rqAdd
  rw [dif_pos hk]
  refine ⟨?_, ?_⟩
  · have := h.holds.push hlt p
    simp only [h.size]
    exact this
  · simp [h.size]

theorem Queue.rmStep_or (h : Queue k l) (pid : Int) (i : Fin 8) :
    (∃ q, l[i.val]? = some q ∧ (k.pcb q).pid = pid ∧ Queue (rqRmStep pid k i) (l.eraseIdx i.val)) ∨
      (∀ q, l[i.val]? = some q → (k.pcb q).pid ≠ pid) ∧ rqRmStep pid k i = k := by
  unfold rqRmStep
  rw [h.holds.cells]
  by_cases hlt : i.val < l.length
  · rw [if_pos (by rw [h.size]; exact hlt), List.getElem?_eq_getElem hlt]
    dsimp only
    by_cases hpid : (k.pcb l[i.val]).pid = pid
    · refine .inl ⟨_, rfl, hpid, ?_⟩
      rw [if_pos hpid]
      refine ⟨h.holds.close hlt fun j => ?_, ?_⟩
      · simp only [rqClose, h.size]
      · simp only [h.size, List.length_eraseIdx_of_lt hlt]
    · refine .inr ⟨fun q hq => ?_, if_neg hpid⟩
      cases hq
      exact hpid
  · rw [if_neg (by rw [h.size]; exact hlt), List.getElem?_eq_none (by omega)]
    exact .inr ⟨by simp, rfl⟩

theorem Queue.rmStep (h : Queue k l) (hl : l.Nodup) (hpid : ∀ q ∈ l, (k.pcb q).pid = q.val) (i : Fin 8) :
    Queue (rqRmStep p.val k i) (if l[i.val]? = some p then l.erase p else l) := by
  rcases h.rmStep_or p.val i with ⟨q, hget, hq, hstep⟩ | ⟨hno, hstep⟩
  · have hqp : q = p := by
      rw [hpid q (List.mem_of_getElem? hget)] at hq
      exact Fin.ext (by omega)
    rw [hqp] at hget
    obtain ⟨hlt, hp⟩ := List.getElem?_eq_some_iff.mp hget
    have herase : l.erase p = l.eraseIdx i.val := by
      rw [← hp]
      exact List.Nodup.erase_getElem hl i.val hlt
    rw [if_pos hget, herase]
    exact hstep
  · have hget : l[i.val]? ≠ some p := fun hget => hno p hget (hpid p (List.mem_of_getElem? hget))
    rw [if_neg hget, hstep]
    exact h

theorem rqRmStep_pcb (pid : Int) (k : Kernel) (i : Fin 8) : (rqRmStep pid k i).pcb = k.pcb := by
  unfold rqRmStep
  split
  · split
    · split <;> rfl
    · rfl
  · rfl

theorem Queue.rm (h : Queue k l) (hl : l.Nodup) (hpid : ∀ q ∈ l, (k.pcb q).pid = q.val) :
    Queue (rqRm k p.val) (l.erase p) := by
  have hrun : ∀ (is : List (Fin 8)) (k : Kernel) (l : List (Fin 8)), Queue k l → l.Nodup →
      (∀ q ∈ l, (k.pcb q).pid = q.val) → Queue (is.foldl (rqRmStep p.val) k)
        (if ∃ i ∈ is, l[i.val]? = some p then l.erase p else l) := by
    intro is
    induction is with
    | nil =>
      intro k l h _ _
      simpa using h
    | cons i rest ih =>
      intro k l h hl hpid
      have hstep := h.rmStep (p := p) hl hpid i
      rw [List.foldl_cons]
      by_cases hi : l[i.val]? = some p
      · rw [if_pos hi] at hstep
        have hgone : p ∉ l.erase p := fun hmem => (List.Nodup.mem_erase_iff hl).mp hmem |>.1 rfl
        have := ih _ _ hstep (hl.erase p) fun q hq => by
          rw [rqRmStep_pcb]
          exact hpid q (List.mem_of_mem_erase hq)
        rw [if_neg (by rintro ⟨j, -, hj⟩; exact hgone (List.mem_of_getElem? hj))] at this
        rwa [if_pos ⟨i, List.mem_cons_self, hi⟩]
      · rw [if_neg hi] at hstep
        have := ih _ _ hstep hl fun q hq => by
          rw [rqRmStep_pcb]
          exact hpid q hq
        have hiff : (∃ j ∈ i :: rest, l[j.val]? = some p) ↔ ∃ j ∈ rest, l[j.val]? = some p := by
          simp [hi]
        simpa only [hiff] using this
  have := hrun (List.finRange 8) k l h hl hpid
  by_cases hp : p ∈ l
  · obtain ⟨i, hi⟩ := h.holds.mem_iff.mp hp
    rwa [if_pos ⟨i, List.mem_finRange i, by rw [← h.holds.cells, hi]⟩] at this
  · rw [List.erase_of_not_mem hp]
    rwa [if_neg (by rintro ⟨j, -, hj⟩; exact hp (List.mem_of_getElem? hj))] at this

theorem Queue.rotateOnce (h : Queue k l) : Queue (rotateOnce k) (l.rotate 1) := by
  refine ⟨?_, by simpa [Core.rotateOnce] using h.size⟩
  cases l with
  | nil =>
    refine ⟨by simp, fun i => ?_⟩
    have hnone : ∀ j : Fin 8, k.rq j = none := fun j => h.holds.cell_ge (by simp)
    simp [Core.rotateOnce, rqTurn, hnone]
  | cons x rest =>
    have hhead : k.rq 0 = some x := h.holds.cells 0
    have hend : (if (k.rq 0).isNone = true then k.rqSize else k.rqSize - 1) = rest.length := by
      rw [hhead, h.size]
      simp
    unfold Core.rotateOnce
    rw [hend]
    apply h.holds.rotate
    intro i
    unfold rqTurn
    dsimp only
    by_cases hlast : i.val + 1 = (x :: rest).length
    · rw [if_pos (by simpa using hlast), if_pos hlast]
      rfl
    · have hne : i.val ≠ rest.length := by simpa using hlast
      rw [if_neg hne, if_neg hlast]
      simp only [List.length_cons, Nat.add_lt_add_iff_right]

theorem rotateLoop_eq {fuel : Nat} (hk : rotateLoop fuel k = some k') : k' = { k with rq := k'.rq } := by
  induction fuel generalizing k with
  | zero => cases hk
  | succ fuel ih =>
    unfold rotateLoop at hk
    dsimp only at hk
    split at hk
    · cases hk
      rfl
    · split at hk
      · rw [ih hk]
        rfl
      · cases hk
        rfl

/-! When `rq_rotate` returns. -/

theorem rotateLoop_none (h : Queue k l) (hne : l ≠ []) (hno : ∀ p ∈ l, (k.pcb p).pst ≠ .executing)
    (fuel : Nat) : rotateLoop fuel k = none := by
  induction fuel generalizing k l with
  | zero => rfl
  | succ fuel ih =>
    have hone := h.rotateOnce
    have hmem : ∀ p, p ∈ l.rotate 1 → ((rotateOnce k).pcb p).pst ≠ .executing := fun p hp =>
      hno p (List.mem_rotate.mp hp)
    have hne' : l.rotate 1 ≠ [] := fun he => hne (List.rotate_eq_nil_iff.mp he)
    unfold rotateLoop
    dsimp only
    obtain ⟨x, rest, hx⟩ := List.exists_cons_of_ne_nil hne'
    have hhead : (rotateOnce k).rq 0 = some x := by
      rw [hone.holds.cells, hx]
      rfl
    rw [hhead]
    dsimp only
    rw [if_pos (hmem x (by rw [hx]; exact List.mem_cons_self))]
    exact ih hone hne' hmem

theorem Queue.rotate_first {x y : Fin 8} {rest pre post : List (Fin 8)} (h : Queue k (x :: rest))
    (hl : rest ++ [x] = pre ++ y :: post) (hpre : ∀ p ∈ pre, (k.pcb p).pst ≠ .executing)
    (hy : (k.pcb y).pst = .executing) {fuel : Nat} (hfuel : pre.length < fuel) :
    ∃ k', rotateLoop fuel k = some k' ∧ Queue k' (y :: (post ++ pre)) := by
  induction pre generalizing k x rest post fuel with
  | nil =>
    obtain ⟨fuel, rfl⟩ : ∃ f, fuel = f + 1 := ⟨fuel - 1, by simp at hfuel; omega⟩
    have hone := h.rotateOnce
    rw [List.rotate_cons_succ, List.rotate_zero, hl] at hone
    have hhead : (Core.rotateOnce k).rq 0 = some y := hone.holds.cells 0
    refine ⟨Core.rotateOnce k, ?_, by simpa using hone⟩
    unfold rotateLoop
    dsimp only
    rw [hhead]
    exact if_neg (not_not_intro hy)
  | cons z pre ih =>
    obtain ⟨fuel, rfl⟩ : ∃ f, fuel = f + 1 := ⟨fuel - 1, by simp at hfuel; omega⟩
    have hone := h.rotateOnce
    rw [List.rotate_cons_succ, List.rotate_zero, hl] at hone
    have hhead : (Core.rotateOnce k).rq 0 = some z := hone.holds.cells 0
    have hnext : pre ++ y :: post ++ [z] = pre ++ y :: (post ++ [z]) := by simp
    obtain ⟨k', hk', hq⟩ := ih hone hnext (fun p hp => hpre p (List.mem_cons_of_mem z hp)) hy
      (by simpa using hfuel)
    refine ⟨k', ?_, by simpa using hq⟩
    unfold rotateLoop
    dsimp only
    rw [hhead]
    exact (if_pos (hpre z List.mem_cons_self)).trans hk'

theorem exists_first {x : Fin 8} {rest : List (Fin 8)} (hex : ∃ p ∈ x :: rest, (k.pcb p).pst = .executing) :
    ∃ pre y post, rest ++ [x] = pre ++ y :: post ∧ (∀ p ∈ pre, (k.pcb p).pst ≠ .executing) ∧
      (k.pcb y).pst = .executing := by
  obtain ⟨p, hp, hpe⟩ := hex
  have hsome : ((rest ++ [x]).find? fun p => (k.pcb p).pst == .executing).isSome = true := by
    rw [List.find?_isSome]
    exact ⟨p, by simpa [or_comm] using hp, by simpa using hpe⟩
  obtain ⟨y, hy⟩ := Option.isSome_iff_exists.mp hsome
  obtain ⟨hye, pre, post, hl, hpre⟩ := List.find?_eq_some_iff_append.mp hy
  exact ⟨pre, y, post, hl, fun q hq => by simpa using hpre q hq, by simpa using hye⟩

/-! The scheduler. -/

structure Switched (k k' : Kernel) (p : Fin 8) : Prop where
  current : k'.current = p
  mq : k'.mq = k.mq
  pid : ∀ q, (k'.pcb q).pid = (k.pcb q).pid
  pst : ∀ q, (k'.pcb q).pst = (k.pcb q).pst

theorem pcb_resetPriorities (k : Kernel) (p : Fin 8) :
    ((resetPriorities k).pcb p).pid = (k.pcb p).pid ∧ ((resetPriorities k).pcb p).pst = (k.pcb p).pst ∧
      ((resetPriorities k).pcb p).ctx = (k.pcb p).ctx := by
  unfold resetPriorities
  dsimp only
  split <;> exact ⟨rfl, rfl, rfl⟩

theorem dispatch_switched (k : Kernel) (p : Fin 8) : Switched k (dispatch k p) p ∧
    (dispatch k p).rq = k.rq ∧ (dispatch k p).rqSize = k.rqSize := by
  have hreset : Switched k (if (k.pcb p).prio = 0 then resetPriorities k else k) k.current ∧
      (if (k.pcb p).prio = 0 then resetPriorities k else k).rq = k.rq ∧
      (if (k.pcb p).prio = 0 then resetPriorities k else k).rqSize = k.rqSize := by
    split
    · exact ⟨⟨rfl, rfl, fun q => (pcb_resetPriorities k q).1, fun q => (pcb_resetPriorities k q).2.1⟩, rfl, rfl⟩
    · exact ⟨⟨rfl, rfl, fun _ => rfl, fun _ => rfl⟩, rfl, rfl⟩
  unfold dispatch
  dsimp only
  generalize (if (k.pcb p).prio = 0 then resetPriorities k else k) = k₁ at hreset
  obtain ⟨hs, hrq, hsize⟩ := hreset
  have hpid : ∀ (q : Fin 8) (x : Pcb), x.pid = (k₁.pcb q).pid →
      ∀ r, ((k₁.setPcb q x).pcb r).pid = (k.pcb r).pid := by
    intro q x hx r
    by_cases hr : r = q
    · subst hr
      simp [Kernel.setPcb, hx, hs.pid]
    · simp [Kernel.setPcb, hr, hs.pid]
  have hpst : ∀ (q : Fin 8) (x : Pcb), x.pst = (k₁.pcb q).pst →
      ∀ r, ((k₁.setPcb q x).pcb r).pst = (k.pcb r).pst := by
    intro q x hx r
    by_cases hr : r = q
    · subst hr
      simp [Kernel.setPcb, hx, hs.pst]
    · simp [Kernel.setPcb, hr, hs.pst]
  split
  · next hcur => exact ⟨⟨hcur, hs.mq, hpid p _ rfl, hpst p _ rfl⟩, hrq, hsize⟩
  · dsimp only
    split
    · exact ⟨⟨rfl, hs.mq, hpid _ _ rfl, hpst _ _ rfl⟩, hrq, hsize⟩
    · exact ⟨⟨rfl, hs.mq, hs.pid, hs.pst⟩, hrq, hsize⟩

theorem Queue.scheduler {x y : Fin 8} {rest pre post : List (Fin 8)} (h : Queue k (x :: rest))
    (hl : rest ++ [x] = pre ++ y :: post) (hpre : ∀ p ∈ pre, (k.pcb p).pst ≠ .executing)
    (hy : (k.pcb y).pst = .executing) :
    ∃ k', scheduler k = some k' ∧ Queue k' (y :: (post ++ pre)) ∧ Switched k k' y := by
  have hfits := h.holds.fits
  have hlen := congrArg List.length hl
  simp only [List.length_append, List.length_cons, List.length_nil] at hlen hfits
  obtain ⟨k₁, hrot, hq⟩ := h.rotate_first hl hpre hy (show pre.length < 8 by omega)
  have he := rotateLoop_eq hrot
  have hhead : k₁.rq 0 = some y := hq.holds.cells 0
  obtain ⟨hs, hrq, hsize⟩ := dispatch_switched k₁ y
  refine ⟨dispatch k₁ y, ?_, hq.congr hrq hsize, hs.current, ?_, fun q => ?_, fun q => ?_⟩
  · unfold Core.scheduler rqRotate
    rw [hrot, Option.map_some, hhead]
  · rw [hs.mq, he]
  · rw [hs.pid, he]
  · rw [hs.pst, he]

theorem Queue.scheduler_nil (h : Queue k []) : Core.scheduler k = some (Core.rotateOnce k) := by
  have hnone : (Core.rotateOnce k).rq 0 = none := h.rotateOnce.holds.cell_ge (by simp)
  simp [Core.scheduler, rqRotate, rotateLoop, hnone]

theorem Queue.scheduler_cases (h : Queue k l) (hk : Core.scheduler k = some k') :
    (l = [] ∧ k' = Core.rotateOnce k) ∨
    ∃ x rest pre y post, l = x :: rest ∧ rest ++ [x] = pre ++ y :: post ∧ (k.pcb y).pst = .executing ∧
      Queue k' (y :: (post ++ pre)) ∧ Switched k k' y := by
  cases l with
  | nil =>
    rw [h.scheduler_nil] at hk
    exact .inl ⟨rfl, (Option.some.inj hk).symm⟩
  | cons x rest =>
    right
    by_cases hex : ∃ p ∈ x :: rest, (k.pcb p).pst = .executing
    · obtain ⟨pre, y, post, hl, hpre, hy⟩ := exists_first hex
      obtain ⟨k₁, hk₁, hq, hs⟩ := h.scheduler hl hpre hy
      rw [hk₁] at hk
      cases hk
      exact ⟨x, rest, pre, y, post, rfl, hl, hy, hq, hs⟩
    · push Not at hex
      unfold Core.scheduler rqRotate at hk
      rw [rotateLoop_none h (by simp) hex] at hk
      cases hk

end

/-! The invariant. -/

/-- Processes in the queue have not terminated, and they and the one on the
processor carry their own index as their number. -/
structure Lined (k : Kernel) (l : List (Fin 8)) : Prop where
  queue : Queue k l
  nodup : l.Nodup
  live : ∀ p ∈ l, (k.pcb p).pst ≠ .terminated
  pid : ∀ p ∈ l, (k.pcb p).pid = p.val
  self : k.self.pid = k.current.val

/-- The queue is the live processes; a process in it, and the one on the
processor, carries its own index as its number. -/
structure RqInv (k : Kernel) (l : List (Fin 8)) : Prop where
  queue : Queue k l
  nodup : l.Nodup
  live : ∀ p, p ∈ l ↔ (k.pcb p).pst ≠ .terminated
  pid : ∀ p ∈ l, (k.pcb p).pid = p.val
  self : k.self.pid = k.current.val

section

variable {k k' : Kernel} {l : List (Fin 8)} {p : Fin 8}

theorem RqInv.lined (h : RqInv k l) : Lined k l :=
  ⟨h.queue, h.nodup, fun p hp => (h.live p).mp hp, h.pid, h.self⟩

theorem Lined.rqInv (h : Lined k l) (hc : ∀ p, (k.pcb p).pst ≠ .terminated → p ∈ l) : RqInv k l :=
  ⟨h.queue, h.nodup, fun p => ⟨h.live p, hc p⟩, h.pid, h.self⟩

theorem Lined.of_same (h : Lined k l) (hrq : k'.rq = k.rq) (hsize : k'.rqSize = k.rqSize)
    (hcur : k'.current = k.current) (hpid : ∀ p, (k'.pcb p).pid = (k.pcb p).pid)
    (hpst : ∀ p, (k'.pcb p).pst = .terminated → (k.pcb p).pst = .terminated) : Lined k' l := by
  refine ⟨h.queue.congr hrq hsize, h.nodup, fun p hp he => h.live p hp (hpst p he), fun p hp => ?_, ?_⟩
  · rw [hpid, h.pid p hp]
  · rw [Kernel.self, hcur, hpid]
    exact h.self

theorem RqInv.of_same (h : RqInv k l) (hrq : k'.rq = k.rq) (hsize : k'.rqSize = k.rqSize)
    (hcur : k'.current = k.current) (hpid : ∀ p, (k'.pcb p).pid = (k.pcb p).pid)
    (hpst : ∀ p, (k'.pcb p).pst = .terminated ↔ (k.pcb p).pst = .terminated) : RqInv k' l := by
  apply (h.lined.of_same hrq hsize hcur hpid fun p => (hpst p).mp).rqInv
  intro p hp
  rw [h.live]
  exact fun he => hp ((hpst p).mpr he)

theorem pcb_setPst (k : Kernel) (p q : Fin 8) (s : Pst) : ((setPst k p s).pcb q).pid = (k.pcb q).pid ∧
    ((setPst k p s).pcb q).pst = if q = p then s else (k.pcb q).pst := by
  by_cases hq : q = p
  · subst hq
    simp [setPst, Kernel.setPcb]
  · simp [setPst, Kernel.setPcb, hq]

theorem Lined.setPst (h : Lined k l) {s : Pst} (hs : s ≠ .terminated) : Lined (setPst k p s) l := by
  refine h.of_same rfl rfl rfl (fun q => (pcb_setPst k p q s).1) fun q he => ?_
  rw [(pcb_setPst k p q s).2] at he
  split at he
  · exact absurd he hs
  · exact he

theorem RqInv.setPst (h : RqInv k l) {s : Pst} (hp : (k.pcb p).pst ≠ .terminated)
    (hs : s ≠ .terminated) : RqInv (setPst k p s) l := by
  apply (h.lined.setPst hs).rqInv
  intro q hq
  rw [(pcb_setPst k p q s).2] at hq
  rw [h.live]
  split at hq
  · next hqp => rwa [hqp]
  · exact hq

theorem pcb_sigkill (k : Kernel) (p q : Fin 8) : ((signal k p .sigkill).pcb q).pid = (k.pcb q).pid ∧
    ((signal k p .sigkill).pcb q).pst = if q = p then .terminated else (k.pcb q).pst := by
  obtain ⟨rq, n, he⟩ := rqRm_eq (Core.setPst k p .terminated) p.val
  unfold signal
  dsimp only
  rw [he]
  exact pcb_setPst k p q .terminated

theorem Lined.sigkill (h : Lined k l) (p : Fin 8) : Lined (signal k p .sigkill) (l.erase p) := by
  have hq : Queue (signal k p .sigkill) (l.erase p) := by
    refine Queue.rm (h.queue.congr rfl rfl) h.nodup fun q hq => ?_
    rw [(pcb_setPst k p q _).1, h.pid q hq]
  refine ⟨hq, h.nodup.erase p, fun q hmem => ?_, fun q hmem => ?_, ?_⟩
  · obtain ⟨hne, hmem⟩ := h.nodup.mem_erase_iff.mp hmem
    rw [(pcb_sigkill k p q).2, if_neg hne]
    exact h.live q hmem
  · rw [(pcb_sigkill k p q).1, h.pid q (List.mem_of_mem_erase hmem)]
  · have hcur : (signal k p .sigkill).current = k.current := by
      obtain ⟨rq, n, he⟩ := rqRm_eq (Core.setPst k p .terminated) p.val
      unfold signal
      dsimp only
      rw [he]
      rfl
    rw [Kernel.self, hcur, (pcb_sigkill k p _).1]
    exact h.self

theorem RqInv.sigkill (h : RqInv k l) (p : Fin 8) : RqInv (signal k p .sigkill) (l.erase p) := by
  apply (h.lined.sigkill p).rqInv
  intro q hq
  rw [(pcb_sigkill k p q).2] at hq
  split at hq
  · exact absurd rfl hq
  · next hne => exact h.nodup.mem_erase_iff.mpr ⟨hne, (h.live q).mpr hq⟩

theorem pcb_sigpri0 (k : Kernel) (p q : Fin 8) : ((signal k p .sigpri0).pcb q).pid = (k.pcb q).pid ∧
    ((signal k p .sigpri0).pcb q).pst = (k.pcb q).pst := by
  by_cases hq : q = p
  · subst hq
    simp [signal, Kernel.setPcb]
  · simp [signal, Kernel.setPcb, hq]

theorem Lined.signal (h : Lined k l) (p : Fin 8) (sig : Sig) : ∃ l', Lined (signal k p sig) l' := by
  cases sig with
  | sigkill => exact ⟨_, h.sigkill p⟩
  | sigwait => exact ⟨l, h.setPst (by decide)⟩
  | sigcont =>
    refine ⟨l, ?_⟩
    unfold Core.signal
    dsimp only
    split
    · exact h.setPst (by decide)
    · exact h
  | sigpri0 =>
    refine ⟨l, h.of_same rfl rfl rfl (fun q => (pcb_sigpri0 k p q).1) fun q he => ?_⟩
    rwa [(pcb_sigpri0 k p q).2] at he

theorem RqInv.signal (h : RqInv k l) (p : Fin 8) {sig : Sig}
    (hw : sig = .sigwait → (k.pcb p).pst ≠ .terminated) : ∃ l', RqInv (signal k p sig) l' := by
  cases sig with
  | sigkill => exact ⟨_, h.sigkill p⟩
  | sigwait => exact ⟨l, h.setPst (hw rfl) (by decide)⟩
  | sigcont =>
    refine ⟨l, ?_⟩
    unfold Core.signal
    dsimp only
    split
    · next hwait => exact h.setPst (by rw [hwait]; decide) (by decide)
    · exact h
  | sigpri0 =>
    refine ⟨l, h.of_same rfl rfl rfl (fun q => (pcb_sigpri0 k p q).1) fun q => ?_⟩
    rw [(pcb_sigpri0 k p q).2]

theorem Lined.kill (h : Lined k l) {pid : Int} {sig : Sig} (hp : sig = .sigkill → pid ≠ 9) :
    ∃ l', Lined (kill k pid sig) l' := by
  unfold Core.kill
  split
  · split
    · exact h.signal _ sig
    · exact ⟨l, h⟩
  · split
    · next hall => exact absurd hall.1 (hp hall.2)
    · exact ⟨l, h⟩

/-- Where `kill` keeps the queue: SIGWAIT goes to a live process, and the
kill-all number is used only when there is nobody but process 0. -/
def killOk (k : Kernel) (pid : Int) (sig : Sig) : Prop :=
  (sig = .sigwait → ∀ p : Fin 8, pid = p.val → (k.pcb p).pst ≠ .terminated) ∧
    (sig = .sigkill → pid = 9 → ∀ p : Fin 8, p ≠ 0 → (k.pcb p).pst = .terminated)

theorem RqInv.kill (h : RqInv k l) {pid : Int} {sig : Sig} (hok : killOk k pid sig) :
    ∃ l', RqInv (kill k pid sig) l' := by
  unfold Core.kill
  split
  · split
    · next hr hlt => exact h.signal _ fun hs => hok.1 hs _ (by simp; omega)
    · exact ⟨l, h⟩
  · split
    · next hall =>
      refine ⟨l, h.of_same rfl rfl rfl (fun q => ?_) fun q => ?_⟩
      · dsimp only
        split <;> rfl
      · dsimp only
        split
        · rfl
        · next hq => simp [hok.2 hall.2 hall.1 q hq]
    · exact ⟨l, h⟩

theorem pcb_fork (k : Kernel) : ((∀ q, (k.pcb q).pst ≠ .terminated) ∧ fork k = (noAddr, k)) ∨
    ∃ (p : Fin 8) (x : Pcb), (k.pcb p).pst = .terminated ∧ x.pid = p.val ∧ x.pst = .executing ∧
      x.fd = (k.pcb p).fd ∧ fork k = (UInt32.ofNat p.val, rqAdd (k.setPcb p x) p) ∧
      ∀ q, (rqAdd (k.setPcb p x) p).pcb q = if q = p then x else k.pcb q := by
  unfold fork
  cases hfind : (List.finRange 8).find? fun p => (k.pcb p).pst == .terminated with
  | none =>
    refine .inl ⟨fun q hq => ?_, rfl⟩
    have := List.find?_eq_none.mp hfind q (List.mem_finRange q)
    simp [hq] at this
  | some p =>
    set child : Pcb := { k.pcb p with
      pid := p.val
      prt := k.self.pid
      ctx := { k.ctx with gpr := Function.update k.ctx.gpr 0 0 }
      pst := .executing
      defp := 0x7FFFFFFF
      prio := 0x7FFFFFFF } with hchild
    refine .inr ⟨p, child, by simpa using List.find?_some hfind, rfl, rfl, rfl, rfl, fun q => ?_⟩
    rw [(rqAdd_tables _ p).2.2]
    by_cases hq : q = p
    · subst hq
      simp [Kernel.setPcb]
    · simp [Kernel.setPcb, hq]

theorem rqAdd_current (k : Kernel) (p : Fin 8) : (rqAdd k p).current = k.current := by
  unfold rqAdd
  split <;> rfl

theorem Lined.add (h : Lined k l) {x : Pcb} (hterm : (k.pcb p).pst = .terminated) (hpid : x.pid = p.val)
    (hpst : x.pst = .executing)
    (hpcb : ∀ q, (rqAdd (k.setPcb p x) p).pcb q = if q = p then x else k.pcb q) :
    Lined (rqAdd (k.setPcb p x) p) (l ++ [p]) := by
  have hnot : p ∉ l := fun hmem => h.live p hmem hterm
  have hqueue : Queue (k.setPcb p x) l := h.queue.congr rfl rfl
  refine ⟨hqueue.add (length_le_seven h.nodup hnot) p, ?_, fun q hq => ?_, fun q hq => ?_, ?_⟩
  · exact List.nodup_append'.mpr ⟨h.nodup, List.nodup_singleton p, by simpa using hnot⟩
  · rw [hpcb]
    split
    · rw [hpst]
      decide
    · next hqp => exact h.live q ((List.mem_append.mp hq).resolve_right (by simpa using hqp))
  · rw [hpcb]
    split
    · next hqp => rw [hpid, hqp]
    · next hqp => exact h.pid q ((List.mem_append.mp hq).resolve_right (by simpa using hqp))
  · rw [Kernel.self, rqAdd_current, hpcb]
    change _ = (k.current.val : Int)
    split
    · next hqp =>
      rw [hpid, ← hqp]
      rfl
    · exact h.self

theorem Lined.fork (h : Lined k l) : ∃ l', Lined (fork k).2 l' := by
  obtain ⟨-, he⟩ | ⟨p, x, hterm, hpid, hpst, -, he, hpcb⟩ := pcb_fork k
  · rw [he]
    exact ⟨l, h⟩
  · rw [he]
    exact ⟨l ++ [p], h.add hterm hpid hpst hpcb⟩

theorem RqInv.fork (h : RqInv k l) : ∃ l', RqInv (fork k).2 l' ∧ ∀ p : Fin 8,
    (fork k).1 = UInt32.ofNat p.val → p ∈ l' := by
  obtain ⟨-, he⟩ | ⟨p, x, hterm, hpid, hpst, -, he, hpcb⟩ := pcb_fork k
  · rw [he]
    refine ⟨l, h, fun p hp => ?_⟩
    have := congrArg UInt32.toNat hp
    rw [UInt32.toNat_ofNat', Nat.mod_eq_of_lt (by omega)] at this
    simp only [noAddr] at this
    have hlt := p.isLt
    simp at this
    omega
  · rw [he]
    refine ⟨l ++ [p], (h.lined.add hterm hpid hpst hpcb).rqInv fun q hq => ?_, fun q hq => ?_⟩
    · rw [hpcb] at hq
      rw [List.mem_append, List.mem_singleton]
      split at hq
      · next hqp => exact .inr hqp
      · exact .inl ((h.live q).mpr hq)
    · have : p = q := by
        apply Fin.ext
        have := congrArg UInt32.toNat hq
        simp only [UInt32.toNat_ofNat'] at this
        omega
      simp [this]

/-! `exec` reads its program through the file calls. -/

structure SameProcs (k k' : Kernel) : Prop where
  rq : k'.rq = k.rq
  size : k'.rqSize = k.rqSize
  current : k'.current = k.current
  ctx : k'.ctx = k.ctx
  pcb : ∀ p, (k'.pcb p).pid = (k.pcb p).pid ∧ (k'.pcb p).pst = (k.pcb p).pst ∧
    (k'.pcb p).ctx = (k.pcb p).ctx

theorem SameProcs.refl (k : Kernel) : SameProcs k k := ⟨rfl, rfl, rfl, rfl, fun _ => ⟨rfl, rfl, rfl⟩⟩

theorem SameProcs.trans {k₁ k₂ k₃ : Kernel} (h : SameProcs k₁ k₂) (h' : SameProcs k₂ k₃) :
    SameProcs k₁ k₃ := by
  refine ⟨h'.rq.trans h.rq, h'.size.trans h.size, h'.current.trans h.current, h'.ctx.trans h.ctx,
    fun p => ?_⟩
  obtain ⟨h1, h2, h3⟩ := h.pcb p
  obtain ⟨h1', h2', h3'⟩ := h'.pcb p
  exact ⟨h1'.trans h1, h2'.trans h2, h3'.trans h3⟩

theorem sameProcs_setFd (k : Kernel) (p : Fin 8) (fd : Fin 16 → Option (Fin 128)) :
    SameProcs k (k.setPcb p { k.pcb p with fd := fd }) := by
  refine ⟨rfl, rfl, rfl, rfl, fun q => ?_⟩
  by_cases hq : q = p
  · subst hq
    simp [Kernel.setPcb]
  · simp [Kernel.setPcb, hq]

theorem sameProcs_linkFile (k : Kernel) (i : Fin 16) (o s : Fin 128) : SameProcs k (linkFile k i o s) := by
  refine ⟨rfl, rfl, rfl, rfl, fun q => ?_⟩
  by_cases hq : q = k.current
  · subst hq
    simp [linkFile, Kernel.setPcb, Kernel.self]
  · simp [linkFile, Kernel.setPcb, hq]

theorem sameProcs_getAIT (k : Kernel) (ino : UInt32) : SameProcs k (getAIT k ino).2 := by
  rcases getAIT_cases k ino with ⟨he, -⟩ | ⟨s, he, -⟩ | ⟨s, he, -⟩ <;> rw [he] <;>
    exact ⟨rfl, rfl, rfl, rfl, fun _ => ⟨rfl, rfl, rfl⟩⟩

theorem sameProcs_openFile (k : Kernel) (path : CStr) (oflag : OFlag) :
    SameProcs k (openFile k path oflag).2 := by
  rcases hv : resolve k.vol path oflag with ⟨ino, v⟩
  have hvol : SameProcs k { k with vol := v } := ⟨rfl, rfl, rfl, rfl, fun _ => ⟨rfl, rfl, rfl⟩⟩
  rcases openFile_cases k path oflag hv rfl with ⟨-, he⟩ | ⟨i, -, -, he⟩ | ⟨i, -, -, he⟩ |
    ⟨i, s, o, -, -, -, -, he⟩
  · rw [he]
    exact .refl k
  · rw [he]
    exact hvol
  · rw [he]
    exact hvol.trans (sameProcs_getAIT _ ino)
  · rw [he]
    exact (hvol.trans (sameProcs_getAIT _ ino)).trans (sameProcs_linkFile _ i o s)

theorem sameProcs_close (k : Kernel) (fd : Int) : SameProcs k (close k fd).2 := by
  unfold close
  split
  · exact .refl k
  · refine SameProcs.trans ?_ (sameProcs_setFd _ _ _)
    split
    · unfold unlinkAit
      dsimp only
      split <;> exact ⟨rfl, rfl, rfl, rfl, fun _ => ⟨rfl, rfl, rfl⟩⟩
    · exact ⟨rfl, rfl, rfl, rfl, fun _ => ⟨rfl, rfl, rfl⟩⟩

theorem sameProcs_fread (k : Kernel) (fd : Int) (n : UInt32) : SameProcs k (fread k fd n).2.2 := by
  obtain ⟨of', he⟩ := fread_kernel k fd n
  rw [he]
  exact ⟨rfl, rfl, rfl, rfl, fun _ => ⟨rfl, rfl, rfl⟩⟩

theorem sameProcs_getProgramEntry (k : Kernel) (path : CStr) (entry priority : UInt32) :
    SameProcs k (getProgramEntry k path entry priority).2.2.2 := by
  unfold getProgramEntry
  split
  · have hopen := sameProcs_openFile k (strtokCut path) .oexist
    dsimp only
    split
    · exact ((hopen.trans (sameProcs_fread _ _ _)).trans (sameProcs_fread _ _ _)).trans
        (sameProcs_close _ _)
    · exact hopen
  · exact .refl k

theorem exec_cases (k : Kernel) (path : CStr) : ∃ k₁, SameProcs k k₁ ∧ (exec k path = (-1, k₁) ∨
    ∃ x : Pcb, x.pid = k.self.pid ∧ x.pst = .executing ∧
      exec k path = (0, { k₁.setPcb k₁.current x with ctx := x.ctx })) := by
  have hsame := sameProcs_getProgramEntry k path (word k.vol.stkBlk 0) (word k.vol.stkBlk 1)
  unfold exec
  dsimp only
  generalize getProgramEntry k path (word k.vol.stkBlk 0) (word k.vol.stkBlk 1) = r at hsame ⊢
  obtain ⟨ret, entry, priority, k₁⟩ := r
  dsimp only at hsame ⊢
  refine ⟨k₁, hsame, ?_⟩
  split
  · exact .inl rfl
  · refine .inr ⟨_, ?_, ?_, rfl⟩
    · dsimp only
      rw [Kernel.self, hsame.current, (hsame.pcb _).1, Kernel.self]
    · rfl

theorem RqInv.sameProcs (h : RqInv k l) (hs : SameProcs k k') : RqInv k' l :=
  h.of_same hs.rq hs.size hs.current (fun p => (hs.pcb p).1) fun p => by rw [(hs.pcb p).2.1]

theorem pcb_exec (k : Kernel) (path : CStr) (hself : k.self.pid = k.current.val) :
    (exec k path).2.rq = k.rq ∧ (exec k path).2.rqSize = k.rqSize ∧ (exec k path).2.current = k.current ∧
    (∀ q, ((exec k path).2.pcb q).pid = (k.pcb q).pid) ∧
    ((∀ q, ((exec k path).2.pcb q).pst = (k.pcb q).pst) ∨
      ∀ q, ((exec k path).2.pcb q).pst = if q = k.current then .executing else (k.pcb q).pst) := by
  obtain ⟨k₁, hs, he | ⟨x, hpid, hpst, he⟩⟩ := exec_cases k path
  · rw [he]
    exact ⟨hs.rq, hs.size, hs.current, fun q => (hs.pcb q).1, .inl fun q => (hs.pcb q).2.1⟩
  · rw [he]
    refine ⟨hs.rq, hs.size, hs.current, fun q => ?_, .inr fun q => ?_⟩
    · by_cases hq : q = k₁.current
      · subst hq
        simp only [Kernel.setPcb, Function.update_self]
        rw [hpid, hself, hs.current]
        exact hself.symm
      · simp [Kernel.setPcb, hq, (hs.pcb q).1]
    · rw [← hs.current]
      by_cases hq : q = k₁.current
      · subst hq
        simp [Kernel.setPcb, hpst]
      · simp [Kernel.setPcb, hq, (hs.pcb q).2.1]

theorem Lined.exec (h : Lined k l) (path : CStr) : Lined (exec k path).2 l := by
  obtain ⟨hrq, hsize, hcur, hpid, hpst⟩ := pcb_exec k path h.self
  apply h.of_same hrq hsize hcur hpid
  intro q he
  obtain hpst | hpst := hpst
  · rwa [hpst] at he
  · rw [hpst] at he
    split at he
    · cases he
    · exact he

theorem RqInv.exec (h : RqInv k l) (path : CStr) (hlive : k.self.pst ≠ .terminated) :
    RqInv (exec k path).2 l := by
  apply (h.lined.exec path).rqInv
  intro q hq
  rw [h.live]
  obtain ⟨-, -, -, -, hpst | hpst⟩ := pcb_exec k path h.self
  · rwa [hpst] at hq
  · rw [hpst] at hq
    split at hq
    · next hqc => rwa [hqc]
    · exact hq

/-! Channels and the scheduler. -/

theorem Lined.setMq (h : Lined k l) (m : Fin 32) (x : Mqueue) : Lined (setMq k m x) l :=
  h.of_same rfl rfl rfl (fun _ => rfl) fun _ => id

theorem Lined.mqSend (h : Lined k l) (m : Fin 32) (msg : List UInt8) : ∃ l', Lined (mqSend k m msg).2 l' := by
  obtain ⟨l₁, h₁⟩ : ∃ l₁, Lined (Core.kill (Core.setMq k m { k.mq m with msgLspid := k.self.pid })
    (Core.setMq k m { k.mq m with msgLspid := k.self.pid }).self.pid .sigwait) l₁ :=
    (h.setMq m _).kill fun he => absurd he (by decide)
  unfold Core.mqSend
  dsimp only
  split
  · split
    · obtain ⟨l₂, h₂⟩ : ∃ l₂, Lined (Core.kill _ _ .sigcont) l₂ :=
        (h₁.setMq m _).kill fun he => absurd he (by decide)
      exact ⟨l₂, h₂.setMq m _⟩
    · exact ⟨l₁, h₁.setMq m _⟩
  · exact ⟨l₁, h₁⟩

theorem Lined.mqReceive (h : Lined k l) (m : Fin 32) (len : Nat) :
    ∃ l', Lined (mqReceive k m len).2.2 l' := by
  unfold Core.mqReceive
  dsimp only
  split
  · exact ((h.setMq m _).setMq m _).kill fun he => absurd he (by decide)
  · exact ((h.setMq m _).setMq m _).kill fun he => absurd he (by decide)

theorem RqInv.setMq (h : RqInv k l) (m : Fin 32) (x : Mqueue) : RqInv (setMq k m x) l :=
  h.of_same rfl rfl rfl (fun _ => rfl) fun _ => Iff.rfl

theorem RqInv.sigcont (h : RqInv k l) (pid : Int) : ∃ l', RqInv (Core.kill k pid .sigcont) l' :=
  h.kill ⟨fun he => absurd he (by decide), fun he => absurd he (by decide)⟩

theorem RqInv.sigwait_self (h : RqInv k l) (hlive : k.self.pst ≠ .terminated) :
    ∃ l', RqInv (Core.kill k k.self.pid .sigwait) l' := by
  refine h.kill ⟨fun _ p hp => ?_, fun he => absurd he (by decide)⟩
  have : p = k.current := Fin.ext (by have := h.self; omega)
  rw [this]
  exact hlive

theorem RqInv.mqSend (h : RqInv k l) (m : Fin 32) (msg : List UInt8) (hlive : k.self.pst ≠ .terminated) :
    ∃ l', RqInv (mqSend k m msg).2 l' := by
  obtain ⟨l₁, h₁⟩ := (h.setMq m { k.mq m with msgLspid := k.self.pid }).sigwait_self hlive
  unfold Core.mqSend
  dsimp only
  split
  · split
    · obtain ⟨l₂, h₂⟩ := (h₁.setMq m _).sigcont _
      exact ⟨l₂, h₂.setMq m _⟩
    · exact ⟨l₁, h₁.setMq m _⟩
  · exact ⟨l₁, h₁⟩

theorem RqInv.mqReceive (h : RqInv k l) (m : Fin 32) (len : Nat) (hlive : k.self.pst ≠ .terminated) :
    ∃ l', RqInv (mqReceive k m len).2.2 l' := by
  unfold Core.mqReceive
  dsimp only
  split
  · exact ((h.setMq m _).setMq m _).sigcont _
  · exact ((h.setMq m _).setMq m _).sigwait_self hlive

theorem mqOpen_eq (k : Kernel) (name : Int) : ∃ mq', (mqOpen k name).2 = { k with mq := mq' } := by
  unfold mqOpen
  split
  · exact ⟨k.mq, rfl⟩
  · split
    · exact ⟨_, rfl⟩
    · exact ⟨k.mq, rfl⟩

theorem mem_turned {x y : Fin 8} {rest pre post : List (Fin 8)} (hl : rest ++ [x] = pre ++ y :: post)
    (q : Fin 8) : q ∈ y :: (post ++ pre) ↔ q ∈ x :: rest := by
  have : q ∈ rest ++ [x] ↔ q ∈ pre ++ y :: post := by rw [hl]
  simp only [List.mem_append, List.mem_cons, List.not_mem_nil, or_false] at this ⊢
  tauto

theorem Lined.switched {x y : Fin 8} {rest pre post : List (Fin 8)} (h : Lined k (x :: rest))
    (hl : rest ++ [x] = pre ++ y :: post) (hq : Queue k' (y :: (post ++ pre))) (hs : Switched k k' y) :
    Lined k' (y :: (post ++ pre)) := by
  have hmem := mem_turned hl
  refine ⟨hq, ?_, fun p hp => ?_, fun p hp => ?_, ?_⟩
  · have hperm : (y :: (post ++ pre)).Perm (x :: rest) := by
      have h₁ : (y :: (post ++ pre)).Perm (pre ++ y :: post) := by
        rw [← List.cons_append]
        exact List.perm_append_comm
      rw [← hl] at h₁
      exact h₁.trans (List.perm_append_singleton x rest)
    exact hperm.nodup_iff.mpr h.nodup
  · rw [hs.pst]
    exact h.live p ((hmem p).mp hp)
  · rw [hs.pid]
    exact h.pid p ((hmem p).mp hp)
  · rw [Kernel.self, hs.current, hs.pid]
    exact h.pid y ((hmem y).mp List.mem_cons_self)

theorem Lined.scheduler (h : Lined k l) (hk : scheduler k = some k') : ∃ l', Lined k' l' := by
  obtain ⟨rfl, rfl⟩ | ⟨x, rest, pre, y, post, rfl, hl, -, hq, hs⟩ := h.queue.scheduler_cases hk
  · exact ⟨[], h.queue.rotateOnce, h.nodup, h.live, h.pid, h.self⟩
  · exact ⟨_, h.switched hl hq hs⟩

theorem RqInv.scheduler (h : RqInv k l) (hk : scheduler k = some k') : ∃ l', RqInv k' l' := by
  obtain ⟨rfl, rfl⟩ | ⟨x, rest, pre, y, post, rfl, hl, -, hq, hs⟩ := h.queue.scheduler_cases hk
  · exact ⟨[], h.queue.rotateOnce, h.nodup, h.live, h.pid, h.self⟩
  · refine ⟨_, (h.lined.switched hl hq hs).rqInv fun p hp => ?_⟩
    rw [hs.pst] at hp
    exact (mem_turned hl p).mpr ((h.live p).mpr hp)

end

/-! Runs. -/

/-- Where a trap keeps the queue. A process that has terminated itself runs on
until the next switch; the calls that would bring it back to life are not
made then. -/
def rqOk (k : Kernel) : Trap → Prop
  | .exec _ => k.self.pst ≠ .terminated
  | .send _ _ => k.self.pst ≠ .terminated
  | .receive _ _ => k.self.pst ≠ .terminated
  | .raise sig => sig = some .sigwait → k.self.pst ≠ .terminated
  | .kill pid sig => (0 ≤ pid ∧ pid < 8 ∨ pid = 9) ∧ ∀ s, sig = some s → killOk k pid s
  | _ => True

def trapStep (s : Option Kernel) (c : Trap) : Option Kernel := s.bind (trap · c)

theorem RqInv.setGpr0 {k : Kernel} {l : List (Fin 8)} (h : RqInv k l) (x : UInt32) :
    RqInv (setGpr0 k x) l :=
  h.of_same rfl rfl rfl (fun _ => rfl) fun _ => Iff.rfl

theorem sameProcs_uart (k : Kernel) : SameProcs k (trapBody k .uart).1 := by
  unfold trapBody
  dsimp only
  split
  · refine ⟨rfl, rfl, rfl, rfl, fun q => ?_⟩
    by_cases hq : q = 0
    · subst hq
      simp [Kernel.setPcb]
    · simp [Kernel.setPcb, hq]
  · exact .refl k

theorem RqInv.trapBody {k : Kernel} {l : List (Fin 8)} (h : RqInv k l) {c : Trap} (hok : rqOk k c) :
    ∃ l', RqInv (trapBody k c).1 l' := by
  cases c with
  | yield => exact ⟨l, h⟩
  | fork =>
    obtain ⟨l', h', -⟩ := h.fork
    exact ⟨l', h'.setGpr0 _⟩
  | exec path => exact ⟨l, (h.exec path hok).setGpr0 _⟩
  | kill pid sig =>
    cases sig with
    | none => exact ⟨l, h⟩
    | some sig => exact h.kill (hok.2 sig rfl)
  | raise sig =>
    cases sig with
    | none => exact ⟨l, h⟩
    | some sig =>
      refine h.kill ⟨fun hs p hp => ?_, fun _ hp => ?_⟩
      · have : p = k.current := Fin.ext (by have := h.self; omega)
        rw [this]
        exact hok (by rw [hs])
      · have := h.self
        omega
  | mqOpen name =>
    obtain ⟨mq', he⟩ := mqOpen_eq k name
    refine ⟨l, ?_⟩
    unfold Core.trapBody
    dsimp only
    rw [he]
    exact h.of_same rfl rfl rfl (fun _ => rfl) fun _ => Iff.rfl
  | send m msg =>
    obtain ⟨l', h'⟩ := h.mqSend m msg hok
    exact ⟨l', h'.setGpr0 _⟩
  | receive m len =>
    obtain ⟨l', h'⟩ := h.mqReceive m len hok
    exact ⟨l', h'.setGpr0 _⟩
  | timer => exact ⟨l, h⟩
  | uart => exact ⟨l, h.sameProcs (sameProcs_uart k)⟩

theorem RqInv.trap {k k' : Kernel} {l : List (Fin 8)} (h : RqInv k l) {c : Trap} (hok : rqOk k c)
    (hk : trap k c = some k') : ∃ l', RqInv k' l' := by
  obtain ⟨l₁, h₁⟩ := h.trapBody hok
  unfold Core.trap at hk
  generalize Core.trapBody k c = r at h₁ hk
  obtain ⟨k₁, b⟩ := r
  cases b with
  | true => exact h₁.scheduler hk
  | false =>
    cases hk
    exact ⟨l₁, h₁⟩

def rqStepOk (s : Option Kernel) (c : Trap) : Prop := ∀ k, s = some k → rqOk k c

def RqReached (s : Option Kernel) : Prop := ∀ k, s = some k → ∃ l, RqInv k l

theorem rqReached_step (s : Option Kernel) (c : Trap) (h : RqReached s) (hok : rqStepOk s c) :
    RqReached (trapStep s c) := by
  intro k' hk'
  obtain ⟨k, hk, ht⟩ := Option.bind_eq_some_iff.mp hk'
  obtain ⟨l, hl⟩ := h k hk
  exact hl.trap (hok k hk) ht

theorem rqInv_boot (v : Vol) (link : Link) : RqInv (boot v link) [0] := by
  refine ⟨⟨⟨by decide, fun i => ?_⟩, rfl⟩, List.nodup_singleton 0, fun p => ?_, fun p hp => ?_, rfl⟩
  · revert i
    change ∀ i : Fin 8, Function.update (fun _ => none) 0 (some 0) i = [0][i.val]?
    decide
  · by_cases hp : p = 0
    · subst hp
      simp [boot, kernelHandlerRst, rqAdd, Kernel.setPcb]
    · simp [boot, kernelHandlerRst, rqAdd, Kernel.setPcb, hp, powerOn, Pcb.zero]
  · obtain rfl := List.mem_singleton.mp hp
    rfl

/-- The array up to `rq_size` holds each live process once, and nothing else. -/
structure ReadyQueue (k : Kernel) : Prop where
  size : k.rqSize ≤ 8
  full : ∀ i : Fin 8, i.val < k.rqSize → k.rq i ≠ none
  rest : ∀ i : Fin 8, k.rqSize ≤ i.val → k.rq i = none
  once : ∀ (i j : Fin 8) p, k.rq i = some p → k.rq j = some p → i = j
  live : ∀ p, (∃ i, k.rq i = some p) ↔ (k.pcb p).pst ≠ .terminated

theorem RqInv.readyQueue {k : Kernel} {l : List (Fin 8)} (h : RqInv k l) : ReadyQueue k := by
  refine ⟨?_, fun i hi => ?_, fun i hi => ?_, fun i j p => h.queue.holds.cell_inj h.nodup, fun p => ?_⟩
  · rw [h.queue.size]
    exact h.queue.holds.fits
  · rw [h.queue.size] at hi
    simp [h.queue.holds.cell_lt hi]
  · rw [h.queue.size] at hi
    exact h.queue.holds.cell_ge hi
  · rw [← h.live, h.queue.holds.mem_iff]

/-- **The ready queue holds the live processes.** In every state reached from
reset by traps that meet the condition, the queue is well formed, a process is
in it if and only if it has not terminated, and a process `fork` reports as
created is in it. -/
theorem ready_queue_kept (v : Vol) (link : Link) (calls : List Trap)
    (hc : Along trapStep rqStepOk (some (boot v link)) calls) (k : Kernel)
    (hk : run trapStep (some (boot v link)) calls = some k) :
    ReadyQueue k ∧ ∀ p : Fin 8, (fork k).1 = UInt32.ofNat p.val → ∃ i, (fork k).2.rq i = some p := by
  have hboot : RqReached (some (boot v link)) := by
    rintro k ⟨⟩
    exact ⟨[0], rqInv_boot v link⟩
  obtain ⟨l, h⟩ := invariant rqReached_step hboot hc k hk
  obtain ⟨l', h', hfork⟩ := h.fork
  exact ⟨h.readyQueue, fun p hp => h'.queue.holds.mem_iff.mp (hfork p hp)⟩

theorem ready_queue_kept_after_kill : ∃ k,
    run trapStep (some (boot fullVol ⟨0, 0, fun _ => 0⟩)) [.fork, .timer, .kill 1 (some .sigkill), .timer] =
      some k ∧ ReadyQueue k := by
  refine ⟨_, rfl, (ready_queue_kept fullVol ⟨0, 0, fun _ => 0⟩
    [.fork, .timer, .kill 1 (some .sigkill), .timer] ⟨?_, ?_, ?_, ?_, trivial⟩ _ rfl).1⟩
  · exact fun _ _ => trivial
  · exact fun _ _ => trivial
  · rintro k -
    refine ⟨.inl (by decide), fun s hs => ⟨fun he => ?_, fun _ h9 => absurd h9 (by decide)⟩⟩
    cases hs
    cases he
  · exact fun _ _ => trivial

/-- Killing all processes leaves the terminated ones in the queue. -/
theorem kill_all_keeps_queue : ∃ k,
    run trapStep (some (boot fullVol ⟨0, 0, fun _ => 0⟩)) [.fork, .kill 9 (some .sigkill)] = some k ∧
      ¬ReadyQueue k := by
  refine ⟨_, rfl, fun h => ?_⟩
  exact (h.live 1).mp ⟨1, rfl⟩ rfl

end ArmKernel.Core
