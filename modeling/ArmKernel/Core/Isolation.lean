import ArmKernel.Core.ReadyQueue

/-! Contexts across switches. A control block is used by one process after the
other, so the history kept here is by incarnation: the slot and how often
`fork` has used it. -/
namespace ArmKernel.Core

open Lib Lib.Run Fs

/-- The kernel with the incarnation on the processor and, for each incarnation,
the context `fork` gave it or it had when it was last switched out. -/
structure Machine where
  k : Kernel
  gen : Fin 8 → Nat
  running : Fin 8 × Nat
  saved : Fin 8 × Nat → Ctx

def forkSlot (k : Kernel) : Option (Fin 8) :=
  (List.finRange 8).find? fun p => (k.pcb p).pst == .terminated

def childCtx (ctx : Ctx) : Ctx := { ctx with gpr := Function.update ctx.gpr 0 0 }

def Machine.born (s : Machine) (p : Fin 8) (ctx : Ctx) : Machine :=
  { s with
    gen := Function.update s.gen p (s.gen p + 1)
    saved := Function.update s.saved (p, s.gen p + 1) (childCtx ctx) }

/-- The running process traps with registers `ctx`; up to the scheduler. -/
def machineBody (s : Machine) (ctx : Ctx) (c : Trap) : Machine × Bool :=
  let k := { s.k with ctx := ctx }
  let s := match c, forkSlot k with
    | .fork, some p => s.born p ctx
    | _, _ => s
  match trapBody k c with
  | (k, b) => ({ s with k := k }, b)

def machineSwitch (s : Machine) (k : Kernel) : Machine :=
  match k.rq 0 with
  | some q =>
    if (q, s.gen q) = s.running then { s with k := k }
    else
      { s with
        k := k
        running := (q, s.gen q)
        saved := Function.update s.saved s.running s.k.ctx }
  | none => { s with k := k }

def machineStep (s : Option Machine) (c : Ctx × Trap) : Option Machine :=
  s.bind fun s =>
    match machineBody s c.1 c.2 with
    | (s, true) => (scheduler s.k).map (machineSwitch s)
    | (s, false) => some s

/-- The context the scheduler leaves in the registers is that of the incarnation
it dispatches. -/
def LoadsOwnContext (s : Machine) (k : Kernel) : Prop :=
  ∀ q, k.rq 0 = some q →
    k.ctx = if (q, s.gen q) = s.running then s.k.ctx else s.saved (q, s.gen q)

/-- Signals go to existing processes, and no process that has terminated itself
forks into its own control block. -/
def isolationOk (s : Machine) (c : Ctx × Trap) : Prop :=
  match c.2 with
  | .fork => forkSlot s.k ≠ some s.k.current
  | .kill pid _ => 0 ≤ pid ∧ pid < 8
  | _ => True

def isolationStepOk (s : Option Machine) (c : Ctx × Trap) : Prop := ∀ m, s = some m → isolationOk m c

/-! The invariant. -/

/-- Control blocks other than the running one hold what was saved. -/
structure Isolated (s : Machine) : Prop where
  self : s.k.self.pid = s.k.current.val
  running : s.running = (s.k.current, s.gen s.k.current)
  saved : ∀ q, q ≠ s.k.current → (s.k.pcb q).ctx = s.saved (q, s.gen q)
  queued : ∀ i q, s.k.rq i = some q → (s.k.pcb q).pid = q.val

/-- The running process, numbers and stored contexts are the same, and nobody
has joined the queue. -/
structure SameContexts (k k' : Kernel) : Prop where
  current : k'.current = k.current
  pid : ∀ q, (k'.pcb q).pid = (k.pcb q).pid
  ctx : ∀ q, (k'.pcb q).ctx = (k.pcb q).ctx
  queued : ∀ i q, k'.rq i = some q → ∃ j, k.rq j = some q

section

variable {k k' k₁ k₂ k₃ : Kernel} {s : Machine}

theorem SameContexts.refl (k : Kernel) : SameContexts k k :=
  ⟨rfl, fun _ => rfl, fun _ => rfl, fun i _ h => ⟨i, h⟩⟩

theorem SameContexts.trans (h : SameContexts k₁ k₂) (h' : SameContexts k₂ k₃) : SameContexts k₁ k₃ :=
  ⟨h'.current.trans h.current, fun q => (h'.pid q).trans (h.pid q), fun q => (h'.ctx q).trans (h.ctx q),
    fun i q hq => by
      obtain ⟨j, hj⟩ := h'.queued i q hq
      exact h.queued j q hj⟩

theorem sameContexts_of_eq (hcur : k'.current = k.current) (hpcb : k'.pcb = k.pcb) (hrq : k'.rq = k.rq) :
    SameContexts k k' := by
  refine ⟨hcur, fun q => by rw [hpcb], fun q => by rw [hpcb], fun i q hq => ⟨i, ?_⟩⟩
  rw [← hrq]
  exact hq

theorem SameProcs.contexts (h : SameProcs k k') : SameContexts k k' :=
  ⟨h.current, fun q => (h.pcb q).1, fun q => (h.pcb q).2.2, fun i q hq => ⟨i, by rw [← h.rq, hq]⟩⟩

theorem Isolated.of_same (h : Isolated s) (hk : SameContexts s.k k') : Isolated { s with k := k' } := by
  refine ⟨?_, ?_, fun q hq => ?_, fun i q hq => ?_⟩
  · change (k'.pcb k'.current).pid = k'.current.val
    rw [hk.current, hk.pid]
    exact h.self
  · change s.running = (k'.current, s.gen k'.current)
    rw [hk.current]
    exact h.running
  · change (k'.pcb q).ctx = _
    rw [hk.ctx]
    refine h.saved q ?_
    rw [← hk.current]
    exact hq
  · change (k'.pcb q).pid = q.val
    obtain ⟨j, hj⟩ := hk.queued i q hq
    rw [hk.pid]
    exact h.queued j q hj

theorem sameContexts_setPcb (k : Kernel) (p : Fin 8) {x : Pcb} (hpid : x.pid = (k.pcb p).pid)
    (hctx : x.ctx = (k.pcb p).ctx) : SameContexts k (k.setPcb p x) := by
  refine ⟨rfl, fun q => ?_, fun q => ?_, fun i _ hq => ⟨i, hq⟩⟩
  · by_cases hq : q = p
    · subst hq
      simp [Kernel.setPcb, hpid]
    · simp [Kernel.setPcb, hq]
  · by_cases hq : q = p
    · subst hq
      simp [Kernel.setPcb, hctx]
    · simp [Kernel.setPcb, hq]

theorem rqClose_queued {rq : Fin 8 → Option (Fin 8)} {size p : Nat} {i q : Fin 8}
    (h : rqClose rq size p i = some q) : ∃ j, rq j = some q := by
  unfold rqClose at h
  split at h
  · cases h
  · split at h
    · exact ⟨_, h⟩
    · exact ⟨_, h⟩

theorem rqRmStep_queued {k : Kernel} {pid : Int} {p i q : Fin 8} (h : (rqRmStep pid k p).rq i = some q) :
    ∃ j, k.rq j = some q := by
  unfold rqRmStep at h
  split at h
  · split at h
    · split at h
      · exact rqClose_queued h
      · exact ⟨i, h⟩
    · exact ⟨i, h⟩
  · exact ⟨i, h⟩

theorem rqRm_queued (k : Kernel) (pid : Int) {i q : Fin 8} (h : (rqRm k pid).rq i = some q) :
    ∃ j, k.rq j = some q := by
  have hrun : ∀ (is : List (Fin 8)) (k : Kernel) (i : Fin 8), (is.foldl (rqRmStep pid) k).rq i = some q →
      ∃ j, k.rq j = some q := by
    intro is
    induction is with
    | nil => exact fun _ i h => ⟨i, h⟩
    | cons p rest ih =>
      intro k i h
      obtain ⟨j, hj⟩ := ih _ i h
      exact rqRmStep_queued hj
  unfold rqRm at h
  exact hrun _ k i h

theorem sameContexts_signal (k : Kernel) (p : Fin 8) (sig : Sig) : SameContexts k (signal k p sig) := by
  unfold signal
  cases sig with
  | sigkill =>
    obtain ⟨rq, n, he⟩ := rqRm_eq (setPst k p .terminated) p.val
    have hset : SameContexts k (setPst k p .terminated) := sameContexts_setPcb k p rfl rfl
    change SameContexts k (rqRm (setPst k p .terminated) p.val)
    refine hset.trans ⟨by rw [he], fun q => by rw [he], fun q => by rw [he], fun i q hq => ?_⟩
    exact rqRm_queued (setPst k p .terminated) p.val hq
  | sigwait => exact sameContexts_setPcb k p rfl rfl
  | sigcont =>
    dsimp only
    split
    · exact sameContexts_setPcb k p rfl rfl
    · exact .refl k
  | sigpri0 => exact sameContexts_setPcb k p rfl rfl

theorem sameContexts_kill (k : Kernel) (pid : Int) (sig : Sig) : SameContexts k (kill k pid sig) := by
  unfold kill
  split
  · split
    · exact sameContexts_signal k _ sig
    · exact .refl k
  · split
    · refine ⟨rfl, fun q => ?_, fun q => ?_, fun i _ hq => ⟨i, hq⟩⟩
      · dsimp only
        split <;> rfl
      · dsimp only
        split <;> rfl
    · exact .refl k

theorem sameContexts_setMq (k : Kernel) (m : Fin 32) (x : Mqueue) : SameContexts k (setMq k m x) :=
  sameContexts_of_eq rfl rfl rfl

theorem sameContexts_mqSend (k : Kernel) (m : Fin 32) (msg : List UInt8) :
    SameContexts k (mqSend k m msg).2 := by
  have hwait := (sameContexts_setMq k m { k.mq m with msgLspid := k.self.pid }).trans
    (sameContexts_kill _ k.self.pid .sigwait)
  unfold mqSend
  dsimp only
  split
  · split
    · exact ((hwait.trans (sameContexts_setMq _ m _)).trans (sameContexts_kill _ _ .sigcont)).trans
        (sameContexts_setMq _ m _)
    · exact hwait.trans (sameContexts_setMq _ m _)
  · exact hwait

theorem sameContexts_mqReceive (k : Kernel) (m : Fin 32) (len : Nat) :
    SameContexts k (mqReceive k m len).2.2 := by
  unfold mqReceive
  dsimp only
  split
  · exact ((sameContexts_setMq k m _).trans (sameContexts_setMq _ m _)).trans (sameContexts_kill _ _ _)
  · exact ((sameContexts_setMq k m _).trans (sameContexts_setMq _ m _)).trans (sameContexts_kill _ _ _)

theorem sameContexts_setGpr0 (k : Kernel) (x : UInt32) : SameContexts k (setGpr0 k x) :=
  sameContexts_of_eq rfl rfl rfl

/-! The steps. -/

theorem fork_cases (k : Kernel) : (forkSlot k = none ∧ fork k = (noAddr, k)) ∨
    ∃ (p : Fin 8) (x : Pcb), forkSlot k = some p ∧ x.ctx = childCtx k.ctx ∧ x.pid = p.val ∧
      fork k = (UInt32.ofNat p.val, rqAdd (k.setPcb p x) p) := by
  unfold fork forkSlot
  cases (List.finRange 8).find? fun p => (k.pcb p).pst == .terminated with
  | none => exact .inl ⟨rfl, rfl⟩
  | some p => exact .inr ⟨p, _, rfl, rfl, rfl, rfl⟩

theorem Isolated.enter (h : Isolated s) (ctx : Ctx) : Isolated { s with k := { s.k with ctx := ctx } } :=
  h.of_same (sameContexts_of_eq rfl rfl rfl)

theorem Isolated.born (h : Isolated s) {p : Fin 8} {x : Pcb} {ctx : Ctx} (hp : p ≠ s.k.current)
    (hx : x.ctx = childCtx ctx) (hxp : x.pid = p.val) (hk : k'.current = s.k.current)
    (hpcb : ∀ q, k'.pcb q = if q = p then x else s.k.pcb q)
    (hrq : ∀ i q, k'.rq i = some q → q = p ∨ ∃ j, s.k.rq j = some q) :
    Isolated { s.born p ctx with k := k' } := by
  have hcur : Function.update s.gen p (s.gen p + 1) s.k.current = s.gen s.k.current :=
    Function.update_of_ne hp.symm _ _
  refine ⟨?_, ?_, fun q hq => ?_, fun i q hq => ?_⟩
  · change (k'.pcb k'.current).pid = k'.current.val
    rw [hk, hpcb, if_neg hp.symm]
    exact h.self
  · change s.running = (k'.current, Function.update s.gen p (s.gen p + 1) k'.current)
    rw [hk, hcur]
    exact h.running
  · change (k'.pcb q).ctx = Function.update s.saved (p, s.gen p + 1) (childCtx ctx)
      (q, Function.update s.gen p (s.gen p + 1) q)
    rw [hpcb]
    by_cases hqp : q = p
    · subst hqp
      rw [if_pos rfl, Function.update_self, Function.update_self, hx]
    · have hne : (q, s.gen q) ≠ (p, s.gen p + 1) := fun he => hqp (Prod.ext_iff.mp he).1
      rw [if_neg hqp, Function.update_of_ne hqp, Function.update_of_ne hne]
      refine h.saved q ?_
      rw [← hk]
      exact hq
  · change (k'.pcb q).pid = q.val
    rw [hpcb]
    split
    · next hqp => rw [hxp, hqp]
    · next hqp =>
      obtain ⟨j, hj⟩ := (hrq i q hq).resolve_left hqp
      exact h.queued j q hj

theorem Isolated.body (h : Isolated s) {ctx : Ctx} {c : Trap} (hok : isolationOk s (ctx, c)) :
    Isolated (machineBody s ctx c).1 := by
  have hin := h.enter ctx
  have hrun : ∀ k', SameContexts s.k k' → Isolated { s with k := k' } := fun _ hk => h.of_same hk
  have henter : SameContexts s.k { s.k with ctx := ctx } := sameContexts_of_eq rfl rfl rfl
  cases c with
  | fork =>
    have hslot : forkSlot { s.k with ctx := ctx } = forkSlot s.k := rfl
    have hok' : forkSlot s.k ≠ some s.k.current := hok
    unfold machineBody
    dsimp only
    rcases fork_cases { s.k with ctx := ctx } with ⟨hnone, he⟩ | ⟨p, x, hp, hx, hxp, he⟩
    · rw [hnone]
      simp only [trapBody, he]
      exact hrun _ (henter.trans (sameContexts_setGpr0 _ _))
    · rw [hp]
      simp only [trapBody, he]
      have hne : p ≠ s.k.current := fun hpc => hok' (by rw [← hslot, hp, hpc])
      refine h.born hne hx hxp ?_ (fun q => ?_) fun i q hq => ?_
      · unfold rqAdd
        split <;> rfl
      · change (rqAdd _ p).pcb q = _
        rw [(rqAdd_tables _ p).2.2]
        by_cases hq : q = p
        · subst hq
          simp [Kernel.setPcb]
        · simp [Kernel.setPcb, hq]
      · change (rqAdd _ p).rq i = some q at hq
        unfold rqAdd at hq
        split at hq
        · next hlt =>
          by_cases hi : i = ⟨s.k.rqSize, hlt⟩
          · subst hi
            simp [Kernel.setPcb] at hq
            exact .inl hq.symm
          · refine .inr ⟨i, ?_⟩
            rw [← hq]
            simp only [Kernel.setPcb] at hi ⊢
            rw [Function.update_of_ne hi]
        · exact .inr ⟨i, hq⟩
  | exec path =>
    obtain ⟨k₁, hs, he | ⟨x, hpid, -, he⟩⟩ := exec_cases { s.k with ctx := ctx } path
    · simp only [machineBody, trapBody, he]
      exact hrun _ ((henter.trans hs.contexts).trans (sameContexts_setGpr0 _ _))
    · simp only [machineBody, trapBody, he]
      have hcur : k₁.current = s.k.current := hs.current
      have h₁ : Isolated { s with k := k₁ } := hrun _ (henter.trans hs.contexts)
      have hxp : x.pid = k₁.current.val := by
        rw [hpid, hcur]
        exact h.self
      refine ⟨?_, h₁.running, fun q hq => ?_, fun i q hq => ?_⟩
      · change (Function.update k₁.pcb k₁.current x k₁.current).pid = k₁.current.val
        rw [Function.update_self, hxp]
      · have hq' : q ≠ k₁.current := hq
        change (Function.update k₁.pcb k₁.current x q).ctx = _
        rw [Function.update_of_ne hq']
        exact h₁.saved q hq'
      · change (Function.update k₁.pcb k₁.current x q).pid = q.val
        by_cases hq' : q = k₁.current
        · rw [hq', Function.update_self, hxp]
        · rw [Function.update_of_ne hq']
          exact h₁.queued i q hq
  | yield => exact hin
  | timer => exact hin
  | kill pid sig =>
    cases sig with
    | none => exact hin
    | some sig => exact hrun _ (henter.trans (sameContexts_kill _ pid sig))
  | raise sig =>
    cases sig with
    | none => exact hin
    | some sig => exact hrun _ (henter.trans (sameContexts_kill _ _ sig))
  | mqOpen name =>
    obtain ⟨mq', he⟩ := mqOpen_eq { s.k with ctx := ctx } name
    simp only [machineBody, trapBody, he]
    exact hrun _ (sameContexts_of_eq rfl rfl rfl)
  | send m msg =>
    exact hrun _ ((henter.trans (sameContexts_mqSend _ m msg)).trans (sameContexts_setGpr0 _ _))
  | receive m len =>
    exact hrun _ ((henter.trans (sameContexts_mqReceive _ m len)).trans (sameContexts_setGpr0 _ _))
  | uart =>
    unfold machineBody trapBody
    dsimp only
    split
    · exact hrun _ (henter.trans (sameContexts_setPcb _ 0 rfl rfl))
    · exact hin

/-- Dispatching: the same process goes on, or the context is saved in the
running process's own block and replaced by the stored one. -/
theorem dispatch_cases (k : Kernel) (p : Fin 8) (hself : k.self.pid = k.current.val) :
    (k.current = p ∧ (dispatch k p).ctx = k.ctx ∧ SameContexts k (dispatch k p)) ∨
    (k.current ≠ p ∧ (dispatch k p).ctx = (k.pcb p).ctx ∧ (dispatch k p).current = p ∧
      ∀ q, ((dispatch k p).pcb q).pid = (k.pcb q).pid ∧
        ((dispatch k p).pcb q).ctx = if q = k.current then k.ctx else (k.pcb q).ctx) := by
  have hsame : SameContexts k (if (k.pcb p).prio = 0 then resetPriorities k else k) ∧
      (if (k.pcb p).prio = 0 then resetPriorities k else k).ctx = k.ctx := by
    split
    · exact ⟨⟨rfl, fun q => (pcb_resetPriorities k q).1, fun q => (pcb_resetPriorities k q).2.2,
        fun i _ hq => ⟨i, hq⟩⟩, rfl⟩
    · exact ⟨.refl k, rfl⟩
  unfold dispatch
  dsimp only
  generalize (if (k.pcb p).prio = 0 then resetPriorities k else k) = k₁ at hsame
  obtain ⟨hs, hctx⟩ := hsame
  have hcur := hs.current
  by_cases hp : k.current = p
  · left
    rw [if_pos (hcur.trans hp)]
    exact ⟨hp, hctx, hs.trans (sameContexts_setPcb k₁ p rfl rfl)⟩
  · right
    have hnum : k₁.self.pid.toNat = k.current.val := by
      rw [Kernel.self, hcur, hs.pid]
      have : (k.pcb k.current).pid = k.current.val := hself
      omega
    have hlt : k₁.self.pid.toNat < 8 := by
      rw [hnum]
      exact k.current.isLt
    have hslot : (⟨k₁.self.pid.toNat, hlt⟩ : Fin 8) = k.current := Fin.ext hnum
    rw [if_neg (fun he => hp (hcur.symm.trans he)), dif_pos hlt, hslot]
    refine ⟨hp, ?_, rfl, fun q => ?_⟩
    · have hpc : p ≠ k.current := fun he => hp he.symm
      simp [Kernel.setPcb, hpc, hs.ctx]
    · by_cases hq : q = k.current
      · subst hq
        simp [Kernel.setPcb, hs.pid, hctx]
      · simp [Kernel.setPcb, hq, hs.pid, hs.ctx]

theorem rqTurn_queued {rq : Fin 8 → Option (Fin 8)} {last : Nat} {i q : Fin 8}
    (h : rqTurn rq last i = some q) : ∃ j, rq j = some q := by
  unfold rqTurn at h
  split at h
  · exact ⟨_, h⟩
  · split at h <;> exact ⟨_, h⟩

theorem rotateLoop_queued {fuel : Nat} (hk : rotateLoop fuel k = some k') {i q : Fin 8}
    (hq : k'.rq i = some q) : ∃ j, k.rq j = some q := by
  have hone : ∀ k : Kernel, ∀ i, (rotateOnce k).rq i = some q → ∃ j, k.rq j = some q :=
    fun _ _ h => rqTurn_queued h
  induction fuel generalizing k with
  | zero => cases hk
  | succ fuel ih =>
    unfold rotateLoop at hk
    dsimp only at hk
    split at hk
    · cases hk
      exact hone k i hq
    · split at hk
      · obtain ⟨j, hj⟩ := ih hk
        exact hone k j hj
      · cases hk
        exact hone k i hq

theorem Isolated.scheduler (h : Isolated s) (hk : scheduler s.k = some k') :
    LoadsOwnContext s k' ∧ Isolated (machineSwitch s k') := by
  unfold Core.scheduler at hk
  rw [Option.map_eq_some_iff] at hk
  obtain ⟨k₁, hrot, rfl⟩ := hk
  have he := rotateLoop_eq hrot
  have hs : SameContexts s.k k₁ := by
    refine ⟨by rw [he], fun q => by rw [he], fun q => by rw [he], fun i q hq => ?_⟩
    exact rotateLoop_queued hrot hq
  have hctx : k₁.ctx = s.k.ctx := by rw [he]
  have hself : k₁.self.pid = k₁.current.val := (h.of_same hs).self
  cases hhead : k₁.rq 0 with
  | none =>
    refine ⟨fun q hq => ?_, ?_⟩
    · dsimp only at hq
      rw [hhead] at hq
      cases hq
    · unfold machineSwitch
      dsimp only
      rw [hhead]
      exact h.of_same hs
  | some p =>
    dsimp only
    have hrq : (dispatch k₁ p).rq 0 = some p := by
      rw [(dispatch_switched _ _).2.1, hhead]
    have hqueued := (h.of_same hs).queued
    have hrunning : ∀ q, (q, s.gen q) = s.running ↔ q = s.k.current := fun q => by
      rw [h.running]
      constructor
      · exact fun he => (Prod.ext_iff.mp he).1
      · rintro rfl
        rfl
    unfold LoadsOwnContext machineSwitch
    rw [hrq]
    rcases dispatch_cases k₁ p hself with ⟨hp, hc, hsc⟩ | ⟨hp, hc, hcur, hpcb⟩
    · have hp' : p = s.k.current := by rw [← hp, hs.current]
      refine ⟨fun q hq => ?_, ?_⟩
      · cases hq
        rw [if_pos ((hrunning p).mpr hp'), hc, hctx]
      · dsimp only
        rw [if_pos ((hrunning p).mpr hp')]
        exact h.of_same (hs.trans hsc)
    · have hp' : p ≠ s.k.current := fun he => hp (by rw [hs.current, he])
      refine ⟨fun q hq => ?_, ?_⟩
      · cases hq
        rw [if_neg (fun he => hp' ((hrunning p).mp he)), hc, hs.ctx]
        exact h.saved p hp'
      · dsimp only
        rw [if_neg (fun he => hp' ((hrunning p).mp he))]
        refine ⟨?_, ?_, fun q hq => ?_, fun i q hq => ?_⟩
        · change ((dispatch k₁ p).pcb (dispatch k₁ p).current).pid = (dispatch k₁ p).current.val
          rw [hcur, (hpcb p).1]
          exact hqueued 0 p hhead
        · change (p, s.gen p) = ((dispatch k₁ p).current, s.gen (dispatch k₁ p).current)
          rw [hcur]
        · change ((dispatch k₁ p).pcb q).ctx = Function.update s.saved s.running s.k.ctx (q, s.gen q)
          rw [(hpcb q).2, hs.current, hctx, hs.ctx]
          by_cases hq' : q = s.k.current
          · rw [if_pos hq', ← (hrunning q).mpr hq', Function.update_self]
          · rw [if_neg hq', Function.update_of_ne (fun he => hq' ((hrunning q).mp he))]
            exact h.saved q hq'
        · change ((dispatch k₁ p).pcb q).pid = q.val
          rw [(hpcb q).1]
          refine hqueued i q ?_
          rw [← (dispatch_switched k₁ p).2.1]
          exact hq

end

/-! Runs. -/

def startMachine (v : Vol) (link : Link) : Machine :=
  ⟨boot v link, fun _ => 0, (0, 0), fun e => ((boot v link).pcb e.1).ctx⟩

theorem isolated_start (v : Vol) (link : Link) : Isolated (startMachine v link) := by
  refine ⟨rfl, rfl, fun q _ => rfl, fun i q hq => ?_⟩
  have hmem : q ∈ [(0 : Fin 8)] := (rqInv_boot v link).queue.holds.mem_iff.mpr ⟨i, hq⟩
  exact (rqInv_boot v link).pid q hmem

def IsolatedReached (s : Option Machine) : Prop := ∀ m, s = some m → Isolated m

theorem isolated_step (s : Option Machine) (c : Ctx × Trap) (h : IsolatedReached s)
    (hok : isolationStepOk s c) : IsolatedReached (machineStep s c) := by
  intro m' hm'
  obtain ⟨m, hm, hstep⟩ := Option.bind_eq_some_iff.mp hm'
  have hbody := (h m hm).body (hok m hm)
  generalize machineBody m c.1 c.2 = r at hbody hstep
  obtain ⟨m₁, b⟩ := r
  cases b with
  | true =>
    obtain ⟨k', hk, rfl⟩ := Option.map_eq_some_iff.mp hstep
    exact (hbody.scheduler hk).2
  | false =>
    cases hstep
    exact hbody

/-- **Processes get their own contexts back.** In every run from reset whose
traps meet the condition, whatever the running process's registers are at each
trap: when a trap calls the scheduler and it returns, the registers hold the
context of the incarnation it dispatched. -/
theorem contexts_isolated (v : Vol) (link : Link) (calls : List (Ctx × Trap))
    (hc : Along machineStep isolationStepOk (some (startMachine v link)) calls) (s s₁ : Machine)
    (hs : run machineStep (some (startMachine v link)) calls = some s) (ctx : Ctx) (c : Trap)
    (hok : isolationOk s (ctx, c)) (hb : machineBody s ctx c = (s₁, true)) (k' : Kernel)
    (hk : scheduler s₁.k = some k') : LoadsOwnContext s₁ k' := by
  have hstart : IsolatedReached (some (startMachine v link)) := by
    rintro m ⟨⟩
    exact isolated_start v link
  have hbody := (invariant isolated_step hstart hc s hs).body hok
  rw [hb] at hbody
  exact (hbody.scheduler hk).1

/-- Registers that hold `x` in `gpr[ 0 ]` and zero elsewhere. -/
def regs (x : UInt32) : Ctx := { Ctx.zero with gpr := Function.update (fun _ => 0) 0 x }

theorem contexts_isolated_fork : ∃ s s₁ k',
    run machineStep (some (startMachine fullVol ⟨0, 0, fun _ => 0⟩))
      [(regs 5, .fork), (regs 1, .timer), (regs 7, .raise none)] = some s ∧
    machineBody s (regs 1) .timer = (s₁, true) ∧ scheduler s₁.k = some k' ∧ LoadsOwnContext s₁ k' := by
  refine ⟨_, _, _, rfl, rfl, rfl, contexts_isolated fullVol ⟨0, 0, fun _ => 0⟩
    [(regs 5, .fork), (regs 1, .timer), (regs 7, .raise none)] ⟨?_, ?_, ?_, trivial⟩ _ _ rfl (regs 1)
    .timer trivial rfl _ rfl⟩
  · rintro m ⟨⟩
    change forkSlot (boot fullVol ⟨0, 0, fun _ => 0⟩) ≠ some 0
    decide
  · exact fun _ _ => trivial
  · exact fun _ _ => trivial

/-- Process 1 kills itself, runs on and forks into its own control block. The
child's first dispatch finds process 1 still on the processor, and goes on with
its registers, where `gpr[ 0 ]` is 1 and not 0. -/
theorem dead_parent_keeps_registers : ∃ s s₁ k',
    run machineStep (some (startMachine fullVol ⟨0, 0, fun _ => 0⟩))
      [(regs 0, .fork), (regs 1, .timer), (regs 0, .kill 1 (some .sigkill)), (regs 0, .fork)] = some s ∧
    machineBody s (regs 1) .yield = (s₁, true) ∧ scheduler s₁.k = some k' ∧ ¬LoadsOwnContext s₁ k' := by
  refine ⟨_, _, _, rfl, rfl, rfl, fun h => ?_⟩
  have hctx := congrArg (fun ctx : Ctx => ctx.gpr 0) (h 1 rfl)
  exact absurd hctx (by decide)

end ArmKernel.Core
