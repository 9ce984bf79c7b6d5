import ArmKernel.Core.Numbering
import ArmKernel.Core.RoundRobin
import ArmKernel.Lib.Turns

/-! Who gets the processor, over whole runs. While no process changes its state
the executing ones take turns in the order of the queue, whatever their
priorities. A process that stays ready waits for at most eight calls of the
scheduler as long as none is killed; when processes exit it may wait for ever,
since the exit takes the turn of the process behind the one that exits. -/
namespace ArmKernel.Core

open Lib Lib.Run Lib.Turns Fs

def queued (k : Kernel) : List (Fin 8) := (List.finRange 8).filterMap k.rq

def executing (k : Kernel) (p : Fin 8) : Bool := (k.pcb p).pst == .executing

/-- The processes that the calls of the scheduler in a run dispatch. -/
def turns : Kernel → List Svc → List (Fin 8)
  | _, [] => []
  | k, c :: rest =>
    match svcStep (some k) c with
    | some k' => if (svcBody k c).2 then k'.current :: turns k' rest else turns k' rest
    | none => []

/-- A call whose part before the scheduler leaves the queue and the states of
the processes alone. -/
def KeepsStates (k : Kernel) (c : Svc) : Prop :=
  (svcBody k c).1.rq = k.rq ∧ (svcBody k c).1.rqSize = k.rqSize ∧
    ∀ p, ((svcBody k c).1.pcb p).pst = (k.pcb p).pst

def keepsStatesOk (s : Option Kernel) (c : Svc) : Prop := inTables c = true ∧ ∀ k, s = some k → KeepsStates k c

section

variable {k k' : Kernel} {l rest : List (Fin 8)} {x : Fin 8}

theorem Queue.queued (h : Queue k l) : queued k = l := h.holds.filterMap

theorem executing_iff (p : Fin 8) : executing k p = true ↔ (k.pcb p).pst = .executing := by
  simp [executing]

theorem Queue.takesTurn (h : Queue k (x :: rest)) (hex : ∃ p ∈ x :: rest, (k.pcb p).pst = .executing) :
    ∃ y pre post k', Turn (executing k) x y rest pre post ∧ Core.scheduler k = some k' ∧
      Queue k' (y :: (post ++ pre)) ∧ Switched k k' y := by
  obtain ⟨pre, y, post, hl, hpre, hy⟩ := exists_first hex
  obtain ⟨k', hk', hq, hs⟩ := h.scheduler hl hpre hy
  refine ⟨y, pre, post, k', ⟨hl, fun p hp => ?_, (executing_iff y).mpr hy⟩, hk', hq, hs⟩
  simpa [executing] using hpre p hp

theorem executing_congr (h : ∀ p, (k'.pcb p).pst = (k.pcb p).pst) : executing k' = executing k := by
  funext p
  rw [executing, executing, h]

theorem Queue.keepsStates {c : Svc} (h : Queue k l) (hc : KeepsStates k c)
    (hex : ∃ p ∈ l, (k.pcb p).pst = .executing) :
    ∃ k' l', svc k c = some k' ∧ Queue k' l' ∧ executing k' = executing k ∧ (∃ p ∈ l', (k'.pcb p).pst = .executing) ∧
      ((svcBody k c).2 = true ∧ (turnOrder (executing k) l)[0]? = some k'.current ∧
          turnOrder (executing k) l' = (turnOrder (executing k) l).rotate 1 ∨
        (svcBody k c).2 = false ∧ l' = l) := by
  obtain ⟨hrq, hsize, hpst⟩ := hc
  unfold svc
  generalize svcBody k c = r at hrq hsize hpst
  obtain ⟨k₁, b⟩ := r
  dsimp only at hrq hsize hpst ⊢
  have hq := h.congr hrq hsize
  have hsame := executing_congr hpst
  have hex₁ : ∃ p ∈ l, (k₁.pcb p).pst = .executing := by simpa only [hpst] using hex
  cases b with
  | false => exact ⟨k₁, l, rfl, hq, hsame, hex₁, .inr ⟨rfl, rfl⟩⟩
  | true =>
    cases l with
    | nil => simp at hex
    | cons x rest =>
      obtain ⟨y, pre, post, k', hturn, hk', hq', hs⟩ := hq.takesTurn hex₁
      have hsame' : executing k' = executing k := (executing_congr hs.pst).trans hsame
      rw [hsame] at hturn
      refine ⟨k', _, hk', hq', hsame', ⟨y, List.mem_cons_self, ?_⟩, .inl ⟨rfl, ?_, hturn.order_after⟩⟩
      · rw [← executing_iff, hsame']
        exact hturn.ready
      · rw [hturn.order, hs.current]
        rfl

theorem Queue.turns_cycle (calls : List Svc) (h : Queue k l) (hex : ∃ p ∈ l, (k.pcb p).pst = .executing)
    (hc : Along svcStep keepsStatesOk (some k) calls) :
    (∃ k', run svcStep (some k) calls = some k') ∧ Cycles (turnOrder (executing k) l) (turns k calls) := by
  induction calls generalizing k l with
  | nil => exact ⟨⟨k, rfl⟩, Cycles.nil _⟩
  | cons c rest ih =>
    obtain ⟨hfirst, hrest⟩ := hc
    obtain ⟨k', l', hsvc, hq, hsame, hex', hcase⟩ := h.keepsStates (hfirst.2 k rfl) hex
    have hstep : svcStep (some k) c = some k' := (svcStep_some k hfirst.1).trans hsvc
    rw [hstep] at hrest
    obtain ⟨hrun, hcycle⟩ := ih hq hex' hrest
    rw [hsame] at hcycle
    rw [run_cons, turns, hstep]
    refine ⟨hrun, ?_⟩
    dsimp only
    rcases hcase with ⟨hb, hhead, horder⟩ | ⟨hb, rfl⟩
    · rw [if_pos hb]
      rw [horder] at hcycle
      exact hcycle.cons hhead
    · rw [if_neg (by simp [hb])]
      exact hcycle

end

/-- **The executing processes take turns in the order of the queue.** From every
state that is reached, by any calls, in which some process of the queue is
executing: over every run of calls that leave the states of the processes
alone (file system calls, `yield`, interrupts and others), the calls of the
scheduler dispatch the executing processes behind the head one after the other,
round and round, so that each stretch of as many calls is a rotation of that
order. Priorities play no part. -/
theorem turns_in_order (v : Vol) (link : Link) (before calls : List Svc) (k : Kernel)
    (hk : run svcStep (some (boot v link)) before = some k)
    (hex : ∃ p ∈ queued k, (k.pcb p).pst = .executing) (hc : Along svcStep keepsStatesOk (some k) calls) :
    (∃ k', run svcStep (some k) calls = some k') ∧ Cycles (turnOrder (executing k) (queued k)) (turns k calls) ∧
      ∀ i, i + (turnOrder (executing k) (queued k)).length ≤ (turns k calls).length →
        ((turns k calls).drop i).take (turnOrder (executing k) (queued k)).length =
          (turnOrder (executing k) (queued k)).rotate i := by
  obtain ⟨l, h⟩ := numbered_reached v link before hk
  rw [h.queue.queued] at hex ⊢
  obtain ⟨hrun, hcycle⟩ := h.queue.turns_cycle calls hex hc
  exact ⟨hrun, hcycle, fun i hi => hcycle.window hi⟩

theorem along_timers (s : Option Kernel) (n : Nat) :
    Along svcStep keepsStatesOk s (List.replicate n (.trap .timer)) := by
  induction n generalizing s with
  | zero => trivial
  | succ n ih => exact ⟨⟨rfl, fun _ _ => ⟨rfl, rfl, fun _ => rfl⟩⟩, ih _⟩

theorem Queue.length_timers {k : Kernel} {l : List (Fin 8)} (h : Queue k l)
    (hex : ∃ p ∈ l, (k.pcb p).pst = .executing) (n : Nat) :
    (turns k (List.replicate n (.trap .timer))).length = n := by
  induction n generalizing k l with
  | zero => rfl
  | succ n ih =>
    obtain ⟨k', l', hsvc, hq, -, hex', -⟩ := h.keepsStates (c := .trap .timer) ⟨rfl, rfl, fun _ => rfl⟩ hex
    have hyes : (svcBody k (.trap .timer)).2 = true := rfl
    rw [List.replicate_succ, turns, svcStep_some k rfl, hsvc]
    dsimp only
    rw [if_pos hyes, List.length_cons, ih hq hex']

/-- Five interrupts of two processes. -/
theorem turns_of_two : ∃ k, run svcStep (some (boot fullVol noLink)) [.trap .fork] = some k ∧
    Cycles [1, 0] (turns k (List.replicate 5 (.trap .timer))) ∧
      (turns k (List.replicate 5 (.trap .timer))).length = 5 := by
  have hex : ∃ p ∈ [0, 1], ((setGpr0 (fork (boot fullVol noLink)).2 1).pcb p).pst = .executing := ⟨1, by decide, rfl⟩
  have h := turns_in_order fullVol noLink [.trap .fork] (List.replicate 5 (.trap .timer)) _ rfl hex
    (along_timers _ 5)
  obtain ⟨l, hl⟩ := numbered_reached fullVol noLink [.trap .fork] rfl
  refine ⟨_, rfl, h.2.1, hl.queue.length_timers ?_ 5⟩
  rw [← hl.queue.queued]
  exact hex

/-! Waiting for a turn. -/

def killsNobody : Svc → Prop
  | .trap (.kill _ sig) => sig ≠ some .sigkill
  | .trap (.raise sig) => sig ≠ some .sigkill
  | _ => True

/-- A call that kills no process and after which, before the scheduler, `p` is
still executing. -/
def StaysReady (p : Fin 8) (s : Option Kernel) (c : Svc) : Prop :=
  inTables c = true ∧ killsNobody c ∧ ∀ k, s = some k → ((svcBody k c).1.pcb p).pst = .executing

section

variable {k k' : Kernel} {l : List (Fin 8)}

def SameQueue (k k' : Kernel) : Prop := k'.rq = k.rq ∧ k'.rqSize = k.rqSize

theorem SameQueue.trans {k₁ k₂ : Kernel} (h : SameQueue k k₁) (h' : SameQueue k₁ k₂) : SameQueue k k₂ :=
  ⟨h'.1.trans h.1, h'.2.trans h.2⟩

theorem sameQueue_kill (k : Kernel) (pid : Int) {sig : Sig} (hsig : sig ≠ .sigkill) :
    SameQueue k (kill k pid sig) := by
  have hsignal : ∀ p, SameQueue k (signal k p sig) := by
    intro p
    cases sig with
    | sigkill => exact absurd rfl hsig
    | sigwait => exact ⟨rfl, rfl⟩
    | sigcont =>
      unfold signal
      dsimp only
      split <;> exact ⟨rfl, rfl⟩
    | sigpri0 => exact ⟨rfl, rfl⟩
  unfold kill
  split
  · split
    · exact hsignal _
    · exact ⟨rfl, rfl⟩
  · split <;> exact ⟨rfl, rfl⟩

theorem sameQueue_killSig (k : Kernel) (pid : Int) {sig : Option Sig} (hsig : sig ≠ some .sigkill) :
    SameQueue k (killSig k pid sig) := by
  cases sig with
  | none => exact ⟨rfl, rfl⟩
  | some sig => exact sameQueue_kill k pid fun he => hsig (congrArg some he)

theorem sameQueue_mqSend (k : Kernel) (m : Fin 32) (msg : List UInt8) : SameQueue k (mqSend k m msg).2 := by
  have hwait : SameQueue k (kill (setMq k m { k.mq m with msgLspid := k.self.pid }) k.self.pid .sigwait) :=
    sameQueue_kill (setMq k m _) _ (by decide)
  unfold mqSend
  dsimp only
  rw [self_setMq]
  generalize kill (setMq k m { k.mq m with msgLspid := k.self.pid }) k.self.pid .sigwait = k₁ at hwait ⊢
  split
  · split
    · exact SameQueue.trans hwait (sameQueue_kill (setMq k₁ m _) _ (by decide))
    · exact hwait
  · exact hwait

theorem sameQueue_mqReceive (k : Kernel) (m : Fin 32) (len : Nat) : SameQueue k (mqReceive k m len).2.2 := by
  by_cases ht : takes k m
  · rw [mqReceive_take len ht]
    exact sameQueue_kill (setMq k m _) _ (by decide)
  · rw [mqReceive_wait len ht]
    exact sameQueue_kill (setMq k m _) _ (by decide)

theorem sameQueue_mqOpen (k : Kernel) (name : Int) : SameQueue k (mqOpen k name).2 := by
  obtain ⟨mq', he⟩ := mqOpen_eq k name
  rw [he]
  exact ⟨rfl, rfl⟩

theorem SameProcs.sameQueue (h : SameProcs k k') : SameQueue k k' := ⟨h.rq, h.size⟩

theorem sameQueue_fsBody (k : Kernel) (c : FsCall) : SameQueue k (fsBody k c) := by
  obtain ⟨k₁, hs, he | ⟨r, he⟩⟩ := sameProcs_fsBody k c
  · rw [he]
    exact hs.sameQueue
  · rw [he]
    exact hs.sameQueue

theorem Numbered.svcBody_grows (h : Numbered k l) {c : Svc} (hc : killsNobody c) :
    ∃ added, Queue (Core.svcBody k c).1 (l ++ added) := by
  have hsame : ∀ k', SameQueue k k' → ∃ added, Queue k' (l ++ added) := fun k' hq =>
    ⟨[], by rw [List.append_nil]; exact h.queue.congr hq.1 hq.2⟩
  cases c with
  | fs c => exact hsame _ (sameQueue_fsBody k c)
  | trap c =>
    cases c with
    | yield => exact hsame _ ⟨rfl, rfl⟩
    | fork =>
      rcases pcb_fork k with ⟨-, he⟩ | ⟨p, x, -, -, -, -, he, -⟩
      · unfold Core.svcBody Core.trapBody
        rw [he]
        exact hsame _ ⟨rfl, rfl⟩
      · have hset : Queue (k.setPcb p x) l := h.queue.congr rfl rfl
        unfold Core.svcBody Core.trapBody
        rw [he]
        by_cases hlt : l.length < 8
        · exact ⟨[p], (hset.add hlt p).congr rfl rfl⟩
        · refine hsame _ ?_
          dsimp only
          unfold rqAdd
          rw [dif_neg (by rw [hset.size]; exact hlt)]
          exact ⟨rfl, rfl⟩
    | exec path =>
      obtain ⟨hrq, hsize, -⟩ := pcb_exec k path h.self
      exact hsame _ ⟨hrq, hsize⟩
    | kill pid sig => exact hsame _ (sameQueue_killSig k pid hc)
    | raise sig => exact hsame _ (sameQueue_killSig k _ hc)
    | mqOpen name => exact hsame _ (sameQueue_mqOpen k name)
    | send m msg => exact hsame _ (sameQueue_mqSend k m msg)
    | receive m len => exact hsame _ (sameQueue_mqReceive k m len)
    | timer => exact hsame _ ⟨rfl, rfl⟩
    | uart => exact hsame _ (sameProcs_uart k).sameQueue

/-- One call: `p` is dispatched, or stays in the queue with fewer processes
before it, or, without a call of the scheduler, with as many. -/
theorem Numbered.waits {c : Svc} {p : Fin 8} (h : Numbered k l) (hp : p ∈ l) (hc : StaysReady p (some k) c) :
    ∃ k' l', Core.svc k c = some k' ∧ Numbered k' l' ∧ p ∈ l' ∧
      ((Core.svcBody k c).2 = true ∧ (k'.current = p ∨ p ∈ l'.tail ∧ l'.tail.idxOf p < 7 ∧
          (p ∈ l.tail → l'.tail.idxOf p < l.tail.idxOf p)) ∨
        (Core.svcBody k c).2 = false ∧ (p ∈ l.tail → p ∈ l'.tail ∧ l'.tail.idxOf p = l.tail.idxOf p)) := by
  obtain ⟨-, hnobody, hready⟩ := hc
  obtain ⟨added, hq⟩ := h.svcBody_grows hnobody
  obtain ⟨l₁, h₁⟩ := h.svcBody c
  obtain rfl : l₁ = l ++ added := h₁.queue.queued.symm.trans hq.queued
  have hpst := hready k rfl
  obtain ⟨x, rest, rfl⟩ := List.exists_cons_of_ne_nil (List.ne_nil_of_mem hp)
  have hsvc : Core.svc k c = if (Core.svcBody k c).2 then Core.scheduler (Core.svcBody k c).1
      else some (Core.svcBody k c).1 := by
    unfold Core.svc
    split
    · next he => rw [he]; rfl
    · next he => rw [he]; rfl
  rw [List.cons_append] at h₁
  cases hb : (Core.svcBody k c).2 with
  | false =>
    rw [hsvc, hb]
    refine ⟨_, _, rfl, h₁, List.mem_cons.mpr ?_, .inr ⟨rfl, fun hmem => ?_⟩⟩
    · exact (List.mem_cons.mp hp).imp_right (List.mem_append_left added)
    · exact ⟨List.mem_append_left added hmem, List.idxOf_append_of_mem hmem⟩
  | true =>
    have hmem : p ∈ x :: (rest ++ added) := by
      rw [← List.cons_append]
      exact List.mem_append_left added hp
    obtain ⟨y, pre, post, k', hturn, hk', hq', hs⟩ := h₁.queue.takesTurn ⟨p, hmem, hpst⟩
    obtain ⟨l', h'⟩ := h₁.scheduler hk'
    obtain rfl : l' = y :: (post ++ pre) := h'.queue.queued.symm.trans hq'.queued
    rw [hsvc, hb, if_pos rfl, hk']
    by_cases hy : y = p
    · exact ⟨k', _, rfl, h', hy ▸ List.mem_cons_self, .inl ⟨rfl, .inl (hs.current.trans hy)⟩⟩
    have hin : p ∈ rest ++ added ++ [x] := by
      rcases List.mem_cons.mp hmem with rfl | hmem
      · exact List.mem_append_right _ (List.mem_singleton.mpr rfl)
      · exact List.mem_append_left _ hmem
    obtain ⟨hpost, hnear⟩ := hturn.nearer hin ((executing_iff p).mpr hpst) hy
    have hidx : (post ++ pre).idxOf p = post.idxOf p := List.idxOf_append_of_mem hpost
    have hlt : post.idxOf p < post.length := List.idxOf_lt_length_iff.mpr hpost
    have hfits := hq'.holds.fits
    rw [List.length_cons, List.length_append] at hfits
    refine ⟨k', _, rfl, h', List.mem_cons_of_mem y (List.mem_append_left pre hpost),
      .inl ⟨rfl, .inr ⟨List.mem_append_left pre hpost, ?_, fun hrest => ?_⟩⟩⟩
    · change (post ++ pre).idxOf p < 7
      omega
    · change p ∈ rest at hrest
      change (post ++ pre).idxOf p < rest.idxOf p
      have hsame : (rest ++ added ++ [x]).idxOf p = rest.idxOf p := by
        rw [List.append_assoc, List.idxOf_append_of_mem hrest]
      omega

theorem Numbered.dispatched {p : Fin 8} (calls : List Svc) (h : Numbered k l) (hp : p ∈ l.tail)
    (hc : Along svcStep (StaysReady p) (some k) calls) (hlen : l.tail.idxOf p < (turns k calls).length) :
    p ∈ (turns k calls).take (l.tail.idxOf p + 1) := by
  induction calls generalizing k l with
  | nil => exact absurd hlen (Nat.not_lt_zero _)
  | cons c rest ih =>
    obtain ⟨hfirst, hrest⟩ := hc
    obtain ⟨k', l', hsvc, h', -, hcase⟩ := h.waits (List.mem_of_mem_tail hp) hfirst
    have hstep : svcStep (some k) c = some k' := (svcStep_some k hfirst.1).trans hsvc
    rw [hstep] at hrest
    rw [turns, hstep] at hlen ⊢
    dsimp only at hlen ⊢
    rcases hcase with ⟨hb, hturn⟩ | ⟨hb, hstill⟩
    · rw [if_pos hb] at hlen ⊢
      rw [List.take_succ_cons]
      rcases hturn with rfl | ⟨htail, -, hless⟩
      · exact List.mem_cons_self
      · have hless := hless hp
        rw [List.length_cons] at hlen
        refine List.mem_cons_of_mem _ (List.take_subset_take_left _ ?_ (ih h' htail hrest (by omega)))
        omega
    · rw [if_neg (by simp [hb])] at hlen ⊢
      obtain ⟨htail, hsame⟩ := hstill hp
      rw [← hsame] at hlen ⊢
      exact ih h' htail hrest hlen

theorem Numbered.eight_turns {p : Fin 8} (calls : List Svc) (h : Numbered k l) (hp : p ∈ l)
    (hc : Along svcStep (StaysReady p) (some k) calls) :
    (∃ k', run svcStep (some k) calls = some k') ∧
      (8 ≤ (turns k calls).length → p ∈ (turns k calls).take 8) := by
  induction calls generalizing k l with
  | nil => exact ⟨⟨k, rfl⟩, fun hlen => absurd hlen (by simp [turns])⟩
  | cons c rest ih =>
    obtain ⟨hfirst, hrest⟩ := hc
    obtain ⟨k', l', hsvc, h', hp', hcase⟩ := h.waits hp hfirst
    have hstep : svcStep (some k) c = some k' := (svcStep_some k hfirst.1).trans hsvc
    rw [hstep] at hrest
    obtain ⟨hrun, hturns⟩ := ih h' hp' hrest
    rw [run_cons, turns, hstep]
    refine ⟨hrun, ?_⟩
    dsimp only
    rcases hcase with ⟨hb, hturn⟩ | ⟨hb, -⟩
    · rw [if_pos hb]
      intro hlen
      rw [List.take_succ_cons]
      rcases hturn with rfl | ⟨htail, hbound, -⟩
      · exact List.mem_cons_self
      · rw [List.length_cons] at hlen
        refine List.mem_cons_of_mem _ (List.take_subset_take_left _ ?_
          (h'.dispatched rest htail hrest (by omega)))
        omega
    · rw [if_neg (by simp [hb])]
      exact hturns

end

/-- **A process that stays ready gets a turn** in the first eight calls of the
scheduler, and so in any eight in a row: from every state that is reached, by
any calls, and over every run of calls of which none kills a process, while the
others fork, exec, send, receive, wait, wake each other or use the file
system. -/
theorem ready_gets_turn (v : Vol) (link : Link) (before calls : List Svc) (k : Kernel) (p : Fin 8)
    (hk : run svcStep (some (boot v link)) before = some k) (hp : p ∈ queued k)
    (hc : Along svcStep (StaysReady p) (some k) calls) :
    (∃ k', run svcStep (some k) calls = some k') ∧
      (8 ≤ (turns k calls).length → p ∈ (turns k calls).take 8) := by
  obtain ⟨l, h⟩ := numbered_reached v link before hk
  rw [h.queue.queued] at hp
  exact h.eight_turns calls hp hc

theorem Numbered.along_ready {k : Kernel} {l : List (Fin 8)} {p : Fin 8} (h : Numbered k l) (hp : p ∈ l)
    (hpst : (k.pcb p).pst = .executing) (n : Nat) :
    Along svcStep (StaysReady p) (some k) (List.replicate n (.trap .timer)) := by
  induction n generalizing k l with
  | zero => trivial
  | succ n ih =>
    have hc : StaysReady p (some k) (.trap .timer) := ⟨rfl, trivial, by rintro _ ⟨⟩; exact hpst⟩
    obtain ⟨k', l', hsvc, h', hp', -⟩ := h.waits hp hc
    obtain ⟨k₂, -, hsvc₂, -, hsame, -⟩ := h.queue.keepsStates (c := .trap .timer) ⟨rfl, rfl, fun _ => rfl⟩
      ⟨p, hp, hpst⟩
    obtain rfl : k₂ = k' := Option.some.inj (hsvc₂.symm.trans hsvc)
    refine ⟨hc, ?_⟩
    change Along svcStep _ (Core.svc k (.trap .timer)) _
    rw [hsvc]
    refine ih h' hp' ?_
    rw [← executing_iff, hsame, executing_iff]
    exact hpst

/-- Eight interrupts of two processes, of which the second is looked at. -/
theorem ready_gets_turn_two : ∃ k, run svcStep (some (boot fullVol noLink)) [.trap .fork] = some k ∧
    1 ∈ (turns k (List.replicate 8 (.trap .timer))).take 8 := by
  obtain ⟨l, hl⟩ := numbered_reached fullVol noLink [.trap .fork] rfl
  have hpst : ((setGpr0 (fork (boot fullVol noLink)).2 1).pcb 1).pst = .executing := rfl
  have hp : (1 : Fin 8) ∈ queued (setGpr0 (fork (boot fullVol noLink)).2 1) := by decide
  have hmem : 1 ∈ l := by
    rw [← hl.queue.queued]
    exact hp
  have hlen := hl.queue.length_timers ⟨1, hmem, hpst⟩ 8
  exact ⟨_, rfl, (ready_gets_turn fullVol noLink [.trap .fork] (List.replicate 8 (.trap .timer)) _ 1 rfl hp
    (hl.along_ready hmem hpst 8)).2 (by rw [hlen])⟩

/-! A line of processes that fork and exit. -/

/-- `x` runs, `p` is behind it and ready, and there is room for a child. -/
structure Lineage (k : Kernel) (x p : Fin 8) : Prop where
  lined : Lined k [x, p]
  current : k.current = x
  ready : (k.pcb p).pst = .executing
  slot : ∃ q, (k.pcb q).pst = .terminated

section

variable {k k' : Kernel} {x p : Fin 8}

theorem turns_append {calls : List Svc} (hk : run svcStep (some k) calls = some k') (calls' : List Svc) :
    turns k (calls ++ calls') = turns k calls ++ turns k' calls' := by
  induction calls generalizing k with
  | nil =>
    cases hk
    rfl
  | cons c rest ih =>
    rw [run_cons] at hk
    cases hsvc : svcStep (some k) c with
    | none =>
      rw [hsvc] at hk
      have hnone : run svcStep none rest = none := by
        clear hk ih
        induction rest with
        | nil => rfl
        | cons c rest ih =>
          rw [run_cons, svcStep_none]
          exact ih
      rw [hnone] at hk
      cases hk
    | some k₁ =>
      rw [hsvc] at hk
      simp only [List.cons_append, turns, hsvc, ih hk]
      split <;> rfl

theorem Lineage.forks (h : Lineage k x p) : ∃ k₁ z, svc k (.trap .fork) = some k₁ ∧ z ≠ p ∧ Lined k₁ [x, p, z] ∧
    k₁.current = x ∧ (k₁.pcb p).pst = .executing ∧ (k₁.pcb z).pst = .executing := by
  obtain ⟨q, hq⟩ := h.slot
  rcases pcb_fork k with ⟨hfull, -⟩ | ⟨z, child, hterm, hpid, hpst, -, hfork, hpcb⟩
  · exact absurd hq (hfull q)
  have hzp : z ≠ p := by
    rintro rfl
    rw [h.ready] at hterm
    cases hterm
  refine ⟨setGpr0 (rqAdd (k.setPcb z child) z) (UInt32.ofNat z.val), z, ?_, hzp,
    (h.lined.add hterm hpid hpst hpcb).setGpr0 _, ?_, ?_, ?_⟩
  · unfold svc svcBody trapBody
    rw [hfork]
  · unfold rqAdd
    split <;> exact h.current
  · change ((rqAdd (k.setPcb z child) z).pcb p).pst = _
    rw [hpcb, if_neg hzp.symm, h.ready]
  · change ((rqAdd (k.setPcb z child) z).pcb z).pst = _
    rw [hpcb, if_pos rfl, hpst]

theorem exits_past {z : Fin 8} (h : Lined k [x, p, z]) (hx : k.current = x) (hp : (k.pcb p).pst = .executing)
    (hz : (k.pcb z).pst = .executing) : ∃ k', svc k (.trap (.raise (some .sigkill))) = some k' ∧ Lineage k' z p := by
  have hnot := (List.nodup_cons.mp h.nodup).1
  have hxp : p ≠ x := fun he => hnot (he ▸ List.mem_cons_self)
  have hxz : z ≠ x := fun he => hnot (he ▸ List.mem_cons_of_mem p List.mem_cons_self)
  have hlined : Lined (signal k x .sigkill) [p, z] := by
    have hkill := h.sigkill x
    rwa [List.erase_cons_head] at hkill
  have hpst := fun r => (pcb_sigkill k x r).2
  have hkill : kill k k.self.pid .sigkill = signal k x .sigkill := by rw [h.self, kill_val, hx]
  have hsvc : svc k (.trap (.raise (some .sigkill))) = scheduler (signal k x .sigkill) := by
    unfold svc svcBody trapBody killSig
    simp only [hkill]
  have hturn : [z] ++ [p] = [] ++ z :: [p] := rfl
  obtain ⟨k', hk', hq, hs⟩ := hlined.queue.scheduler hturn (by simp) (by rw [hpst, if_neg hxz, hz])
  refine ⟨k', hsvc.trans hk', hlined.switched hturn hq hs, hs.current, ?_, x, ?_⟩
  · rw [hs.pst, hpst, if_neg hxp, hp]
  · rw [hs.pst, hpst, if_pos rfl]

theorem Lineage.round (h : Lineage k x p) : ∃ k' z, z ≠ p ∧ Lineage k' z p ∧
    run svcStep (some k) [.trap .fork, .trap (.raise (some .sigkill))] = some k' ∧
      turns k [.trap .fork, .trap (.raise (some .sigkill))] = [z] := by
  obtain ⟨k₁, z, hfork, hzp, hlined, hcur, hp, hz⟩ := h.forks
  obtain ⟨k', hexit, h'⟩ := exits_past hlined hcur hp hz
  refine ⟨k', z, hzp, h', ?_, ?_⟩
  · rw [run_cons, svcStep_some k rfl, hfork]
    exact hexit
  · have hno : (svcBody k (.trap .fork)).2 = false := rfl
    have hyes : (svcBody k₁ (.trap (.raise (some .sigkill)))).2 = true := rfl
    have hforks : svcStep (some k) (.trap .fork) = some k₁ := hfork
    have hexits : svcStep (some k₁) (.trap (.raise (some .sigkill))) = some k' := hexit
    simp only [turns, hforks, hexits, hno, hyes, h'.current, if_true]
    rfl

theorem Lineage.starves (h : Lineage k x p) (n : Nat) : ∃ k' z, Lineage k' z p ∧
    run svcStep (some k) (List.replicate n [.trap .fork, .trap (.raise (some .sigkill))]).flatten = some k' ∧
      (turns k (List.replicate n [.trap .fork, .trap (.raise (some .sigkill))]).flatten).length = n ∧
        p ∉ turns k (List.replicate n [.trap .fork, .trap (.raise (some .sigkill))]).flatten := by
  induction n generalizing k x with
  | zero => exact ⟨k, x, h, rfl, rfl, by simp [turns]⟩
  | succ n ih =>
    obtain ⟨k₁, z, hz, h₁, hrun, hturns⟩ := h.round
    obtain ⟨k', y, h', hrest, hlen, hnot⟩ := ih h₁
    rw [List.replicate_succ, List.flatten_cons, run_append, hrun, turns_append hrun, hturns]
    refine ⟨k', y, h', hrest, ?_, ?_⟩
    · rw [List.length_append, hlen, List.length_singleton, Nat.add_comm]
    · rw [List.mem_append, List.mem_singleton, not_or]
      exact ⟨hz.symm, hnot⟩

end

theorem lineage_boot (v : Vol) (link : Link) : ∃ k, svc (boot v link) (.trap .fork) = some k ∧ Lineage k 0 1 := by
  have h := (rqInv_boot v link).lined
  have hfirst : (fork (boot v link)).1 = 1 := rfl
  rcases pcb_fork (boot v link) with ⟨-, hfork⟩ | ⟨p, child, hterm, hpid, hpst, -, hfork, hpcb⟩
  · rw [hfork] at hfirst
    exact absurd hfirst (show noAddr ≠ 1 by decide)
  have hslot : ∀ q : Fin 8, UInt32.ofNat q.val = 1 → q = 1 := by decide
  obtain rfl : p = 1 := by
    rw [hfork] at hfirst
    exact hslot p hfirst
  refine ⟨setGpr0 (rqAdd ((boot v link).setPcb 1 child) 1) 1, ?_, (h.add hterm hpid hpst hpcb).setGpr0 _, ?_, ?_, 2, ?_⟩
  · unfold svc svcBody trapBody
    rw [hfork]
    rfl
  · rfl
  · change ((rqAdd ((boot v link).setPcb 1 child) 1).pcb 1).pst = _
    rw [hpcb, if_pos rfl, hpst]
  · change ((rqAdd ((boot v link).setPcb 1 child) 1).pcb 2).pst = _
    rw [hpcb, if_neg (by decide)]
    rfl

/-- **Exits starve a process that is ready.** After reset and one `fork`, the
child 1 is ready; then the running process forks and exits, its child does the
same, and so on: over any number of calls of the scheduler process 1 stays in
the queue, executing, and none of them dispatches it. -/
theorem exits_starve (v : Vol) (link : Link) (n : Nat) : ∃ k k',
    run svcStep (some (boot v link)) [.trap .fork] = some k ∧
    run svcStep (some k) (List.replicate n [.trap .fork, .trap (.raise (some .sigkill))]).flatten = some k' ∧
    (turns k (List.replicate n [.trap .fork, .trap (.raise (some .sigkill))]).flatten).length = n ∧
    1 ∉ turns k (List.replicate n [.trap .fork, .trap (.raise (some .sigkill))]).flatten ∧
    1 ∈ queued k' ∧ (k'.pcb 1).pst = .executing := by
  obtain ⟨k, hk, h⟩ := lineage_boot v link
  obtain ⟨k', z, h', hrun, hlen, hnot⟩ := h.starves n
  refine ⟨k, k', hk, hrun, hlen, hnot, ?_, h'.ready⟩
  rw [h'.lined.queue.queued]
  simp

end ArmKernel.Core
