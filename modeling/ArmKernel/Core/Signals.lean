import ArmKernel.Core.Process

/-! What signals leave alone, and the state changes of the two signals the
channels send. -/
namespace ArmKernel.Core

open Lib Fs

theorem rqRm_eq (k : Kernel) (pid : Int) :
    ∃ rq n, rqRm k pid = { k with rq := rq, rqSize := n } := by
  unfold rqRm
  generalize List.finRange 8 = ps
  induction ps generalizing k with
  | nil => exact ⟨k.rq, k.rqSize, rfl⟩
  | cons p ps ih =>
    have hstep : ∃ rq n, rqRmStep pid k p = { k with rq := rq, rqSize := n } := by
      unfold rqRmStep
      split
      · split
        · split
          · exact ⟨_, _, rfl⟩
          · exact ⟨k.rq, k.rqSize, rfl⟩
        · exact ⟨k.rq, k.rqSize, rfl⟩
      · exact ⟨k.rq, k.rqSize, rfl⟩
    obtain ⟨rq, n, hs⟩ := hstep
    obtain ⟨rq', n', ht⟩ := ih { k with rq := rq, rqSize := n }
    exact ⟨rq', n', by rw [List.foldl_cons, hs, ht]⟩

theorem kill_eq (k : Kernel) (pid : Int) (sig : Sig) : ∃ pcb rq n,
    kill k pid sig = { k with pcb := pcb, rq := rq, rqSize := n } ∧
      ∀ p, (pcb p).pid = (k.pcb p).pid ∧ (pcb p).fd = (k.pcb p).fd := by
  have hset : ∀ (p : Fin 8) (x : Pcb), x.pid = (k.pcb p).pid → x.fd = (k.pcb p).fd →
      ∀ q, (Function.update k.pcb p x q).pid = (k.pcb q).pid ∧
        (Function.update k.pcb p x q).fd = (k.pcb q).fd := by
    intro p x hpid hfd q
    by_cases hq : q = p
    · subst hq
      simp [hpid, hfd]
    · simp [hq]
  unfold kill
  split
  · split
    · next h =>
      cases sig with
      | sigkill =>
        obtain ⟨rq, n, he⟩ := rqRm_eq (setPst k ⟨pid.toNat, h⟩ .terminated) (Fin.val ⟨pid.toNat, h⟩)
        exact ⟨_, rq, n, he, hset _ _ rfl rfl⟩
      | sigwait => exact ⟨_, k.rq, k.rqSize, rfl, hset _ _ rfl rfl⟩
      | sigcont =>
        simp only [signal]
        split
        · exact ⟨_, k.rq, k.rqSize, rfl, hset _ _ rfl rfl⟩
        · exact ⟨k.pcb, k.rq, k.rqSize, rfl, fun _ => ⟨rfl, rfl⟩⟩
      | sigpri0 => exact ⟨_, k.rq, k.rqSize, rfl, hset _ _ rfl rfl⟩
    · exact ⟨k.pcb, k.rq, k.rqSize, rfl, fun _ => ⟨rfl, rfl⟩⟩
  · split
    · refine ⟨_, k.rq, k.rqSize, rfl, fun p => ?_⟩
      dsimp only
      split <;> exact ⟨rfl, rfl⟩
    · exact ⟨k.pcb, k.rq, k.rqSize, rfl, fun _ => ⟨rfl, rfl⟩⟩

@[simp] theorem kill_mq (k : Kernel) (pid : Int) (sig : Sig) : (kill k pid sig).mq = k.mq := by
  obtain ⟨_, _, _, he, _⟩ := kill_eq k pid sig
  rw [he]

@[simp] theorem kill_current (k : Kernel) (pid : Int) (sig : Sig) :
    (kill k pid sig).current = k.current := by
  obtain ⟨_, _, _, he, _⟩ := kill_eq k pid sig
  rw [he]

@[simp] theorem kill_pid (k : Kernel) (pid : Int) (sig : Sig) (p : Fin 8) :
    ((kill k pid sig).pcb p).pid = (k.pcb p).pid := by
  obtain ⟨_, _, _, he, h⟩ := kill_eq k pid sig
  rw [he]
  exact (h p).1

/-! Signals to an existing process. -/

theorem kill_val (k : Kernel) (p : Fin 8) (sig : Sig) : kill k p.val sig = signal k p sig := by
  have h : (0 : Int) ≤ p.val ∧ (p.val : Int) ≤ 8 := by omega
  have hp : (p.val : Int).toNat < 8 := by omega
  unfold kill
  rw [if_pos h, dif_pos hp]
  rfl

theorem pst_sigwait (k : Kernel) (p q : Fin 8) : ((kill k p.val .sigwait).pcb q).pst =
    if q = p then .waiting else (k.pcb q).pst := by
  rw [kill_val]
  by_cases hq : q = p
  · subst hq
    simp [signal, setPst, Kernel.setPcb]
  · simp [signal, setPst, Kernel.setPcb, hq]

theorem pst_sigcont (k : Kernel) (p q : Fin 8) : ((kill k p.val .sigcont).pcb q).pst =
    if q = p ∧ (k.pcb q).pst = .waiting then .executing else (k.pcb q).pst := by
  rw [kill_val]
  by_cases hw : (k.pcb p).pst = .waiting
  · by_cases hq : q = p
    · subst hq
      simp [signal, setPst, Kernel.setPcb, hw]
    · simp [signal, setPst, Kernel.setPcb, hw, hq]
  · by_cases hq : q = p
    · subst hq
      simp [signal, hw]
    · simp [signal, hw, hq]

end ArmKernel.Core
