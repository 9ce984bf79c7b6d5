import ArmKernel.Core.Channel

/-! `scheduler` and the parts of `kernel_handler_svc` and `kernel_handler_irq`
that deal with processes. `scheduler` does not return while no process of a
non-empty ready queue is executing; such a call has no result here. -/
namespace ArmKernel.Core

open Lib Lib.Bytes Fs

/-- The shift of `rq_rotate`, and the head put at the end. -/
def rqTurn (rq : Fin 8 → Option (Fin 8)) (last : Nat) : Fin 8 → Option (Fin 8) := fun i =>
  if i.val = last then rq 0
  else if h : i.val < last ∧ i.val + 1 < 8 then rq ⟨i.val + 1, h.2⟩
  else rq i

/-- `rq_rotate` up to its test. -/
def rotateOnce (k : Kernel) : Kernel :=
  { k with rq := rqTurn k.rq (if (k.rq 0).isNone then k.rqSize else k.rqSize - 1) }

/-- `rq_rotate`: it calls itself to skip past waiting processes. -/
def rotateLoop : Nat → Kernel → Option Kernel
  | 0, _ => none
  | fuel+1, k =>
    let k := rotateOnce k
    match k.rq 0 with
    | none => some k
    | some p => if (k.pcb p).pst ≠ .executing then rotateLoop fuel k else some k

/-- Eight turns bring the queue back to where it was. -/
def rqRotate (k : Kernel) : Option Kernel := rotateLoop 8 k

/-- `rq[ i ]->prio = rq[ i ]->defp` for the whole queue. -/
def resetPriorities (k : Kernel) : Kernel :=
  { k with pcb := fun p =>
      if (List.finRange 8).any fun i => i.val < k.rqSize && k.rq i == some p then
        { k.pcb p with prio := (k.pcb p).defp }
      else k.pcb p }

/-- Dispatch the process at the head of the queue. -/
def dispatch (k : Kernel) (p : Fin 8) : Kernel :=
  let k := if (k.pcb p).prio = 0 then resetPriorities k else k
  if k.current = p then k.setPcb p { k.pcb p with prio := (k.pcb p).prio - 1 }
  else
    -- the context goes to `pcb[ current->pid ]`
    let k := if h : k.self.pid.toNat < 8 then
        let q : Fin 8 := ⟨k.self.pid.toNat, h⟩
        k.setPcb q { k.pcb q with ctx := k.ctx }
      else k
    { k with ctx := (k.pcb p).ctx, current := p }

def scheduler (k : Kernel) : Option Kernel :=
  (rqRotate k).map fun k =>
    match k.rq 0 with
    | some p => dispatch k p
    | none => k

/-! System calls. -/

/-- An integer result as it is stored in `gpr[ 0 ]`. -/
def toReg (r : Int) : UInt32 := UInt32.ofNat (r % 2^32).toNat

def setGpr0 (k : Kernel) (x : UInt32) : Kernel :=
  { k with ctx := { k.ctx with gpr := Function.update k.ctx.gpr 0 x } }

/-- A signal number outside the enumeration has no case in `kill`. -/
def killSig (k : Kernel) (pid : Int) : Option Sig → Kernel
  | some sig => kill k pid sig
  | none => k

inductive Trap where
  | yield
  | fork
  | exec (path : CStr)
  | kill (pid : Int) (sig : Option Sig)
  | raise (sig : Option Sig)
  | mqOpen (name : Int)
  | send (m : Fin 32) (msg : List UInt8)
  | receive (m : Fin 32) (len : Nat)
  | timer
  | uart

/-- A trap up to the call of `scheduler`, and whether that is made. -/
def trapBody (k : Kernel) : Trap → Kernel × Bool
  | .yield => (k, true)
  | .fork =>
    match fork k with
    | (r, k) => (setGpr0 k r, false)
  | .exec path =>
    match exec k path with
    | (r, k) => (setGpr0 k (toReg r), false)
  | .kill pid sig => (killSig k pid sig, false)
  | .raise sig => (killSig k k.self.pid sig, true)
  | .mqOpen name =>
    match mqOpen k name with
    | (r, k) => (setGpr0 k (toReg r), false)
  | .send m msg =>
    match mqSend k m msg with
    | (r, k) => (setGpr0 k (toReg r), toReg r = noAddr)
  | .receive m len =>
    match mqReceive k m len with
    | (r, _, k) => (setGpr0 k (toReg r), toReg r = noAddr)
  | .timer => (k, true)
  | .uart =>
    if k.self.pid ≠ 0 then
      (k.setPcb 0 { k.pcb 0 with defp := 0x7FFFFFFF, prio := 0x7FFFFFFF }, true)
    else (k, false)

def trap (k : Kernel) (c : Trap) : Option Kernel :=
  match trapBody k c with
  | (k, true) => scheduler k
  | (k, false) => some k

end ArmKernel.Core
