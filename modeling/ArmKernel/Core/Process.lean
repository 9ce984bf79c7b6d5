import ArmKernel.Core.File

/-! Processes and signals: `fork`, `exec`, `kill` and the ready queue they
edit. -/
namespace ArmKernel.Core

open Lib Lib.Bytes Fs

def rqAdd (k : Kernel) (p : Fin 8) : Kernel :=
  if h : k.rqSize < 8 then
    { k with rq := Function.update k.rq ⟨k.rqSize, h⟩ (some p), rqSize := k.rqSize + 1 }
  else k

/-- The shift of `rq_rm` from position `p` on, and the cleared last entry. -/
def rqClose (rq : Fin 8 → Option (Fin 8)) (size p : Nat) : Fin 8 → Option (Fin 8) := fun i =>
  if i.val + 1 = size then none
  else if h : p ≤ i.val ∧ i.val + 1 < size ∧ i.val + 1 < 8 then rq ⟨i.val + 1, h.2.2⟩
  else rq i

/-- One round of the scan of `rq_rm`; the bound is read again each time. -/
def rqRmStep (pid : Int) (k : Kernel) (p : Fin 8) : Kernel :=
  if p.val < k.rqSize then
    match k.rq p with
    | some q =>
      if (k.pcb q).pid = pid then
        { k with rq := rqClose k.rq k.rqSize p.val, rqSize := k.rqSize - 1 }
      else k
    | none => k
  else k

def rqRm (k : Kernel) (pid : Int) : Kernel := (List.finRange 8).foldl (rqRmStep pid) k

def setPst (k : Kernel) (p : Fin 8) (s : Pst) : Kernel := k.setPcb p { k.pcb p with pst := s }

/-- What `kill` does to `pcb[ p ]`. -/
def signal (k : Kernel) (p : Fin 8) : Sig → Kernel
  | .sigkill => rqRm (setPst k p .terminated) p.val
  | .sigwait => setPst k p .waiting
  | .sigcont => if (k.pcb p).pst = .waiting then setPst k p .executing else k
  | .sigpri0 => k.setPcb p { k.pcb p with defp := 0, prio := 0 }

/-- The range test also lets `pid = PROCESS_LIMIT` through, which names no
process control block. -/
def kill (k : Kernel) (pid : Int) (sig : Sig) : Kernel :=
  if 0 ≤ pid ∧ pid ≤ 8 then
    if h : pid.toNat < 8 then signal k ⟨pid.toNat, h⟩ sig else k
  else if pid = 9 ∧ sig = .sigkill then
    { k with pcb := fun p => if p = 0 then k.pcb p else { k.pcb p with pst := .terminated } }
  else k

def fork (k : Kernel) : UInt32 × Kernel :=
  match (List.finRange 8).find? fun p => (k.pcb p).pst == .terminated with
  | some p =>
    let child := { k.pcb p with
      pid := p.val
      prt := k.self.pid
      ctx := { k.ctx with gpr := Function.update k.ctx.gpr 0 0 }
      pst := .executing
      defp := 0x7FFFFFFF
      prio := 0x7FFFFFFF }
    (UInt32.ofNat p.val, rqAdd (k.setPcb p child) p)
  | none => (noAddr, k)

/-- A 32-bit variable at whose address `bytes` were stored. -/
def overwrite (old : UInt32) (bytes : List UInt8) : UInt32 :=
  word (putBytes (ofWords 4 fun _ => old) 0 bytes) 0

/-- `entry` and `priority` are uninitialised locals of `exec`; the results of
the two reads are not looked at. `path` was cut at its first separator by the
time it is opened. -/
def getProgramEntry (k : Kernel) (path : CStr) (entry priority : UInt32) :
    Int × UInt32 × UInt32 × Kernel :=
  if pathToIno k.vol path rootDir ≠ noAddr then
    match openFile k (strtokCut path) .oexist with
    | (file, k) =>
      if file ≠ -1 then
        match fread k file 4 with
        | (_, x, k) =>
          match fread k file 4 with
          | (_, y, k) => (0, overwrite entry x, overwrite priority y, (close k file).2)
      else (-1, entry, priority, k)
  else (-1, entry, priority, k)

def exec (k : Kernel) (path : CStr) : Int × Kernel :=
  match getProgramEntry k path (word k.vol.stkBlk 0) (word k.vol.stkBlk 1) with
  | (r, entry, priority, k) =>
    if r = -1 then (-1, k)
    else
      let ctx := { Ctx.zero with
        cpsr := 0x50
        pc := entry
        sp := k.link.tosInit - UInt32.ofNat k.self.pid.toNat * 0x00010000 }
      let pcb := { Pcb.zero with
        pid := k.self.pid
        pst := .executing
        ctx := ctx
        defp := priority
        prio := priority }
      (0, { k.setPcb k.current pcb with ctx := ctx })

end ArmKernel.Core
