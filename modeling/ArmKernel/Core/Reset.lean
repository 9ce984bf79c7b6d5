import ArmKernel.Core.Process

/-! `kernel_handler_rst` on the zeroed memory of a fresh start. -/
namespace ArmKernel.Core

open Lib Fs

/-- The global variables before the first instruction. -/
def powerOn (v : Vol) (link : Link) : Kernel where
  pcb := fun _ => Pcb.zero
  current := 0
  rq := fun _ => none
  rqSize := 0
  mq := fun _ => Mqueue.zero
  of := fun _ => ⟨none, 0⟩
  ai := fun _ => INode.zero
  vol := v
  cwd := 0
  ctx := Ctx.zero
  link := link

def kernelHandlerRst (k : Kernel) : Kernel :=
  let ctx := { Ctx.zero with cpsr := 0x50, pc := k.link.entryInit, sp := k.link.tosInit }
  let init := { Pcb.zero with pid := 0, prt := 0, ctx := ctx, pst := .executing, defp := 1, prio := 1 }
  let k := { k.setPcb 0 init with current := 0, ctx := ctx, rqSize := 0 }
  let k := rqAdd k 0
  { k with vol := mount k.vol, cwd := rootDir }

def boot (v : Vol) (link : Link) : Kernel := kernelHandlerRst (powerOn v link)

end ArmKernel.Core
