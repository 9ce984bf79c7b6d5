import ArmKernel.Fs.Directory

/-! The global variables of `kernel.c`. Pointers into a table are indices of
that table and `NULL` is `none`; `ctx` is the register frame of the process
that entered the kernel, and `link` holds the addresses the linker fixes. -/
namespace ArmKernel.Core

open Lib Fs

/-! There is a process and a register of index 0. -/

instance neZero_processLimit : NeZero 8 := ⟨by decide⟩

instance neZero_registers : NeZero 13 := ⟨by decide⟩

inductive Pst where
  | terminated | created | ready | executing | waiting
deriving DecidableEq

inductive Sig where
  | sigkill | sigwait | sigcont | sigpri0
deriving DecidableEq

inductive Whence where
  | seekSet | seekCur | seekEnd
deriving DecidableEq

inductive OFlag where
  | ocreat | oexist
deriving DecidableEq

structure Ctx where
  cpsr : UInt32
  pc : UInt32
  gpr : Fin 13 → UInt32
  sp : UInt32
  lr : UInt32

/-- An open file: the active inode it refers to and its head position. -/
structure OFile where
  oInptr : Option (Fin 128)
  oHead : UInt32

structure Pcb where
  pid : Int
  prt : Int
  ctx : Ctx
  pst : Pst
  defp : UInt32
  prio : UInt32
  fd : Fin 16 → Option (Fin 128)

structure Mqueue where
  msgQname : Int
  msgQnum : Nat
  msgQrec : Nat
  msgLspid : Int
  msgLrpid : Int
  msgQbuf : Bytes 64

structure Link where
  tosInit : UInt32
  entryInit : UInt32
  /-- Entry points of the static programs, in the order of `createObjFiles`. -/
  entry : Fin 8 → UInt32

structure Kernel where
  pcb : Fin 8 → Pcb
  current : Fin 8
  rq : Fin 8 → Option (Fin 8)
  rqSize : Nat
  mq : Fin 32 → Mqueue
  of : Fin 128 → OFile
  ai : ActiveInodes
  vol : Vol
  cwd : UInt32
  ctx : Ctx
  link : Link

def Kernel.self (k : Kernel) : Pcb := k.pcb k.current

def Kernel.setPcb (k : Kernel) (p : Fin 8) (x : Pcb) : Kernel :=
  { k with pcb := Function.update k.pcb p x }

def Ctx.zero : Ctx := ⟨0, 0, fun _ => 0, 0, 0⟩

/-- A process control block cleared by `memset`. -/
def Pcb.zero : Pcb := ⟨0, 0, Ctx.zero, .terminated, 0, 0, fun _ => none⟩

def Mqueue.zero : Mqueue := ⟨0, 0, 0, 0, 0, Vector.replicate 64 0⟩

def INode.zero : INode := ⟨0, 0, ⟨0, 0, Vector.replicate 11 0, Vector.replicate 3 0⟩⟩

end ArmKernel.Core
