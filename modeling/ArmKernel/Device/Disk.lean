import ArmKernel.Device.Serial
import ArmKernel.Lib.Bytes

/-! `disk.c`: the kernel's side of the disk. Each call gives, with its result,
the number of failed attempts before the one that was acknowledged; `none`
when all of them failed. -/
namespace ArmKernel.Device

open Lib Lib.Bytes Lib.Duplex

def retryLimit : Nat := 3

def addrPuth (x : UInt32) : Prog Unit := do
  puth (leByte x 0)
  puth (leByte x 1)
  puth (leByte x 2)
  puth (leByte x 3)

def dataPuth : List UInt8 → Prog Unit
  | [] => return ()
  | x :: xs => do
    puth x
    dataPuth xs

def dataGeth : Nat → Prog (List UInt8)
  | 0 => return []
  | n+1 => do
    let x ← geth
    let xs ← dataGeth n
    return x :: xs

/-- `for( int i = 0; i < RETRY; i++ )` around an attempt that may succeed. -/
def retry {α : Type} (attempt : Prog (Option α)) : Nat → Nat → Prog (Option (Nat × α))
  | _, 0 => return none
  | i, n+1 => do
    match ← attempt with
    | some a => return some (i, a)
    | none => retry attempt (i+1) n

def wrAttempt (a : UInt32) (x : List UInt8) : Prog (Option Unit) := do
  puth 0x01
  putc 32
  addrPuth a
  putc 32
  dataPuth x
  putc 10
  if (← geth) = 0x00 then
    let _ ← getc
    return some ()
  else
    let _ ← getc
    return none

/-- `x` is the first `n` bytes of the caller's buffer. -/
def diskWr (a : UInt32) (x : List UInt8) : Prog (Option (Nat × Unit)) := retry (wrAttempt a x) 0 retryLimit

def rdAttempt (a : UInt32) (n : Nat) : Prog (Option (List UInt8)) := do
  puth 0x02
  putc 32
  addrPuth a
  putc 10
  if (← geth) = 0x00 then
    let _ ← getc
    let x ← dataGeth n
    let _ ← getc
    return some x
  else
    let _ ← getc
    return none

def diskRd (a : UInt32) (n : Nat) : Prog (Option (Nat × List UInt8)) := retry (rdAttempt a n) 0 retryLimit

end ArmKernel.Device
