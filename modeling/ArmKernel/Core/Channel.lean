import ArmKernel.Core.Process

/-! Message queues: one slot, the last sender, the last receiver and a flag. -/
namespace ArmKernel.Core

open Lib Lib.Bytes Fs

def setMq (k : Kernel) (m : Fin 32) (x : Mqueue) : Kernel :=
  { k with mq := Function.update k.mq m x }

def mqOpen (k : Kernel) (name : Int) : Int × Kernel :=
  match (List.finRange 32).find? fun i => (k.mq i).msgQname == name with
  | some i => (i.val, k)
  | none =>
    match (List.finRange 32).find? fun i => (k.mq i).msgQname == 0 with
    | some i => (i.val, setMq k i { k.mq i with
        msgQname := name
        msgQnum := 0
        msgQrec := 0
        msgLspid := 0
        msgLrpid := 0 })
    | none => (-1, k)

/-- `msg` is the caller's buffer of `msg_len` bytes. -/
def mqSend (k : Kernel) (m : Fin 32) (msg : List UInt8) : Int × Kernel :=
  let k := setMq k m { k.mq m with msgLspid := k.self.pid }
  let k := kill k k.self.pid .sigwait
  if (k.mq m).msgQnum = 0 then
    let k := setMq k m { k.mq m with
      msgQnum := (k.mq m).msgQnum + 1
      msgQbuf := putBytes (k.mq m).msgQbuf 0 msg }
    if (k.mq m).msgQrec = 1 then
      -- wake receiver
      let k := kill k (k.mq m).msgLrpid .sigcont
      (0, setMq k m { k.mq m with msgQrec := 0 })
    else (0, k)
  else (-1, k)

/-- Result, the bytes copied to the caller's buffer, and kernel. -/
def mqReceive (k : Kernel) (m : Fin 32) (len : Nat) : Int × List UInt8 × Kernel :=
  let k := setMq k m { k.mq m with msgLrpid := k.self.pid }
  -- the last sender was not the current receiver
  if 0 < (k.mq m).msgQnum ∧ (k.mq m).msgLspid ≠ k.self.pid then
    let k := setMq k m { k.mq m with msgQnum := (k.mq m).msgQnum - 1 }
    -- wake sender
    (len, (List.range len).map (byte (k.mq m).msgQbuf), kill k (k.mq m).msgLspid .sigcont)
  else
    let k := setMq k m { k.mq m with msgQrec := 1 }
    (-1, [], kill k k.self.pid .sigwait)

end ArmKernel.Core
