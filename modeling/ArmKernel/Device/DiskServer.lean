import ArmKernel.Lib.Bytes
import Mathlib.Data.List.DropRight

/-! `disk.py`: the server behind the disk UART. Strings are byte lists, the disk
image is the list of bytes of the file, and `none` is an exception, which ends
the server. -/
namespace ArmKernel.Device

open Lib Lib.Bytes

/-! The library functions it calls. -/

def isSpace (b : UInt8) : Bool := (9 ≤ b && b ≤ 13) || b = 32

/-- `str.strip()`. -/
def strip (s : List UInt8) : List UInt8 := (s.dropWhile isSpace).rdropWhile isSpace

def hexVal (b : UInt8) : Option Nat :=
  if 48 ≤ b ∧ b ≤ 57 then some (b.toNat - 48)
  else if 97 ≤ b ∧ b ≤ 102 then some (b.toNat - 87)
  else if 65 ≤ b ∧ b ≤ 70 then some (b.toNat - 55)
  else none

/-- `binascii.unhexlify`: capitals or not. -/
def unhexlify : List UInt8 → Option (List UInt8)
  | [] => some []
  | [_] => none
  | x :: y :: rest => do
    let h ← hexVal x
    let l ← hexVal y
    let bs ← unhexlify rest
    return UInt8.ofNat (16 * h + l) :: bs

def hexDigit (d : Nat) : UInt8 := UInt8.ofNat (if d ≤ 9 then 48 + d else 87 + d)

/-- `binascii.hexlify`: never capitals. -/
def hexlify (bs : List UInt8) : List UInt8 :=
  bs.flatMap fun b => [hexDigit (b.toNat / 16), hexDigit (b.toNat % 16)]

/-- `struct.unpack( '<l', ... )`: a signed word. -/
def unpackL : List UInt8 → Option Int
  | [b0, b1, b2, b3] =>
    let w := (leWord b0 b1 b2 b3).toNat
    some (if w < 2^31 then w else w - 2^32)
  | _ => none

/-- `struct.pack( '<l', ... )`. -/
def packL (n : Int) : Option (List UInt8) :=
  if -2^31 ≤ n ∧ n < 2^31 then
    let w := UInt32.ofNat (n % 2^32).toNat
    some [leByte w 0, leByte w 1, leByte w 2, leByte w 3]
  else none

/-- `fd.write` at a position: what lies past the end is filled with zeros. -/
def fileWrite (fd : List UInt8) (pos : Nat) (data : List UInt8) : List UInt8 :=
  fd.take pos ++ List.replicate (pos - fd.length) 0 ++ data ++ fd.drop (pos + data.length)

def fileRead (fd : List UInt8) (pos n : Nat) : List UInt8 := (fd.drop pos).take n

/-- `fd.seek` refuses a negative position. -/
def seek (pos : Int) : Option Nat := if pos < 0 then none else some pos.toNat

/-! The requests. -/

structure Args where
  blockNum : Nat
  blockLen : Nat

def reqConf : List UInt8 := [48, 48]
def reqWr : List UInt8 := [48, 49]
def reqRd : List UInt8 := [48, 50]

def ackOkay : List UInt8 := [48, 48]
def ackFail : List UInt8 := [48, 49]

section

variable (args : Args) (fd : List UInt8) (req : List (List UInt8))

/-- Each request gives the image it leaves and the acknowledgement: a code and
the data to follow it. -/
def conf : Option (List UInt8 × List UInt8 × List (List UInt8)) := do
  let num ← packL args.blockNum
  let len ← packL args.blockLen
  return (fd, ackOkay, [num ++ len])

def wr : Option (List UInt8 × List UInt8 × List (List UInt8)) := do
  let address ← unpackL (← unhexlify (← req[1]?))
  let data ← unhexlify (← req[2]?)
  if address ≥ args.blockNum then return (fd, ackFail, [])
  else
    let pos ← seek (address * args.blockLen)
    return (fileWrite fd pos data, ackOkay, [])

def rd : Option (List UInt8 × List UInt8 × List (List UInt8)) := do
  let address ← unpackL (← unhexlify (← req[1]?))
  if address ≥ args.blockNum then return (fd, ackFail, [])
  else
    let pos ← seek (address * args.blockLen)
    return (fd, ackOkay, [fileRead fd pos args.blockLen])

def handle : Option (List UInt8 × List UInt8 × List (List UInt8)) :=
  if req[0]? = some reqConf then conf args fd
  else if req[0]? = some reqWr then wr args fd req
  else if req[0]? = some reqRd then rd args fd req
  else some (fd, ackFail, [])

end

/-- The acknowledgement as it is sent, up to the end of the line. -/
def ackLine (code : List UInt8) : List (List UInt8) → List UInt8
  | [] => code
  | data => code ++ [32] ++ [32].intercalate (data.map hexlify)

/-- One round of the request loop, from a line without its end. -/
def serve (args : Args) (fd : List UInt8) (line : List UInt8) : Option (List UInt8 × List UInt8) :=
  (handle args fd ((strip (line ++ [10])).splitOn 32)).map fun (fd, code, data) =>
    (fd, ackLine code data ++ [10])

end ArmKernel.Device
