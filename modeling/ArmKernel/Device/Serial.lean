import ArmKernel.Lib.Duplex

/-! The hexadecimal byte input and output of `PL011.c`, on the stream the UART
is to a program: a write waits for room and a read for a byte. -/
namespace ArmKernel.Device

open Lib.Duplex

/-- `x - '0'`, and so on, as an `int`; `-1` for a character that is no digit. -/
def xtoi (x : UInt8) : Int :=
  if 48 ≤ x ∧ x ≤ 57 then 0 + (x.toNat - 48)
  else if 97 ≤ x ∧ x ≤ 102 then 10 + (x.toNat - 97)
  else if 65 ≤ x ∧ x ≤ 70 then 10 + (x.toNat - 65)
  else -1

def itox (x : Nat) : UInt8 :=
  if x ≤ 9 then UInt8.ofNat (48 + x)
  else if x ≤ 15 then UInt8.ofNat (65 + (x - 10))
  else 0xFF

def putc (x : UInt8) : Prog Unit := .put x (.ret ())

def getc : Prog UInt8 := .get .ret

def puth (x : UInt8) : Prog Unit := do
  putc (itox (x.toNat / 16 % 16))
  putc (itox (x.toNat % 16))

/-- Both digits go through a `uint8_t`. -/
def geth : Prog UInt8 := do
  let x ← getc
  let y ← getc
  return UInt8.ofInt (xtoi x * 16) ||| UInt8.ofInt (xtoi y)

/-! What they write and read. -/

/-- The two digits of a byte, in capitals. -/
def hexUpper (x : UInt8) : List UInt8 := [itox (x.toNat / 16 % 16), itox (x.toNat % 16)]

theorem does_putc (x : UInt8) : (putc x).Does [.put x] () := .put (.ret ())

theorem does_getc (x : UInt8) : getc.Does [.get x] x := .get (.ret x)

theorem does_puth (x : UInt8) : (puth x).Does ((hexUpper x).map .put) () :=
  (does_putc _).bind (does_putc _)

theorem does_geth (x y : UInt8) :
    geth.Does [.get x, .get y] (UInt8.ofInt (xtoi x * 16) ||| UInt8.ofInt (xtoi y)) :=
  (does_getc x).bind ((does_getc y).bind (.ret _))

end ArmKernel.Device
