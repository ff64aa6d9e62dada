/-
Numbers in stored programs.

A stored program holds a number as a token: a lead byte that tells its form and
with it the token's length, then the bytes of the number. Integers have a form
that is the lead byte alone, a form of one more byte, and forms of two more bytes,
among them those that remember the base or that the number is a line.

Lead bytes are looked up in three places: for the length of a token, for the kind of
its value, and for the form of an integer. Each has a table of its own.
-/
import BasicNumerics.Value.Basic

set_option autoImplicit false

namespace BasicNumerics

/-- Bytes of the token that starts with the given byte, which is counted, if one
does. The numbers from zero to ten each have a lead byte of their own. -/
def tokenLength? (lead : UInt8) : Option Nat :=
  if 0x11 ≤ lead.toNat ∧ lead.toNat ≤ 0x1b then some 1
  else if lead = 0x0f then some 2
  else if lead = 0x1c ∨ lead = 0x0b ∨ lead = 0x0c ∨ lead = 0x0e then some 3
  else if lead = 0x1d then some 5
  else if lead = 0x1f then some 9
  else none

namespace Integer

/-- The shortest token of the signed number. -/
def toToken (n : Integer) : List UInt8 :=
  let i := n.toInt .signed
  if 0 ≤ i ∧ i ≤ 10 then [UInt8.ofNat (0x11 + i.toNat)]
  else if 0 ≤ i ∧ i ≤ 255 then [0x0f, UInt8.ofNat i.toNat]
  else 0x1c :: n.toBytes

/-- The token of a word written in hexadecimal. -/
def toHexToken (n : Integer) : List UInt8 := 0x0c :: n.toBytes

/-- The token of a word written in octal. -/
def toOctalToken (n : Integer) : List UInt8 := 0x0b :: n.toBytes

def toLineToken (n : Integer) : List UInt8 := 0x0e :: n.toBytes

/-- The integer of a token, which must be as long as its lead byte tells. -/
def ofToken (token : List UInt8) : Except Fault Integer :=
  match token with
  | [] => .error (.badBytes "EMPTY NUMBER TOKEN")
  | lead :: bytes =>
    if tokenLength? lead ≠ some token.length then .error (.badBytes "BAD NUMBER TOKEN")
    else if 0x11 ≤ lead.toNat ∧ lead.toNat ≤ 0x1b then ofInt .signed (lead.toNat - 0x11 : Nat)
    else if lead = 0x0f then ofInt .signed (Bytes.toNat bytes)
    else if lead = 0x1c ∨ lead = 0x0b ∨ lead = 0x0c ∨ lead = 0x0e then ofBytes bytes
    else .error (.badBytes "BAD NUMBER TOKEN")

end Integer

namespace Value

def toToken : Value → Except Fault (List UInt8)
  | integer n => .ok n.toToken
  | float _ x => .ok x.toToken
  | string _ => typeMismatch

/-- The value of a token: a float after one of the two lead bytes of floats, and else an
integer or nothing. -/
def ofToken (token : List UInt8) : Except Fault Value :=
  if token.head? = some (Precision.leadByte .single) then
    (Floating.ofToken token).map (float .single)
  else if token.head? = some (Precision.leadByte .double) then
    (Floating.ofToken token).map (float .double)
  else (Integer.ofToken token).map integer

end Value

end BasicNumerics
