/-
The two floating-point precisions.

A precision fixes the size of the buffer, and the size fixes all else: the bits
of the significand, the width of the working values with one guard byte below
it, and the bias of the exponent. What differs beyond the size is how a number
is written: the digits shown, the letter before its power of ten, its type mark
and the lead byte of its program token.
-/

set_option autoImplicit false

namespace BasicNumerics

attribute [local instance (high)] instPowNat

/-- Single or double precision. -/
inductive Precision where
  | single
  | double
deriving DecidableEq, Repr

namespace Precision

/-- Bits of the significand, its implicit leading one included. -/
def manBits : Precision → Nat
  | single => 24
  | double => 56

/-- Bytes of the buffer: the significand and one exponent byte. -/
def size : Precision → Nat
  | single => 4
  | double => 8

/-- Bits of a working significand: one guard byte more than is stored. -/
def width (p : Precision) : Nat := p.manBits + 8

/-- The stored exponent of a value whose significand counts whole units. -/
def bias (p : Precision) : Nat := 128 + p.manBits

def digits : Precision → Nat
  | single => 7
  | double => 16

def marker : Precision → Char
  | single => 'E'
  | double => 'D'

/-- The mark that names the type after a number or a variable. -/
def sigil : Precision → Char
  | single => '!'
  | double => '#'

/-- The lead byte of the number in a stored program. -/
def leadByte : Precision → UInt8
  | single => 0x1d
  | double => 0x1f

def max : Precision → Precision → Precision
  | single, q => q
  | double, _ => double

theorem two_pow_manBits (p : Precision) : 2 ^ p.manBits = 2 * 2 ^ (p.manBits - 1) := by
  cases p <;> decide

end Precision

end BasicNumerics
