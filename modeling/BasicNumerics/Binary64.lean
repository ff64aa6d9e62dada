/-
The 64-bit interchange format.

Functions such as the logarithm are computed in this format, which has wider
range and, for doubles, three bits less. A value is its bit pattern: the sign, an
eleven-bit exponent and 52 fraction bits. What the engine asks of a pattern is
read off the three fields; only the functions themselves go through the machine.
-/

set_option autoImplicit false

namespace BasicNumerics

attribute [local instance (high)] instPowNat

/-- A bit pattern of the 64-bit interchange format. -/
structure Binary64 where
  bits : UInt64
deriving DecidableEq, Repr

namespace Binary64

/-! ## Fields -/

def neg (x : Binary64) : Bool := x.bits.toNat / 2 ^ (63 : Nat) % 2 == 1

def exponentField (x : Binary64) : Nat := x.bits.toNat / 2 ^ (52 : Nat) % 2048

def fractionField (x : Binary64) : Nat := x.bits.toNat % 2 ^ (52 : Nat)

def ofFields (neg : Bool) (exponentField fractionField : Nat) : Binary64 :=
  ⟨UInt64.ofNat
    ((if neg then 2 ^ (63 : Nat) else 0) + exponentField * 2 ^ (52 : Nat) + fractionField)⟩

/-! ## Classes -/

def isNaN (x : Binary64) : Bool := x.exponentField == 2047 && x.fractionField != 0

def isInfinite (x : Binary64) : Bool := x.exponentField == 2047 && x.fractionField == 0

/-- Whether the pattern is one of the two zeros. -/
def isZero (x : Binary64) : Bool := x.exponentField == 0 && x.fractionField == 0

/-- The magnitude of a finite pattern is `significand · 2^scale`. -/
def significand (x : Binary64) : Nat :=
  if x.exponentField = 0 then x.fractionField else 2 ^ (52 : Nat) + x.fractionField

/-- The power of two that goes with the significand. -/
def scale (x : Binary64) : Int :=
  if x.exponentField = 0 then -1074 else (x.exponentField : Int) - 1075

def isNegative (x : Binary64) : Bool := x.neg && !x.isZero && !x.isNaN

/-- Whether a finite value is a whole number. -/
def isWhole (x : Binary64) : Bool :=
  0 ≤ x.scale || x.significand % 2 ^ (-x.scale).toNat == 0

/-! ## Functions computed by the machine -/

/-- A machine function on patterns. -/
def via (f : Float → Float) (x : Binary64) : Binary64 := ⟨(f (Float.ofBits x.bits)).toBits⟩

def sqrt : Binary64 → Binary64 := via Float.sqrt

def exp : Binary64 → Binary64 := via Float.exp

def log : Binary64 → Binary64 := via Float.log

def sin : Binary64 → Binary64 := via Float.sin

def cos : Binary64 → Binary64 := via Float.cos

def tan : Binary64 → Binary64 := via Float.tan

def atan : Binary64 → Binary64 := via Float.atan

def pow (x y : Binary64) : Binary64 :=
  ⟨(Float.pow (Float.ofBits x.bits) (Float.ofBits y.bits)).toBits⟩

end Binary64

end BasicNumerics
