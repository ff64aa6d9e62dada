/-
Between the two precisions, and to sixteen-bit integers.

Widening is exact. Narrowing keeps the guard byte and cuts what lies below it, so
a guard byte of exactly `80` counts as a tie whatever was cut.
-/
import BasicNumerics.Floating.Whole
import BasicNumerics.Integer

set_option autoImplicit false

namespace BasicNumerics.Floating

attribute [local instance (high)] instPowNat

variable {p : Precision}

/-- The value in another precision. Zeros become the clear zero. -/
def convert (q : Precision) (x : Floating p) : Outcome (Floating q) (Floating q) :=
  if x.isZero then .ok zero
  else
    let d := x.unpack
    Scratch.pack
      { exp := d.exp
        man := d.man * 2 ^ (q.width - p.width) / 2 ^ (p.width - q.width)
        neg := d.neg }

/-- A single as a double: four clear bytes below, every bit kept. -/
def widen (x : Single) : Double where
  neg := x.neg
  fraction := x.fraction * 2 ^ (32 : Nat)
  exponent := x.exponent
  fraction_lt := by
    have h : x.fraction < 2 ^ (23 : Nat) := x.fraction_lt
    show x.fraction * 2 ^ (32 : Nat) < 2 ^ (55 : Nat)
    omega
  exponent_lt := x.exponent_lt

/-- The nearest integer, halves away from zero; out of range it is a fault. -/
def toInteger (r : Reading) (x : Floating p) : Except Fault Integer :=
  match x.toInt? with
  | some n => Integer.ofInt r n
  | none => .error (.ofCause .overflow)

end BasicNumerics.Floating
