/-
To and from the 64-bit interchange format.

Outward, a single fits and a double is rounded to 53 bits, ties to even; the
exponent always fits. Inward, the pattern is aligned and stored like any working
value, so it is rounded once. Infinities are overflows, and what is no number is
an illegal function call.
-/
import BasicNumerics.Binary64
import BasicNumerics.Floating.Scratch

set_option autoImplicit false

namespace BasicNumerics.Floating

attribute [local instance (high)] instPowNat

open Rounding

variable {p : Precision}

/-- The significand in 53 bits, or the next power of two. -/
def significand53 (x : Floating p) : Nat :=
  nearestEven (x.significand * 2 ^ (53 - p.manBits)) (p.manBits - 53)

/-- The nearest pattern. A carry out of the 53 bits moves into the exponent field
by itself. -/
def toBinary64 (x : Floating p) : Binary64 :=
  if x.isZero then .ofFields false 0 0
  else .ofFields x.neg (x.exponent + 894) (x.significand53 - 2 ^ (52 : Nat))

def ofBinary64 (b : Binary64) : Outcome (Floating p) (Floating p) :=
  if b.isZero then .ok zero
  else if b.isNaN then .error (.fault (.ofCause .illegalFunctionCall))
  else if b.isInfinite then .error (.overflow (max b.neg))
  else
    ({ exp := b.scale + Scratch.unitExp p, man := b.significand, neg := b.neg } :
      Scratch p).align.pack

end BasicNumerics.Floating
