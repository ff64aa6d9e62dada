/-
Whole numbers and the whole part of a value.

A magnitude is split at the binary point into a whole part and fraction bits, as
long as the whole part fits in 63 bits. Truncation, floor and rounding choose a
whole number from the split and store it again; a value too large to split has no
fraction and stays as it is.
-/
import BasicNumerics.Floating.Arith

set_option autoImplicit false

namespace BasicNumerics

attribute [local instance (high)] instPowNat

/-- A magnitude split at the binary point: `whole + rest / 2^bits`. -/
structure SplitMagnitude where
  whole : Nat
  rest : Nat
  bits : Nat
deriving DecidableEq, Repr

namespace SplitMagnitude

/-- The nearest whole number, halves up. -/
def nearest (s : SplitMagnitude) : Nat :=
  if 0 < s.bits ∧ 2 ^ (s.bits - 1) ≤ s.rest then s.whole + 1 else s.whole

/-- The least whole number that is not below the magnitude. -/
def ceiling (s : SplitMagnitude) : Nat := if s.rest = 0 then s.whole else s.whole + 1

end SplitMagnitude

namespace Floating

variable {p : Precision}

/-- The value nearest to a whole number, ties to even. -/
def ofInt (n : Int) : Floating p := (Scratch.ofInt p n).align.saturate

/-- The magnitude split at the binary point, unless its whole part may take more
than 63 bits. -/
def split? (x : Floating p) : Option SplitMagnitude :=
  let d := x.unpack
  let below := Scratch.unitExp p - d.exp
  if below ≤ 0 then
    -- nothing is below the point, and the whole part has `width + up` bits
    let up := (-below).toNat
    if 63 < p.width + up then none else some ⟨d.man * 2 ^ up, 0, 0⟩
  else
    some ⟨d.man / 2 ^ below.toNat, d.man % 2 ^ below.toNat, below.toNat⟩

/-- The value with the given sign and whole magnitude; zero is the clear zero. -/
def ofSignedNat (neg : Bool) (whole : Nat) : Floating p :=
  ({ exp := Scratch.unitExp p, man := whole, neg := neg } : Scratch p).align.saturate

/-- Stores the whole number that `choose` takes from the split magnitude. Zeros
and values that cannot be split stay as they are. -/
def withWhole (choose : SplitMagnitude → Nat) (x : Floating p) : Floating p :=
  if x.isZero then x
  else match x.split? with
    | none => x
    | some s => ofSignedNat x.neg (choose s)

def trunc (x : Floating p) : Floating p := x.withWhole (·.whole)

/-- The largest whole number that is not above the value. -/
def floor (x : Floating p) : Floating p :=
  x.withWhole (fun s => if x.neg then s.ceiling else s.whole)

/-- The nearest whole number, halves away from zero. -/
def roundWhole (x : Floating p) : Floating p := x.withWhole (·.nearest)

/-- The nearest whole number as a number, halves away from zero, if it fits a
signed word of 64 bits. -/
def toInt? (x : Floating p) : Option Int :=
  if x.isZero then some 0
  else match x.split? with
    | none => none
    | some s =>
      if s.nearest < 2 ^ (63 : Nat) then some (if x.neg then -(s.nearest : Int) else s.nearest)
      else none

end Floating

end BasicNumerics
