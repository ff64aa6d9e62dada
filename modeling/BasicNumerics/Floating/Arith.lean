/-
Addition, multiplication, division and whole powers.

All four work on aligned significands and store the result once. Bits that
alignment or division would drop are not carried along; each operation keeps one
mark for them and consults it only where the guard byte alone is a tie. Two
operations have rounding habits of their own, which programs can see: subtracting
rounds certain guard bytes down, and a product never ends in the nibble nine.
-/
import BasicNumerics.Floating.Scratch

set_option autoImplicit false

namespace BasicNumerics

attribute [local instance (high)] instPowNat

open Rounding

namespace Scratch

variable {p : Precision}

/-! ## Sums -/

/-- The sum of two magnitudes, `lost` telling whether the smaller one was cut. A
tie that is none, because something was cut, is moved off the tie. -/
def joinMan (s m : Nat) (lost : Bool) : Nat :=
  if lost && (s + m) % 256 == 128 then s + m + 1 else s + m

/-- The guard byte after a subtraction. A guard byte from `80` to `BF` below an
even significand goes down unless its low five bits are clear; a tie that is none
is moved down too. -/
def trimDifference (m : Nat) (lost : Bool) : Nat :=
  -- bits eight to six read 0 1 0, with something set in the low five
  let m := if 128 ≤ m % 512 ∧ m % 512 < 192 ∧ m % 32 ≠ 0 then m - 128 else m
  if lost && m % 256 == 128 then m - 1 else m

/-- Adds `small`, whose exponent is not the larger one, to `large`. -/
def addOrdered (small large : Scratch p) : Scratch p :=
  let shift := (large.exp - small.exp).toNat
  let s := small.man / 2 ^ shift
  let lost := small.man % 2 ^ shift != 0
  if small.neg = large.neg then
    { large with man := joinMan s large.man lost }
  -- the larger exponent need not mean the larger magnitude after the cut
  else if s ≤ large.man then
    { large with man := trimDifference (large.man - s) lost }
  else
    { large with man := trimDifference (s - large.man) lost, neg := small.neg }

/-- The sum of two working values, not aligned. An exponent of zero marks the
number zero. -/
def add (l r : Scratch p) : Scratch p :=
  if r.exp = 0 then l
  else if l.exp = 0 then r
  else if r.exp < l.exp then addOrdered r l
  else addOrdered l r

def negate (d : Scratch p) : Scratch p := { d with neg := !d.neg }

/-! ## Products and quotients -/

/-- The product of two aligned values, cut to the working width. -/
def mul (l r : Scratch p) : Scratch p :=
  let product := l.man * r.man
  let cut := bitLength product - p.width
  let m := product / 2 ^ cut
  { exp := l.exp + r.exp - unitExp p + cut
    -- the multiplier never leaves a low nibble of nine
    man := if m % 16 = 9 then m - 1 else m
    neg := l.neg != r.neg }

/-- The bits a quotient of aligned significands needs to fill the working width,
counted from the place of the whole part. -/
def quotientBits (l r : Scratch p) : Nat := if r.man ≤ l.man then p.width else p.width + 1

/-- The quotient of two aligned values: as many bits as fill the working width,
and a tie that is none, because a remainder is left, moved off the tie. -/
def div (l r : Scratch p) : Scratch p :=
  let k := quotientBits l r
  let num := l.man * 2 ^ (k - 1)
  let q := num / r.man
  { exp := l.exp - r.exp + unitExp p + 1 - k
    man := if num % r.man ≠ 0 ∧ q % 256 = 128 then q + 1 else q
    neg := l.neg != r.neg }

end Scratch

namespace Floating

variable {p : Precision}

def one : Floating p := (Scratch.ofInt p 1).align.saturate

/-- The sum, rounded to the precision. -/
def add (x y : Floating p) : Outcome (Floating p) (Floating p) :=
  (x.unpack.add y.unpack).pack

/-- The difference, rounded to the precision. -/
def sub (x y : Floating p) : Outcome (Floating p) (Floating p) :=
  (x.unpack.add y.unpack.negate).pack

/-- The product; a zero factor gives the clear zero. -/
def mul (x y : Floating p) : Outcome (Floating p) (Floating p) :=
  if x.isZero || y.isZero then .ok zero else (x.unpack.mul y.unpack).pack

/-- The quotient. A zero divisor is a division by zero, whatever the dividend; a
zero dividend is its own quotient. -/
def div (x y : Floating p) : Outcome (Floating p) (Floating p) :=
  -- the sign bit is taken as it stands, a zero dividend's too
  if y.isZero then .error (.divisionByZero (max x.neg))
  else if x.isZero then .ok x
  else (x.unpack.div y.unpack).pack

/-! ## Whole powers -/

/-- `acc · base^n` by repeated squaring, lowest bit of `n` first. The last square
is not taken. -/
def powAux (acc base : Floating p) (n : Nat) : Outcome (Floating p) (Floating p) :=
  if n = 0 then .ok acc
  else do
    let acc ← if n % 2 = 1 then acc.mul base else .ok acc
    if n / 2 = 0 then .ok acc
    else do
      let base ← base.mul base
      powAux acc base (n / 2)
termination_by n
decreasing_by omega

/-- A natural power. -/
def powNat (x : Floating p) (n : Nat) : Outcome (Floating p) (Floating p) := powAux one x n

/-- A whole power. A negative power is one over the positive one; where the
positive one is too large, it is zero. An overflow takes the sign the power would
have. -/
def pow (x : Floating p) (n : Int) : Outcome (Floating p) (Floating p) :=
  match x.powNat n.natAbs with
  | .ok y => if n < 0 then one.div y else .ok y
  | .error (.fault f) => .error (.fault f)
  -- one over what is too large is too small to hold
  | .error _ => if n < 0 then .ok zero else .error (.overflow (max (x.neg && n % 2 == 1)))

end Floating

end BasicNumerics
