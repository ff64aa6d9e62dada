/-
Between binary and decimal.

Both directions scale a working value by ten, step by step, keeping the guard byte
and rounding once at the end. Ten times a value is the sum of eight times and
twice it; a tenth is a quotient by ten. To read off `d` digits, the value is
scaled until it lies between `10^(d-1)` and `10^d`.
-/
import BasicNumerics.Decimal
import BasicNumerics.Floating.Whole

set_option autoImplicit false

namespace BasicNumerics

attribute [local instance (high)] instPowNat

namespace Scratch

variable {p : Precision}

def tenfold (d : Scratch p) : Scratch p :=
  (add { d with exp := d.exp + 3 } { d with exp := d.exp + 1 }).align

def tenth (d : Scratch p) : Scratch p :=
  (div d.align (Floating.ofInt 10 : Floating p).unpack).align

/-! ## Scaling to a number of digits -/

/-- Takes tenths until the value is below the limit, counting them; `fuel` bounds
the steps. -/
def scaleDown (limit : Scratch p) : (fuel : Nat) → Scratch p → Scratch p × Nat
  | 0, d => (d, 0)
  | fuel + 1, d =>
    if d.lt limit then (d, 0)
    else
      let (e, n) := scaleDown limit fuel d.tenth
      (e, n + 1)

/-- Multiplies by ten until the value is not below the limit, counting the steps;
`fuel` bounds them. -/
def scaleUp (limit : Scratch p) : (fuel : Nat) → Scratch p → Scratch p × Nat
  | 0, d => (d, 0)
  | fuel + 1, d =>
    if d.lt limit then
      let (e, n) := scaleUp limit fuel d.tenfold
      (e, n + 1)
    else (d, 0)

/-- The value scaled below `high` and then up to `low`, with the power of ten that
undoes the scaling. Each step moves the exponent by at least three, so the distance
of the exponents is fuel enough. -/
def scaleBetween (low high d : Scratch p) : Scratch p × Int :=
  let (e, down) := scaleDown high ((d.exp - high.exp).toNat + 1) d
  let (f, up) := scaleUp low ((low.exp - e.exp).toNat + 1) e
  (f, (down : Int) - up)

/-- The nearest whole number to a magnitude, halves up. -/
def nearestNat (d : Scratch p) : Nat :=
  let below := unitExp p - d.exp
  if below ≤ 0 then d.man * 2 ^ (-below).toNat
  else d.man / 2 ^ below.toNat + d.man / 2 ^ (below.toNat - 1) % 2

/-! ## Scaling by a given power -/

/-- Multiplies by ten `n` times, stopping early once the exponent is far beyond
every value that can be stored. -/
def timesTen : (n : Nat) → Scratch p → Scratch p
  | 0, d => d
  | n + 1, d => if 0x1ff < d.tenfold.exp then d.tenfold else timesTen n d.tenfold

/-- Takes a tenth `n` times, stopping early once the exponent is far below every
value that can be stored. -/
def overTen : (n : Nat) → Scratch p → Scratch p
  | 0, d => d
  | n + 1, d => if d.tenth.exp < -0x1ff then d.tenth else overTen n d.tenth

end Scratch

namespace Floating

variable {p : Precision}

/-- The digits a reading asks for: at least one, at most what the precision
shows. -/
def digitCount (p : Precision) (digits : Option Nat) : Nat :=
  Nat.max 1 (Nat.min (digits.getD p.digits) p.digits)

/-- The value in decimal, its mantissa having exactly the digits asked for. Zero
is `0 · 10^0`. -/
def toDecimal (x : Floating p) (digits : Option Nat) : Decimal :=
  if x.isZero then ⟨0, 0⟩
  else
    let top := 10 ^ digitCount p digits
    let low := (ofInt (top / 10 : Nat) : Floating p).unpack
    let high := (ofInt (top : Nat) : Floating p).unpack
    let (d, scale) := Scratch.scaleBetween low high { x.unpack with neg := false }
    let n := d.nearestNat
    -- Rounding up to the next power of ten makes one digit too many.
    let (n, scale) := if top ≤ n then (n / 10, scale + 1) else (n, scale)
    ⟨if x.neg then -(n : Int) else n, scale⟩

/-- The value of a decimal number. -/
def ofDecimal (d : Decimal) : Outcome (Floating p) (Floating p) :=
  if d.mantissa = 0 then .ok zero
  else
    let start := (Scratch.ofInt p d.mantissa).align
    (Scratch.overTen (-d.exponent).toNat (Scratch.timesTen d.exponent.toNat start)).pack

end Floating

end BasicNumerics
