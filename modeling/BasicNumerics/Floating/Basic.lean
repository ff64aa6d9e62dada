/-
Floating-point values.

A value is a sign, the fraction bits below an implicit leading one, and an
exponent byte. With `n` the bits of the significand `1fff…`, it stands for
`± 1fff… · 2^(exponent - 128 - n)`. An exponent byte of zero is zero whatever the
other bits hold, so there are many zeros; they differ as buffers and are equal as
numbers. The buffer keeps the fraction in its low bits, then the sign where the
leading one would stand, then the exponent byte, lowest byte first.
-/
import BasicNumerics.Bytes
import BasicNumerics.Fault
import BasicNumerics.Precision

set_option autoImplicit false

namespace BasicNumerics

attribute [local instance (high)] instPowNat

/-- A floating-point value of the given precision. -/
structure Floating (p : Precision) where
  neg : Bool
  fraction : Nat
  exponent : Nat
  fraction_lt : fraction < 2 ^ (p.manBits - 1)
  exponent_lt : exponent < 256
deriving DecidableEq, Repr

abbrev Single : Type := Floating .single

abbrev Double : Type := Floating .double

namespace Floating

variable {p : Precision}

/-! ## Particular values -/

/-- The zero with every bit clear. -/
def zero : Floating p where
  neg := false
  fraction := 0
  exponent := 0
  fraction_lt := Nat.two_pow_pos _
  exponent_lt := by decide

instance : Inhabited (Floating p) := ⟨zero⟩

/-- The largest magnitude with the given sign, which stands in for what is too
large to hold. -/
def max (neg : Bool) : Floating p where
  neg := neg
  fraction := 2 ^ (p.manBits - 1) - 1
  exponent := 255
  fraction_lt := Nat.sub_lt (Nat.two_pow_pos _) (by decide)
  exponent_lt := by decide

/-! ## Sign -/

/-- Whether the value is zero: the exponent byte alone decides. -/
def isZero (x : Floating p) : Bool := x.exponent == 0

@[simp] theorem isZero_zero : (zero : Floating p).isZero = true := rfl

/-- The sign as a number: minus one, zero or one. -/
def sign (x : Floating p) : Int :=
  if x.isZero then 0 else if x.neg then -1 else 1

/-- The value with its sign bit turned, zeros included. -/
def negate (x : Floating p) : Floating p := { x with neg := !x.neg }

/-- The value with its sign bit cleared, zeros included. -/
def abs (x : Floating p) : Floating p := { x with neg := false }

/-- The significand, leading one restored. -/
def significand (x : Floating p) : Nat := 2 ^ (p.manBits - 1) + x.fraction

theorem le_significand (x : Floating p) : 2 ^ (p.manBits - 1) ≤ x.significand :=
  Nat.le_add_right _ _

theorem significand_lt (x : Floating p) : x.significand < 2 ^ p.manBits := by
  have h := x.fraction_lt
  rw [significand, p.two_pow_manBits]
  omega

/-! ## Order -/

/-- Equality as numbers: all zeros are equal, and other values are equal when
they agree in every bit. -/
def eq (x y : Floating p) : Bool :=
  if x.isZero || y.isZero then x.isZero && y.isZero else x == y

/-- Whether the magnitude of `x` exceeds that of `y`, both taken as nonzero. -/
def magnitudeGt (x y : Floating p) : Bool :=
  y.exponent < x.exponent || (y.exponent == x.exponent && y.fraction < x.fraction)

/-- Whether `x` exceeds `y`. Signs decide first; among values of one sign the
magnitudes do, reversed for negative ones. -/
def gt (x y : Floating p) : Bool :=
  if x.sign ≠ y.sign then y.sign < x.sign
  -- two zeros, whatever their bits
  else if x.sign = 0 then false
  else if 0 < x.sign then magnitudeGt x y
  else magnitudeGt y x

def compare (x y : Floating p) : Ordering :=
  if x.eq y then .eq else if x.gt y then .gt else .lt

/-! ## Buffers -/

def toWord (x : Floating p) : Nat :=
  x.fraction + (if x.neg then 2 ^ (p.manBits - 1) else 0) + x.exponent * 2 ^ p.manBits

/-- The value whose buffer reads as the given number. -/
def ofWord (w : Nat) : Floating p where
  neg := w / 2 ^ (p.manBits - 1) % 2 == 1
  fraction := w % 2 ^ (p.manBits - 1)
  exponent := w / 2 ^ p.manBits % 256
  fraction_lt := Nat.mod_lt _ (Nat.two_pow_pos _)
  exponent_lt := Nat.mod_lt _ (by decide)

def toBytes (x : Floating p) : List UInt8 := Bytes.ofNat p.size x.toWord

/-- The value in a buffer, which must have the right length. -/
def ofBytes (bytes : List UInt8) : Except Fault (Floating p) :=
  if bytes.length = p.size then .ok (ofWord (Bytes.toNat bytes))
  else .error (.badBytes "WRONG NUMBER SIZE")

/-- The buffer for a slot of the given length, which must be the right one. -/
def bytesFor (x : Floating p) (slot : Nat) : Except Fault (List UInt8) :=
  if slot = p.size then .ok x.toBytes else .error (.badBytes "WRONG NUMBER SIZE")

/-- The value's token in a stored program: a lead byte and the buffer. -/
def toToken (x : Floating p) : List UInt8 := p.leadByte :: x.toBytes

def ofToken (token : List UInt8) : Except Fault (Floating p) :=
  match token with
  | [] => .error (.badBytes "BAD NUMBER TOKEN")
  | lead :: bytes =>
    if lead = p.leadByte ∧ bytes.length = p.size then ofBytes bytes
    else .error (.badBytes "BAD NUMBER TOKEN")

/-! ## The buffer holds the value -/

@[simp] theorem length_toBytes (x : Floating p) : x.toBytes.length = p.size :=
  Bytes.length_ofNat _ _

/-- The number in a buffer fits the buffer. -/
theorem toWord_lt (x : Floating p) : x.toWord < 256 ^ p.size := by
  have hf := x.fraction_lt
  have he := x.exponent_lt
  have hs : (256 : Nat) ^ p.size = 256 * 2 ^ p.manBits := by cases p <;> decide
  have hm := p.two_pow_manBits
  have hn : x.fraction + (if x.neg then 2 ^ (p.manBits - 1) else 0) < 2 ^ p.manBits := by
    split <;> omega
  have hx : x.exponent * 2 ^ p.manBits + 2 ^ p.manBits ≤ 256 * 2 ^ p.manBits := by
    rw [← Nat.succ_mul]
    exact Nat.mul_le_mul_right _ he
  rw [toWord, hs]
  omega

/-- The sign stands above the fraction, and the exponent above the sign. -/
theorem toWord_eq (x : Floating p) :
    x.toWord = 2 ^ (p.manBits - 1) * ((if x.neg then 1 else 0) + 2 * x.exponent) + x.fraction := by
  have hexponent : x.exponent * 2 ^ p.manBits = 2 ^ (p.manBits - 1) * (2 * x.exponent) := by
    rw [p.two_pow_manBits, Nat.mul_comm, Nat.mul_comm 2, Nat.mul_assoc]
  simp only [toWord, hexponent, Nat.mul_add]
  split <;> omega

/-- **Reading back a buffer** restores every bit of the value. -/
theorem ofWord_toWord (x : Floating p) : ofWord x.toWord = x := by
  have hw := x.toWord_eq
  obtain ⟨neg, fraction, exponent, hf, he⟩ := x
  have h1 : 0 < 2 ^ (p.manBits - 1) := Nat.two_pow_pos _
  have hm := p.two_pow_manBits
  have hmod : toWord ⟨neg, fraction, exponent, hf, he⟩ % 2 ^ (p.manBits - 1) = fraction := by
    rw [hw, Nat.mul_add_mod, Nat.mod_eq_of_lt hf]
  have hdiv : toWord ⟨neg, fraction, exponent, hf, he⟩ / 2 ^ (p.manBits - 1) =
      (if neg then 1 else 0) + 2 * exponent := by
    rw [hw, Nat.mul_add_div h1, Nat.div_eq_of_lt hf, Nat.add_zero]
  have hexp : toWord ⟨neg, fraction, exponent, hf, he⟩ / 2 ^ p.manBits = exponent := by
    rw [hm, Nat.mul_comm, ← Nat.div_div_eq_div_mul, hdiv]
    split <;> omega
  simp only [ofWord, hmod, hdiv, hexp, Nat.mod_eq_of_lt he]
  congr
  cases neg <;> simp

/-- **A buffer holds its value:** reading `toBytes` gives the value back. -/
theorem ofBytes_toBytes (x : Floating p) : ofBytes x.toBytes = .ok x := by
  rw [ofBytes, if_pos x.length_toBytes, toBytes, Bytes.toNat_ofNat,
    Nat.mod_eq_of_lt x.toWord_lt, ofWord_toWord]

end Floating

end BasicNumerics
