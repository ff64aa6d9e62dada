/-
Working values, and how they are stored.

Arithmetic happens on a significand with the leading one restored and a guard
byte below it: `man · 2^(exp - bias - 8)`. A working value is *aligned* when the
significand fills the working width exactly. Storing one rounds the guard byte
away, ties to even, and then looks at the exponent: too large is an overflow that
leaves the largest magnitude of that sign; too small is zero.
-/
import BasicNumerics.Floating.Basic
import BasicNumerics.Rounding

set_option autoImplicit false

namespace BasicNumerics

attribute [local instance (high)] instPowNat

open Rounding

/-- A working value `± man · 2^(exp - bias - 8)`. The exponent has no bound here. Held in a
word of 32 bits it does not wrap as long as the exponent that storing reaches is one
(`Held.storeInto_eq`), and so for all that is computed from buffers
(`Scratch.FromBuffer`). -/
structure Scratch (p : Precision) where
  exp : Int
  man : Nat
  neg : Bool
deriving DecidableEq, Repr

/-- The value with its leading one restored and an empty guard byte. -/
def Floating.unpack {p : Precision} (x : Floating p) : Scratch p :=
  { exp := x.exponent, man := x.significand * 256, neg := x.neg }

namespace Scratch

variable {p : Precision}

/-- The exponent at which a working significand counts whole units. -/
def unitExp (p : Precision) : Int := p.bias + 8

/-- A whole number, not aligned. -/
def ofInt (p : Precision) (n : Int) : Scratch p :=
  { exp := unitExp p, man := n.natAbs, neg := n < 0 }

/-- Moves the significand so that its leading one is the top bit of the working
width. What is moved out on the right stays in the lowest bit. -/
def align (d : Scratch p) : Scratch p :=
  if d.man = 0 then d
  else if bitLength d.man ≤ p.width then
    { d with
      man := d.man * 2 ^ (p.width - bitLength d.man)
      exp := d.exp - (p.width - bitLength d.man : Nat) }
  else
    { d with
      man := sticky d.man (bitLength d.man - p.width)
      exp := d.exp + (bitLength d.man - p.width : Nat) }

/-- The stored significand and its exponent: the guard byte rounded away, ties to
even, and a carry out of the top folded into the exponent. -/
def round (d : Scratch p) : Nat × Int :=
  if nearestEven d.man 8 = 2 ^ p.manBits then (2 ^ (p.manBits - 1), d.exp + 1)
  else (nearestEven d.man 8, d.exp)

/-- Whether nothing is stored: a zero significand, or an exponent already out of
range before the significand is aligned. -/
def vanishes (d : Scratch p) : Bool := d.man == 0 || d.exp ≤ 0

def overflows (d : Scratch p) : Bool := !d.vanishes && 255 < d.align.round.2

/-- The value stored for `d`, the largest magnitude standing in for one that is
too large. A value that becomes too small only by aligning keeps its significand
bits behind a zero exponent byte. -/
def saturate (d : Scratch p) : Floating p :=
  if d.vanishes then .zero
  else if h : 255 < d.align.round.2 then .max d.neg
  else
    { neg := d.neg
      fraction := d.align.round.1 % 2 ^ (p.manBits - 1)
      -- aligning may have taken it below one: then the byte is zero
      exponent := d.align.round.2.toNat
      fraction_lt := Nat.mod_lt _ (Nat.two_pow_pos _)
      exponent_lt := by omega }

/-- Stores `d`, reporting an overflow. -/
def pack (d : Scratch p) : Outcome (Floating p) (Floating p) :=
  if d.overflows then .error (.overflow d.saturate) else .ok d.saturate

/-- Whether an aligned value is less than another in magnitude. -/
def lt (d e : Scratch p) : Bool :=
  d.exp < e.exp || (d.exp == e.exp && d.man < e.man)

/-- What is stored for a value that is too large. -/
theorem saturate_of_overflows {d : Scratch p} (h : d.overflows = true) :
    d.saturate = .max d.neg := by
  simp only [overflows, Bool.and_eq_true, Bool.not_eq_true', decide_eq_true_eq] at h
  rw [saturate, if_neg (by simp [h.1]), dif_pos h.2]

/-- **Storing fails in one way only,** with the largest magnitude of that sign. -/
theorem pack_eq_error {d : Scratch p} {e : Failure (Floating p)} (h : d.pack = .error e) :
    e = .overflow (.max d.neg) := by
  unfold pack at h
  split at h
  · next ho =>
    rw [saturate_of_overflows ho] at h
    exact (Except.error.inj h).symm
  · exact absurd h (by simp)

end Scratch

end BasicNumerics
