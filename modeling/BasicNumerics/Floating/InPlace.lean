/-
Arithmetic in place.

A value lives in a buffer, and an operation writes its result over it. A working value is moved
one bit at a time until it fills the working width, keeping in the lowest bit what falls off on
the right; the guard byte is rounded away by masks; the significand is written byte over byte,
then the sign over the leading one, and last the exponent, unless that is past the range. Then
the largest magnitude takes the place of what was written, in the buffer and in the failure.

A power is made in the buffer too, and its partial products stand there until it is done or
fails. What is left then is not always the last product: a failed power writes what it reports.

Two buffers are compared without unpacking them, byte by byte from the exponent down.

The exponent of a working value is held in a word of 32 bits, and arithmetic on it wraps.
-/
import BasicNumerics.Floating.Arith

set_option autoImplicit false

namespace BasicNumerics

attribute [local instance (high)] instPowNat

open Rounding

variable {p : Precision}

/-! ## Buffers -/

/-- The bytes that hold a value, lowest first. -/
@[ext] structure Buffer (p : Precision) where
  bytes : List UInt8
  length_bytes : bytes.length = p.size
deriving DecidableEq, Repr

def Floating.buffer (x : Floating p) : Buffer p := ⟨x.toBytes, x.length_toBytes⟩

namespace Buffer

def value (b : Buffer p) : Floating p := .ofWord (Bytes.toNat b.bytes)

/-- All bytes but the last one overwritten with a significand. -/
def writeSignificand (man : Nat) (b : Buffer p) : Buffer p where
  bytes := b.bytes.mapIdx fun i byte =>
    if i < p.size - 1 then UInt8.ofNat (man >>> (8 * i)) else byte
  length_bytes := by rw [List.length_mapIdx, b.length_bytes]

/-- The byte with the sign in its top bit: the bit is cleared, and then set for a negative
value. -/
def signByte (neg : Bool) (byte : UInt8) : UInt8 :=
  let cleared := byte &&& 0x7f
  if neg then cleared ||| 0x80 else cleared

/-- The sign written over the leading one. -/
def writeSign (neg : Bool) (b : Buffer p) : Buffer p where
  bytes := b.bytes.modify (p.size - 2) (signByte neg)
  length_bytes := by rw [List.length_modify, b.length_bytes]

def writeExponent (exponent : Nat) (b : Buffer p) : Buffer p where
  bytes := b.bytes.set (p.size - 1) (UInt8.ofNat exponent)
  length_bytes := by rw [List.length_set, b.length_bytes]

/-! ## Order -/

def byte (b : Buffer p) (i : Nat) : UInt8 := b.bytes.getD i 0

def isZero (b : Buffer p) : Bool := b.byte (p.size - 1) == 0

def isNegative (b : Buffer p) : Bool := b.byte (p.size - 2) &&& 0x80 != 0

def sign (b : Buffer p) : Int :=
  if b.isZero then 0 else if b.isNegative then -1 else 1

/-- A byte, the sign bit left out. -/
def unsignedByte (b : Buffer p) (i : Nat) : UInt8 :=
  if i = p.size - 2 then b.byte i &&& 0x7f else b.byte i

/-- The order of two buffers by their first `n` bytes, from the last of these down: the first
bytes that differ decide. -/
def compareBelow (b c : Buffer p) : Nat → Ordering
  | 0 => .eq
  | i + 1 =>
    match compare (b.unsignedByte i) (c.unsignedByte i) with
    | .eq => compareBelow b c i
    | order => order

/-- The order of two magnitudes, from the exponent byte down. -/
def compareMagnitude (b c : Buffer p) : Ordering := b.compareBelow c p.size

def gt (b c : Buffer p) : Bool :=
  if b.sign ≠ c.sign then c.sign < b.sign
  else if b.sign = 0 then false
  else if 0 < b.sign then b.compareMagnitude c == .gt
  else b.compareMagnitude c == .lt

def eq (b c : Buffer p) : Bool :=
  match b.isZero, c.isZero with
  | true, true => true
  | false, false => b.bytes == c.bytes
  | _, _ => false

end Buffer

/-- What an operation in place leaves behind: the buffer, and the failure that it reports. -/
structure Settled (p : Precision) where
  buffer : Buffer p
  failure : Option (Failure (Floating p)) := none
deriving DecidableEq, Repr

/-! ## Storing -/

/-- A working value with its exponent in a word. -/
structure Held (p : Precision) where
  exp : Int32
  man : Nat
  neg : Bool
deriving DecidableEq, Repr

/-- A working value as it is held: of its exponent the low 32 bits. -/
def Scratch.held (d : Scratch p) : Held p := { exp := .ofInt d.exp, man := d.man, neg := d.neg }

namespace Held

def scratch (d : Held p) : Scratch p := { exp := d.exp.toInt, man := d.man, neg := d.neg }

/-- One bit up; a clear bit moves in on the right. -/
def moveUp (d : Held p) : Held p := { d with man := d.man <<< 1, exp := d.exp - 1 }

/-- One bit down; the bit that moves out on the right stays in the lowest one. -/
def moveDown (d : Held p) : Held p :=
  { d with man := d.man >>> 1 ||| (d.man &&& 1), exp := d.exp + 1 }

theorem man_moveUp (d : Held p) : d.moveUp.man = d.man * 2 := Nat.shiftLeft_eq d.man 1

theorem man_moveDown (d : Held p) : d.moveDown.man = sticky d.man 1 :=
  shiftRight_or_eq_sticky d.man

/-- Moves up until the top bit of the working width is set. -/
def fillUp (d : Held p) : Held p :=
  if d.man ≠ 0 ∧ d.man < 2 ^ (p.width - 1) then d.moveUp.fillUp else d
termination_by 2 ^ (p.width - 1) - d.man
decreasing_by
  -- what is not zero doubles, so the rest up to the top bit shrinks
  have hman := d.man_moveUp
  omega

/-- Moves down until nothing stands above the working width. -/
def cutDown (d : Held p) : Held p :=
  if 2 ^ p.width ≤ d.man then d.moveDown.cutDown else d
termination_by d.man
decreasing_by
  -- a half, with the lowest bit set, is still less for all that is wider than two bits
  have hman := d.man_moveDown
  have hwide : 4 ≤ 2 ^ p.width := by cases p <;> decide
  have hhalf : sticky d.man 1 ≤ d.man / 2 + 1 := by
    unfold sticky
    split <;> omega
  omega

/-- A significand with its guard byte rounded away by masks: past the half, or at the half and
below a bit that is set, one is added above the byte, and then the byte is cleared. -/
def roundMask (man : Nat) : Nat :=
  let guard := man &&& 0xff
  let up := if 0x80 < guard ∨ (guard = 0x80 ∧ man &&& 0x100 ≠ 0) then man + 0x100 else man
  (up >>> 8) <<< 8

/-- Rounds the guard byte away; a carry out of the width moves all down by one bit. -/
def roundGuard (d : Held p) : Held p :=
  let man := roundMask d.man
  if 2 ^ p.width ≤ man then { d with man := man >>> 1, exp := d.exp + 1 } else { d with man := man }

/-- Stores `d` over a buffer. The significand and its sign are written before the exponent is
looked at: one that is past the range takes the largest magnitude there, and one that is too
small is a clear byte behind them. -/
def storeInto (d : Held p) (b : Buffer p) : Settled p :=
  if d.man = 0 ∨ d.exp ≤ 0 then ⟨Floating.zero.buffer, none⟩
  else
    let e := d.fillUp.cutDown.roundGuard
    let packed := (b.writeSignificand (e.man >>> 8)).writeSign e.neg
    if 255 < e.exp then ⟨(Floating.max e.neg).buffer, some (.overflow (.max e.neg))⟩
    else ⟨packed.writeExponent e.exp.toNatClampNeg, none⟩

end Held

/-! ## Operations -/

namespace Buffer

/-- Adds the value of `c` to the one in the buffer. -/
def add (b c : Buffer p) : Settled p := (b.value.unpack.add c.value.unpack).held.storeInto b

def sub (b c : Buffer p) : Settled p :=
  (b.value.unpack.add c.value.unpack.negate).held.storeInto b

def mul (b c : Buffer p) : Settled p :=
  if b.value.isZero || c.value.isZero then ⟨Floating.zero.buffer, none⟩
  else (b.value.unpack.mul c.value.unpack).held.storeInto b

/-- Divides by the value of `c`. A zero divisor leaves the largest magnitude of the sign that
is in the buffer, and reports it. -/
def div (b c : Buffer p) : Settled p :=
  if c.value.isZero then
    let largest := Floating.max b.value.neg
    ⟨largest.buffer, some (.divisionByZero largest)⟩
  else if b.value.isZero then ⟨b, none⟩
  else (b.value.unpack.div c.value.unpack).held.storeInto b

/-- Multiplies the buffer `acc` by `base` to the power `n`, by repeated squaring. The squares
are taken in a buffer of their own. -/
def squarings (acc base : Buffer p) (n : Nat) : Settled p :=
  if n = 0 then ⟨acc, none⟩
  else
    let product := if n % 2 = 1 then acc.mul base else ⟨acc, none⟩
    match product.failure with
    | some e => ⟨product.buffer, some e⟩
    | none =>
      if n / 2 = 0 then ⟨product.buffer, none⟩
      else
        let square := base.mul base
        match square.failure with
        -- the square is too large, and the buffer keeps the product it has
        | some e => ⟨product.buffer, some e⟩
        | none => squarings product.buffer square.buffer (n / 2)
termination_by n
decreasing_by omega

/-- Raises the value in the buffer to a whole power. Where the squarings overflow, what they
left is written over: with zero for a negative power, else with the largest magnitude of the
sign that the power would have. -/
def pow (b : Buffer p) (n : Int) : Settled p :=
  let neg := b.value.neg && n % 2 == 1
  let power := squarings Floating.one.buffer b n.natAbs
  match power.failure with
  | some (.overflow _) =>
    if n < 0 then ⟨Floating.zero.buffer, none⟩
    else ⟨(Floating.max neg).buffer, some (.overflow (.max neg))⟩
  | some e => ⟨power.buffer, some e⟩
  | none => if n < 0 then Floating.one.buffer.div power.buffer else power

end Buffer

end BasicNumerics
