/-
A register of sixteen bits.

A register holds one word and is worked on in place, one instruction after another.
Most instructions take a second word as their operand. An instruction that fails says
how and leaves the word as it was, and the ones after it still run.

The word is two bytes, and that is what an instruction works on: it adds with a carry and
subtracts with a borrow from the low byte to the high one, and it writes bytes over bytes.
What it has written stays when it fails later on, so that a failed instruction leaves the
register alone is a matter of testing before writing (`Register.run_inPlace`).
-/
import BasicNumerics.Value.Operator

set_option autoImplicit false

namespace BasicNumerics

/-- What can be done to the word of a register. -/
inductive Instruction where
  | negate
  | abs
  | not
  | add (m : Integer)
  | sub (m : Integer)
  | mul (m : Integer)
  | div (m : Integer)
  | mod (m : Integer)
  | logical (c : Connective) (m : Integer)
deriving DecidableEq, Repr

/-! ## Words -/

/-- The word an instruction makes of `n`. Only a division fails softly. -/
def Instruction.apply (n : Integer) : Instruction → Outcome Single Integer
  | negate => .ofFault n.negate
  | abs => .ofFault n.abs
  | not => .ok n.not
  | add m => .ofFault (n.add m)
  | sub m => .ofFault (n.sub m)
  | mul m => .ofFault (n.mul m)
  | div m => n.div m
  | mod m => n.mod m
  | logical c m => .ok (c.onWords n m)

namespace Integer

/-- The word after one instruction, and the failure if there was one. -/
def step (n : Integer) (i : Instruction) : Integer × Option (Failure Single) :=
  match i.apply n with
  | .ok m => (m, none)
  | .error e => (n, some e)

/-- What each of several instructions leaves, in order. -/
def run (n : Integer) : List Instruction → List (Integer × Option (Failure Single))
  | [] => []
  | i :: is => n.step i :: run (n.step i).1 is

end Integer

/-! ## Bytes -/

/-- The sum of two bytes, and whether it carries. -/
def addCarrying (a b : UInt8) : UInt8 × Bool := (a + b, 256 ≤ a.toNat + b.toNat)

/-- The difference of two bytes, and whether it borrows. -/
def subBorrowing (a b : UInt8) : UInt8 × Bool := (a - b, a < b)

/-- The two bytes of a register. -/
@[ext] structure Register where
  lo : UInt8
  hi : UInt8
deriving DecidableEq, Repr

/-- Work on a register in place: it may fail, and then what it has written is left. -/
abbrev InPlace := ExceptT (Failure Single) (StateM Register)

def Integer.register (n : Integer) : Register where
  lo := .ofBitVec (n.word.extractLsb' 0 8)
  hi := .ofBitVec (n.word.extractLsb' 8 8)

/-- A connective on the bits of two bytes. -/
def Connective.onBytes : Connective → UInt8 → UInt8 → UInt8
  | and, a, b => a &&& b
  | or, a, b => a ||| b
  | xor, a, b => a ^^^ b
  | eqv, a, b => ~~~(a ^^^ b)
  | imp, a, b => ~~~a ||| b

namespace Register

def word (r : Register) : Integer := ⟨r.hi.toBitVec ++ r.lo.toBitVec⟩

def isNegative (r : Register) : Bool := r.hi &&& 0x80 != 0

def complement (r : Register) : Register := ⟨~~~r.lo, ~~~r.hi⟩

/-- The sum byte by byte, and the carry out of the high byte. -/
def plus (r m : Register) : Register × Bool :=
  let (lo, carry) := addCarrying r.lo m.lo
  let (hi, carryHigh) := addCarrying r.hi m.hi
  let (hi, carryLow) := addCarrying hi carry.toUInt8
  (⟨lo, hi⟩, carryHigh || carryLow)

/-- The difference byte by byte. -/
def minus (r m : Register) : Register :=
  let (lo, borrow) := subBorrowing r.lo m.lo
  ⟨lo, r.hi - m.hi - borrow.toUInt8⟩

def overflow : InPlace Unit := throw (.fault (.ofCause .overflow))

/-- The complement is written, and then one added to it. -/
def negate : InPlace Unit := do
  if (← get) = ⟨0x00, 0x80⟩ then overflow
  modify complement
  modify fun r => (r.plus ⟨1, 0⟩).1

def abs : InPlace Unit := do
  if (← get).isNegative then negate

def add (m : Register) : InPlace Unit := do
  let r ← get
  let sum := (r.plus m).1
  if r.isNegative = m.isNegative ∧ r.isNegative ≠ sum.isNegative then overflow
  set sum

def sub (m : Register) : InPlace Unit := do
  let r ← get
  let difference := r.minus m
  if r.isNegative ≠ m.isNegative ∧ r.isNegative ≠ difference.isNegative then overflow
  set difference

/-- Writes a number, which must be in range. -/
def assign (k : Int) : InPlace Unit :=
  match Integer.ofInt .signed k with
  | .ok n => set n.register
  | .error f => throw (.fault f)

def mul (m : Register) : InPlace Unit := do
  assign ((← get).word.toInt .signed * m.word.toInt .signed)

/-- Writes a quotient or a remainder, unless the divisor is zero. -/
def divideBy (quotient : Int → Int → Int) (m : Register) : InPlace Unit := do
  let r ← get
  if m.word.toInt .signed = 0 then throw (.divisionByZero (.max r.isNegative))
  assign (quotient (r.word.toInt .signed) (m.word.toInt .signed))

def bitwise (f : UInt8 → UInt8 → UInt8) (m : Register) : InPlace Unit :=
  modify fun r => ⟨f r.lo m.lo, f r.hi m.hi⟩

end Register

/-- An instruction as work on the bytes. -/
def Instruction.inPlace : Instruction → InPlace Unit
  | negate => Register.negate
  | abs => Register.abs
  | not => modify Register.complement
  | add m => Register.add m.register
  | sub m => Register.sub m.register
  | mul m => Register.mul m.register
  | div m => Register.divideBy Int.tdiv m.register
  | mod m => Register.divideBy Int.tmod m.register
  | logical c m => Register.bitwise c.onBytes m.register

namespace Register

/-- The bytes after one instruction, and the failure if there was one. -/
def step (r : Register) (i : Instruction) : Register × Option (Failure Single) :=
  match i.inPlace.run r with
  | (.ok _, left) => (left, none)
  | (.error e, left) => (left, some e)

/-- What each of several instructions leaves, in order. -/
def run (r : Register) : List Instruction → List (Register × Option (Failure Single))
  | [] => []
  | i :: is => r.step i :: run (r.step i).1 is

end Register

end BasicNumerics
