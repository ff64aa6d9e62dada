/-
Sixteen-bit integers.

An integer is a word of sixteen bits, read with or without a sign. Addition and
subtraction work on words and tell an overflow from the sign bits; multiplication
and the two divisions work on the numbers and check the range. A result out of
range is a fault, never a wrapped word, and leaves nothing behind.
-/
import BasicNumerics.Bytes
import BasicNumerics.Fault
import BasicNumerics.Floating.Whole

set_option autoImplicit false

namespace BasicNumerics

attribute [local instance (high)] instPowNat

structure Integer where
  word : BitVec 16
deriving DecidableEq, Repr

/-- Whether the top bit of a word is a sign. -/
inductive Reading where
  | signed
  | unsigned
deriving DecidableEq, Repr

/-- The largest number accepted for a word; the unsigned reading takes the
numbers past the signed range as well. -/
def Reading.high : Reading → Int
  | signed => 32767
  | unsigned => 65535

namespace Integer

/-! ## Numbers and words -/

instance : Inhabited Integer := ⟨⟨0⟩⟩

def zero : Integer := ⟨0⟩

def toInt (n : Integer) : Reading → Int
  | .signed => n.word.toInt
  | .unsigned => n.word.toNat

/-- The word of a number, which must be at least `-32768` and at most the
reading's largest. -/
def ofInt (r : Reading) (n : Int) : Except Fault Integer :=
  if n < -32768 ∨ r.high < n then .error (.ofCause .overflow) else .ok ⟨BitVec.ofInt 16 n⟩

theorem toInt_bounds (n : Integer) : -32768 ≤ n.toInt .signed ∧ n.toInt .signed ≤ 32767 := by
  have hlo : -2 ^ 15 ≤ n.word.toInt := n.word.le_toInt
  have hhi : n.word.toInt < 2 ^ 15 := n.word.toInt_lt
  show -32768 ≤ n.word.toInt ∧ n.word.toInt ≤ 32767
  omega

/-- **The words are the signed range:** a number has a word exactly when it is what the
word reads as. -/
theorem ofInt_signed_eq_ok_iff {k : Int} {n : Integer} :
    ofInt .signed k = .ok n ↔ n.toInt .signed = k := by
  constructor
  · intro h
    unfold ofInt at h
    split at h
    · exact absurd h (by simp)
    · next hin =>
      have hword : n = ⟨BitVec.ofInt 16 k⟩ := (Except.ok.inj h).symm
      rw [not_or, Int.not_lt, Int.not_lt] at hin
      have hhi : k ≤ 32767 := hin.2
      rw [hword, toInt, BitVec.toInt_ofInt, Int.bmod_def]
      omega
  · rintro rfl
    have hb := n.toInt_bounds
    have hin : ¬(n.toInt .signed < -32768 ∨ Reading.high .signed < n.toInt .signed) := by
      simp only [Reading.high]
      omega
    rw [ofInt, if_neg hin, toInt, BitVec.ofInt_toInt]

/-- Truth as a word: all bits set or all clear. -/
def ofBool (b : Bool) : Integer := ⟨if b then BitVec.allOnes 16 else 0⟩

def isZero (n : Integer) : Bool := n.word == 0

def isNegative (n : Integer) : Bool := n.word.msb

def sign (n : Integer) : Int := (n.toInt .signed).sign

/-- Whether `n` exceeds `m` as signed numbers. -/
def gt (n m : Integer) : Bool := m.toInt .signed < n.toInt .signed

/-- The order of two words as signed numbers. -/
def compare (n m : Integer) : Ordering := Ord.compare (n.toInt .signed) (m.toInt .signed)

/-- The word as a floating-point value, which holds it exactly. -/
def toFloating (p : Precision) (n : Integer) : Floating p := .ofInt (n.toInt .signed)

/-! ## Arithmetic -/

/-- The opposite number; the lowest one has none. -/
def negate (n : Integer) : Except Fault Integer :=
  if n.word = 0x8000 then .error (.ofCause .overflow) else .ok ⟨~~~n.word + 1⟩

/-- The magnitude; the lowest number has none. -/
def abs (n : Integer) : Except Fault Integer :=
  if n.isNegative then n.negate else .ok n

/-- The sum. It overflows when both operands share a sign that the sum has not. -/
def add (n m : Integer) : Except Fault Integer :=
  let sum := n.word + m.word
  if n.isNegative = m.isNegative ∧ n.isNegative ≠ sum.msb then .error (.ofCause .overflow)
  else .ok ⟨sum⟩

/-- The difference. It overflows when the signs differ and the difference has not
the sign of the left operand. -/
def sub (n m : Integer) : Except Fault Integer :=
  let difference := n.word - m.word
  if n.isNegative ≠ m.isNegative ∧ n.isNegative ≠ difference.msb then
    .error (.ofCause .overflow)
  else .ok ⟨difference⟩

def mul (n m : Integer) : Except Fault Integer :=
  ofInt .signed (n.toInt .signed * m.toInt .signed)

/-- Runs a division, a zero divisor giving the largest single of the dividend's
sign. -/
def divideBy (quotient : Int → Int → Int) (n m : Integer) : Outcome Single Integer :=
  if m.isZero then .error (.divisionByZero (.max n.isNegative))
  else .ofFault (ofInt .signed (quotient (n.toInt .signed) (m.toInt .signed)))

/-- The quotient, cut towards zero. -/
def div : Integer → Integer → Outcome Single Integer := divideBy Int.tdiv

/-- The remainder, with the sign of the dividend. -/
def mod : Integer → Integer → Outcome Single Integer := divideBy Int.tmod

/-! ## Logic, bit by bit -/

def not (n : Integer) : Integer := ⟨~~~n.word⟩

def and (n m : Integer) : Integer := ⟨n.word &&& m.word⟩

def or (n m : Integer) : Integer := ⟨n.word ||| m.word⟩

def xor (n m : Integer) : Integer := ⟨n.word ^^^ m.word⟩

def eqv (n m : Integer) : Integer := ⟨~~~(n.word ^^^ m.word)⟩

/-- The right bit wherever the left one is set. -/
def imp (n m : Integer) : Integer := ⟨~~~n.word ||| m.word⟩

/-! ## Buffers -/

/-- The two bytes, low byte first. -/
def toBytes (n : Integer) : List UInt8 := Bytes.ofNat 2 n.word.toNat

def ofBytes (bytes : List UInt8) : Except Fault Integer :=
  if bytes.length = 2 then .ok ⟨BitVec.ofNat 16 (Bytes.toNat bytes)⟩
  else .error (.badBytes "WRONG NUMBER SIZE")

/-- The bytes for a slot of the given length, which must be the right one. -/
def bytesFor (n : Integer) (slot : Nat) : Except Fault (List UInt8) :=
  if slot = 2 then .ok n.toBytes else .error (.badBytes "WRONG NUMBER SIZE")

@[simp] theorem length_toBytes (n : Integer) : n.toBytes.length = 2 := Bytes.length_ofNat _ _

/-- **A buffer holds its word.** -/
theorem ofBytes_toBytes (n : Integer) : ofBytes n.toBytes = .ok n := by
  have h : n.word.toNat < 256 ^ 2 := n.word.isLt
  rw [ofBytes, if_pos n.length_toBytes, toBytes, Bytes.toNat_ofNat, Nat.mod_eq_of_lt h,
    BitVec.ofNat_toNat, BitVec.setWidth_eq]

end Integer

end BasicNumerics
