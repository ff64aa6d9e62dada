/-
A register computes like the integers, as far as they go.

The word of a register is read as a number from `-32768` to `32767`. Beside the register
stands a machine that holds such a number and knows nothing of words: it takes the exact
result of each instruction in the integers (a quotient cut towards zero, a remainder with
the sign of the dividend, a connective applied to all the bits of two's complement) and
keeps its number where the result is out of range or the divisor is zero. Every run of the
register, read as numbers, is a run of that machine, failures included.

All arithmetic of words comes down to one lemma, `apply_eq`: an instruction that does not
divide by zero takes the exact result and asks for its word. For sums and differences that
is the meaning of the test on sign bits. For the connectives it is that a word, read as a
number, has the bits of the word and then its top bit for ever (`testBit_toInt`), so the
exact result has that form too and is never out of range. The bytes of the register follow
their word, step by step (`run_register`).
-/
import BasicNumerics.Proofs.Register.InPlace
import Mathlib.Algebra.Order.Group.Unbundled.Int
import Mathlib.Data.Int.Bitwise

set_option autoImplicit false

namespace BasicNumerics

/-! ## The machine of integers -/

/-- The truth function of a connective. -/
def Connective.onBits : Connective → Bool → Bool → Bool
  | and, a, b => a && b
  | or, a, b => a || b
  | xor, a, b => a ^^ b
  | eqv, a, b => !(a ^^ b)
  | imp, a, b => !a || b

namespace Instruction

/-- The exact result of an instruction in the integers. -/
def exact (k : ℤ) : Instruction → ℤ
  | negate => -k
  | abs => |k|
  | not => Int.lnot k
  | add m => k + m.toInt .signed
  | sub m => k - m.toInt .signed
  | mul m => k * m.toInt .signed
  | div m => k.tdiv (m.toInt .signed)
  | mod m => k.tmod (m.toInt .signed)
  | logical c m => Int.bitwise c.onBits k (m.toInt .signed)

/-- Whether an instruction divides by zero. -/
def dividesByZero : Instruction → Bool
  | div m | mod m => m.toInt .signed == 0
  | _ => false

/-- One step of the machine of integers: the number after it, and the failure if there was
one. A zero divisor is told softly, with the largest single of the dividend's sign; a
result out of range is a fault. -/
def checked (k : ℤ) (i : Instruction) : ℤ × Option (Failure Single) :=
  if i.dividesByZero then (k, some (.divisionByZero (.max (k < 0))))
  else if -32768 ≤ i.exact k ∧ i.exact k ≤ 32767 then (i.exact k, none)
  else (k, some (.fault (.ofCause .overflow)))

/-- What each of several instructions leaves in the machine of integers. -/
def checkedRun (k : ℤ) : List Instruction → List (ℤ × Option (Failure Single))
  | [] => []
  | i :: is => i.checked k :: checkedRun (i.checked k).1 is

end Instruction

/-! ## The bits of a word, read as a number -/

theorem int_eq_of_testBit_eq {a b : ℤ} (h : ∀ k, a.testBit k = b.testBit k) : a = b := by
  -- far out, the bits of a number are its sign
  have hsign : ∀ m n : ℕ, ¬∀ k, (Int.ofNat m).testBit k = (Int.negSucc n).testBit k := by
    intro m n hall
    have hk := hall (m + n)
    have hm : m.testBit (m + n) = false :=
      Nat.testBit_lt_two_pow (Nat.lt_two_pow_self.trans_le
        (Nat.pow_le_pow_right (by decide) (Nat.le_add_right m n)))
    have hn : n.testBit (m + n) = false :=
      Nat.testBit_lt_two_pow (Nat.lt_two_pow_self.trans_le
        (Nat.pow_le_pow_right (by decide) (Nat.le_add_left n m)))
    simp [Int.testBit, hm, hn] at hk
  rcases a with m | m <;> rcases b with n | n
  · exact congrArg Int.ofNat (Nat.eq_of_testBit_eq h)
  · exact absurd h (hsign m n)
  · exact absurd (fun k => (h k).symm) (hsign n m)
  · refine congrArg Int.negSucc (Nat.eq_of_testBit_eq fun k => ?_)
    exact Bool.not_inj (h k)

namespace Integer

/-- **A word, read as a number, goes on with its top bit.** -/
theorem testBit_toInt (n : Integer) (k : ℕ) :
    (n.toInt .signed).testBit k = n.word.getLsbD (min k 15) := by
  have htop : n.word.getLsbD 15 = n.word.msb := rfl
  by_cases hneg : n.word.msb = true
  · -- a negative number has the bits of the complement, turned
    have hword : n.toInt .signed = Int.negSucc (~~~n.word).toNat := by
      have hlt := n.word.isLt
      rw [toInt, BitVec.toInt_eq_msb_cond, if_pos hneg, BitVec.toNat_not]
      omega
    rw [hword]
    show (!(~~~n.word).toNat.testBit k) = _
    rw [BitVec.testBit_toNat, BitVec.getLsbD_not]
    by_cases hk : k < 16
    · rw [Nat.min_eq_left (by omega)]
      simp [hk]
    · rw [Nat.min_eq_right (by omega), htop, hneg]
      simp [hk]
  · have hword : n.toInt .signed = (n.word.toNat : ℤ) := by
      rw [toInt, BitVec.toInt_eq_msb_cond, if_neg hneg]
    rw [hword]
    show n.word.toNat.testBit k = _
    rw [BitVec.testBit_toNat]
    by_cases hk : k < 16
    · rw [Nat.min_eq_left (by omega)]
    · rw [Nat.min_eq_right (by omega), htop, Bool.not_eq_true _ |>.mp hneg,
        BitVec.getLsbD_of_ge _ _ (by omega)]

/-! ## The word of an exact result -/

theorem ofInt_signed_eq_error {k : ℤ} (h : k < -32768 ∨ 32767 < k) :
    ofInt .signed k = .error (.ofCause .overflow) := if_pos h

theorem isNegative_eq (n : Integer) : n.isNegative = decide (n.toInt .signed < 0) :=
  BitVec.msb_eq_toInt

/-- The lowest number alone has no opposite. -/
theorem negate_eq_ofInt (n : Integer) : n.negate = ofInt .signed (-n.toInt .signed) := by
  unfold negate
  by_cases hlow : n.word = 0x8000
  · rw [if_pos hlow, ofInt_signed_eq_error]
    right
    rw [toInt, hlow]
    decide
  · rw [if_neg hlow, eq_comm, ofInt_signed_eq_ok_iff]
    have hneg : ~~~n.word + 1 = -n.word := (BitVec.neg_eq_not_add n.word).symm
    show (~~~n.word + 1).toInt = _
    rw [hneg, BitVec.toInt_neg_of_ne_intMin hlow]
    rfl

theorem abs_eq_ofInt (n : Integer) : n.abs = ofInt .signed |n.toInt .signed| := by
  rw [abs, isNegative_eq]
  by_cases hneg : n.toInt .signed < 0
  · rw [if_pos (by simpa using hneg), abs_of_neg hneg, negate_eq_ofInt]
  · rw [if_neg (by simpa using hneg), abs_of_nonneg (by omega), eq_comm, ofInt_signed_eq_ok_iff]

/-- **The sign bits tell when a sum is out of range.** -/
theorem add_eq_ofInt (n m : Integer) :
    n.add m = ofInt .signed (n.toInt .signed + m.toInt .signed) := by
  have hn := n.toInt_bounds
  have hm := m.toInt_bounds
  have hsum : (n.word + m.word).toInt = (n.toInt .signed + m.toInt .signed).bmod (2 ^ 16) :=
    BitVec.toInt_add n.word m.word
  rw [Int.bmod_def] at hsum
  unfold add
  simp only [isNegative_eq, BitVec.msb_eq_toInt, decide_eq_decide, ne_eq]
  split
  · rw [ofInt_signed_eq_error]
    omega
  · rw [eq_comm, ofInt_signed_eq_ok_iff]
    show (n.word + m.word).toInt = _
    omega

/-- **The sign bits tell when a difference is out of range.** -/
theorem sub_eq_ofInt (n m : Integer) :
    n.sub m = ofInt .signed (n.toInt .signed - m.toInt .signed) := by
  have hn := n.toInt_bounds
  have hm := m.toInt_bounds
  have hdifference : (n.word - m.word).toInt = (n.toInt .signed - m.toInt .signed).bmod (2 ^ 16) :=
    BitVec.toInt_sub
  rw [Int.bmod_def] at hdifference
  unfold sub
  simp only [isNegative_eq, BitVec.msb_eq_toInt, decide_eq_decide, ne_eq]
  split
  · rw [ofInt_signed_eq_error]
    omega
  · rw [eq_comm, ofInt_signed_eq_ok_iff]
    show (n.word - m.word).toInt = _
    omega

theorem toInt_not (n : Integer) : n.not.toInt .signed = Int.lnot (n.toInt .signed) := by
  apply int_eq_of_testBit_eq
  intro k
  rw [Int.testBit_lnot, testBit_toInt, testBit_toInt, not, BitVec.getLsbD_not]
  simp only [Bool.and_eq_right_iff_imp, decide_eq_true_eq]
  omega

/-- **A connective works bit by bit**, on the words and on the numbers alike. -/
theorem toInt_onWords (c : Connective) (n m : Integer) :
    (c.onWords n m).toInt .signed = Int.bitwise c.onBits (n.toInt .signed) (m.toInt .signed) := by
  apply int_eq_of_testBit_eq
  intro k
  rw [Int.testBit_bitwise, testBit_toInt, testBit_toInt, testBit_toInt]
  have hk : min k 15 < 16 := by omega
  cases c <;> simp [Connective.onWords, Connective.onBits, and, or, xor, eqv, imp, hk]

end Integer

/-! ## Steps and runs -/

namespace Instruction

/-- **The exact result, if a word holds it:** that is what an instruction gives, unless it
divides by zero. -/
theorem apply_eq {i : Instruction} (h : i.dividesByZero = false) (n : Integer) :
    i.apply n = .ofFault (Integer.ofInt .signed (i.exact (n.toInt .signed))) := by
  have hdivide : ∀ (quotient : ℤ → ℤ → ℤ) (m : Integer), (m.toInt .signed == 0) = false →
      Integer.divideBy quotient n m =
        .ofFault (Integer.ofInt .signed (quotient (n.toInt .signed) (m.toInt .signed))) := by
    intro quotient m hm
    rw [Integer.divideBy, Integer.isZero_eq, hm]
    rfl
  have hok : ∀ m : Integer, .ok m =
      (Outcome.ofFault (Integer.ofInt .signed (m.toInt .signed)) : Outcome Single Integer) := by
    intro m
    rw [Integer.ofInt_signed_eq_ok_iff.mpr rfl]
    rfl
  cases i with
  | negate => exact congrArg Outcome.ofFault n.negate_eq_ofInt
  | abs => exact congrArg Outcome.ofFault n.abs_eq_ofInt
  | not => rw [apply, hok, Integer.toInt_not, exact]
  | add m => exact congrArg Outcome.ofFault (n.add_eq_ofInt m)
  | sub m => exact congrArg Outcome.ofFault (n.sub_eq_ofInt m)
  | mul m => rfl
  | div m => exact hdivide Int.tdiv m h
  | mod m => exact hdivide Int.tmod m h
  | logical c m => rw [apply, hok, Integer.toInt_onWords, exact]

theorem apply_of_dividesByZero {i : Instruction} (h : i.dividesByZero = true) (n : Integer) :
    i.apply n = .error (.divisionByZero (.max (n.toInt .signed < 0))) := by
  have hdivide : ∀ (quotient : ℤ → ℤ → ℤ) (m : Integer), (m.toInt .signed == 0) = true →
      Integer.divideBy quotient n m =
        .error (.divisionByZero (.max (n.toInt .signed < 0))) := by
    intro quotient m hm
    rw [Integer.divideBy, Integer.isZero_eq, if_pos hm, Integer.isNegative_eq]
  cases i with
  | div m => exact hdivide Int.tdiv m h
  | mod m => exact hdivide Int.tmod m h
  | negate | abs | not | add | sub | mul | logical => exact absurd h Bool.false_ne_true

end Instruction

namespace Integer

/-- **One step:** the register, read as a number, does what the machine of integers does. -/
theorem step_eq_checked (n : Integer) (i : Instruction) :
    ((n.step i).1.toInt .signed, (n.step i).2) = i.checked (n.toInt .signed) := by
  rw [step, Instruction.checked]
  by_cases hzero : i.dividesByZero = true
  · rw [if_pos hzero, Instruction.apply_of_dividesByZero hzero]
  · rw [if_neg hzero, Instruction.apply_eq (by simpa using hzero)]
    by_cases hin : -32768 ≤ i.exact (n.toInt .signed) ∧ i.exact (n.toInt .signed) ≤ 32767
    · obtain ⟨m, hm⟩ : ∃ m, ofInt .signed (i.exact (n.toInt .signed)) = .ok m := by
        refine ⟨⟨BitVec.ofInt 16 _⟩, if_neg ?_⟩
        simp only [Reading.high]
        omega
      rw [if_pos hin, hm, ← ofInt_signed_eq_ok_iff.mp hm]
      rfl
    · rw [if_neg hin, ofInt_signed_eq_error (by omega)]
      rfl

/-- A step that fails leaves the word as it was. -/
theorem step_of_failure {n : Integer} {i : Instruction} (h : (n.step i).2 ≠ none) :
    (n.step i).1 = n := by
  unfold step at h ⊢
  split
  · next m hm =>
    rw [hm] at h
    exact absurd rfl h
  · rfl

/-- A run on the bytes leaves the bytes of the words that the same run leaves. -/
theorem run_register (n : Integer) (is : List Instruction) :
    n.register.run is = (n.run is).map fun s => (s.1.register, s.2) := by
  induction is generalizing n with
  | nil => rfl
  | cons i is ih => rw [Register.run, run, List.map_cons, Register.step_register, ih]

/-- **A register refines checked arithmetic over whole runs.** Whatever word it starts with
and whatever the operands are, after each instruction of a run the word reads as the number
that the machine of integers holds, and the two fail together and alike: with an overflow
where the exact result leaves the range, and softly, with the largest single of the
dividend's sign, where the divisor is zero. A step that fails leaves both bytes as they
were.

The same holds of the machine that works on the two bytes in place, with carries and borrows:
its runs leave the bytes of those words, and a step of it that fails has written nothing. -/
theorem run_eq_checkedRun (n : Integer) (is : List Instruction) :
    (n.run is).map (fun s => (s.1.toInt .signed, s.2)) =
        Instruction.checkedRun (n.toInt .signed) is ∧
      (∀ (m : Integer) (i : Instruction), (m.step i).2 ≠ none →
        (m.step i).1.toBytes = m.toBytes) ∧
      n.register.run is = (n.run is).map (fun s => (s.1.register, s.2)) ∧
      ∀ (r : Register) (i : Instruction), (r.step i).2 ≠ none → (r.step i).1 = r := by
  refine ⟨?_, ?_, run_register n is, ?_⟩
  · -- along the run; the word that a step leaves is the start of the rest
    induction is generalizing n with
    | nil => rfl
    | cons i is ih =>
      have hstep := n.step_eq_checked i
      rw [run, List.map_cons, ih, hstep, Instruction.checkedRun, ← hstep]
  · intro m i hfail
    rw [step_of_failure hfail]
  · intro r i hfail
    -- the bytes are those of a word, and the word is left as it was
    rw [← r.register_word, Register.step_register] at hfail ⊢
    rw [step_of_failure hfail]

end Integer

end BasicNumerics
