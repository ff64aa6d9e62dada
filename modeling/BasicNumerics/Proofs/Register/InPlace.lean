/-
The two bytes of a register do what its word does.

The sum with carries and the difference with a borrow are the sum and the difference of words
(`word_plus`, `word_minus`), and the sign bit of the high byte is that of the word. Each
instruction then leaves the bytes of the word that it makes; and where it fails it has written
nothing yet, so the bytes are those it found (`run_inPlace`). Negation alone writes twice, and
its test comes before both.
-/
import BasicNumerics.Register

set_option autoImplicit false

namespace BasicNumerics

/-! ## Words and bytes -/

namespace Integer

theorem isZero_eq (n : Integer) : n.isZero = (n.toInt .signed == 0) := by
  rw [Bool.eq_iff_iff, isZero, toInt, beq_iff_eq, beq_iff_eq, ← BitVec.toInt_inj]
  rfl

@[simp] theorem word_register (n : Integer) : n.register.word = n := by
  have happend : n.word.extractLsb' 8 8 ++ n.word.extractLsb' 0 8 = n.word :=
    BitVec.extractLsb'_append_extractLsb'
  exact congrArg Integer.mk happend

end Integer

namespace Register

@[simp] theorem register_word (r : Register) : r.word.register = r := by
  have hlo : (r.hi.toBitVec ++ r.lo.toBitVec).extractLsb' 0 8 = r.lo.toBitVec :=
    BitVec.extractLsb'_append_eq_right
  have hhi : (r.hi.toBitVec ++ r.lo.toBitVec).extractLsb' 8 8 = r.hi.toBitVec :=
    BitVec.extractLsb'_append_eq_left
  ext1
  · exact congrArg UInt8.ofBitVec hlo
  · exact congrArg UInt8.ofBitVec hhi

theorem toNat_word (r : Register) : r.word.word.toNat = r.lo.toNat + 256 * r.hi.toNat := by
  rw [word, BitVec.toNat_append, ← Nat.shiftLeft_add_eq_or_of_lt r.lo.toBitVec.isLt,
    Nat.shiftLeft_eq, UInt8.toNat_toBitVec, UInt8.toNat_toBitVec]
  omega

theorem isNegative_word (r : Register) : r.word.isNegative = r.isNegative := by
  have hbyte : ∀ b : BitVec 8, b.msb = (UInt8.ofBitVec b &&& 0x80 != 0) := by decide
  rw [Integer.isNegative, word, BitVec.msb_append, if_neg (by decide)]
  exact hbyte r.hi.toBitVec

/-! ## Carries and borrows -/

theorem addCarrying_spec (a b : UInt8) :
    (addCarrying a b).1.toNat + 256 * (addCarrying a b).2.toNat = a.toNat + b.toNat := by
  have ha := a.toNat_lt
  have hb := b.toNat_lt
  simp only [addCarrying, UInt8.toNat_add]
  by_cases hcarry : 256 ≤ a.toNat + b.toNat
  · rw [decide_eq_true hcarry, Bool.toNat_true]
    omega
  · rw [decide_eq_false hcarry, Bool.toNat_false]
    omega

theorem subBorrowing_spec (a b : UInt8) :
    (subBorrowing a b).1.toNat + b.toNat = a.toNat + 256 * (subBorrowing a b).2.toNat := by
  have ha := a.toNat_lt
  have hb := b.toNat_lt
  simp only [subBorrowing, UInt8.toNat_sub, UInt8.lt_iff_toNat_lt]
  by_cases hborrow : a.toNat < b.toNat
  · rw [decide_eq_true hborrow, Bool.toNat_true]
    omega
  · rw [decide_eq_false hborrow, Bool.toNat_false]
    omega

theorem toNat_toUInt8 (b : Bool) : b.toUInt8.toNat = b.toNat := by
  cases b <;> rfl

/-- **Two carries make a sum of sixteen bits,** and the second one is what does not fit it. -/
theorem toNat_plus (r m : Register) :
    (r.plus m).1.word.word.toNat + 65536 * (r.plus m).2.toNat =
      r.word.word.toNat + m.word.word.toNat := by
  have hlow := addCarrying_spec r.lo m.lo
  have hhigh := addCarrying_spec r.hi m.hi
  have hcarry := addCarrying_spec (addCarrying r.hi m.hi).1 (addCarrying r.lo m.lo).2.toUInt8
  simp only [toNat_word, plus]
  generalize addCarrying r.lo m.lo = low at hlow hcarry ⊢
  generalize addCarrying r.hi m.hi = high at hhigh hcarry ⊢
  generalize addCarrying high.1 low.2.toUInt8 = sum at hcarry ⊢
  rw [toNat_toUInt8] at hcarry
  -- a high byte that has carried is too small to carry once more
  have honce : (high.2 || sum.2).toNat = high.2.toNat + sum.2.toNat := by
    have hor : ∀ a b : Bool, a.toNat + b.toNat ≤ 1 → (a || b).toNat = a.toNat + b.toNat := by
      decide
    have hr := r.hi.toNat_lt
    have hm := m.hi.toNat_lt
    have hlowCarry := low.2.toNat_le
    apply hor
    omega
  rw [honce]
  omega

theorem word_plus (r m : Register) : (r.plus m).1.word = ⟨r.word.word + m.word.word⟩ := by
  have hsum := toNat_plus r m
  have hlt := (r.plus m).1.word.word.isLt
  have hword : (r.plus m).1.word.word = r.word.word + m.word.word := by
    apply BitVec.eq_of_toNat_eq
    rw [BitVec.toNat_add]
    omega
  exact congrArg Integer.mk hword

theorem word_minus (r m : Register) : (r.minus m).word = ⟨r.word.word - m.word.word⟩ := by
  have hlow := subBorrowing_spec r.lo m.lo
  have hborrow := (subBorrowing r.lo m.lo).2.toNat_le
  have hlo := (subBorrowing r.lo m.lo).1.toNat_lt
  have hrlo := r.lo.toNat_lt
  have hmlo := m.lo.toNat_lt
  have hrhi := r.hi.toNat_lt
  have hmhi := m.hi.toNat_lt
  have hword : (r.minus m).word.word = r.word.word - m.word.word := by
    apply BitVec.eq_of_toNat_eq
    simp only [BitVec.toNat_sub, toNat_word, minus, UInt8.toNat_sub, toNat_toUInt8]
    omega
  exact congrArg Integer.mk hword

theorem word_complement (r : Register) : r.complement.word = r.word.not :=
  congrArg Integer.mk BitVec.not_append.symm

theorem word_onBytes (c : Connective) (r m : Register) :
    (⟨c.onBytes r.lo m.lo, c.onBytes r.hi m.hi⟩ : Register).word = c.onWords r.word m.word := by
  apply congrArg Integer.mk
  cases c with
  | and => exact BitVec.and_append.symm
  | or => exact BitVec.or_append.symm
  | xor => exact BitVec.xor_append.symm
  | eqv =>
    refine BitVec.not_append.symm.trans (congrArg (~~~·) ?_)
    exact BitVec.xor_append.symm
  | imp =>
    refine BitVec.or_append.symm.trans (congrArg (· ||| _) ?_)
    exact BitVec.not_append.symm

end Register

/-! ## Work in place -/

namespace Integer

/-- What work on a word leaves of its bytes: those of the result, or those of the word. -/
def leaves (n : Integer) : Outcome Single Integer → Except (Failure Single) Unit × Register
  | .ok m => (.ok (), m.register)
  | .error e => (.error e, n.register)

end Integer

namespace Register

variable {r : Register} (n m : Integer)

theorem eq_register_iff : r = n.register ↔ r.word = n := by
  constructor
  · rintro rfl
    exact n.word_register
  · rintro rfl
    exact r.register_word.symm

theorem run_get_bind (f : Register → InPlace Unit) (r : Register) :
    ((get : InPlace Register) >>= f).run r = (f r).run r := rfl

theorem run_negate : negate.run n.register = n.leaves (.ofFault n.negate) := by
  by_cases hlow : n.word = 0x8000
  · obtain ⟨w⟩ := n
    subst hlow
    rfl
  · have hbytes : n.register ≠ ⟨0x00, 0x80⟩ := by
      intro h
      rw [eq_comm, eq_register_iff] at h
      exact hlow (h ▸ rfl)
    have hsum : (n.register.complement.plus ⟨1, 0⟩).1 = (⟨~~~n.word + 1⟩ : Integer).register := by
      rw [eq_register_iff, word_plus, word_complement, n.word_register]
      rfl
    rw [negate, run_get_bind, if_neg hbytes, Integer.negate, if_neg hlow]
    exact congrArg (Prod.mk (Except.ok ())) hsum

theorem isNegative_register : n.register.isNegative = n.isNegative := by
  rw [← isNegative_word, n.word_register]

theorem run_abs : abs.run n.register = n.leaves (.ofFault n.abs) := by
  rw [abs, run_get_bind, Integer.abs, isNegative_register]
  by_cases h : n.isNegative = true
  · rw [if_pos h, if_pos h]
    exact run_negate n
  · rw [if_neg h, if_neg h]
    rfl

/-- Testing before writing: where the test fails, nothing is written. -/
theorem run_set_unless (c : Prop) [Decidable c] :
    (do
      if c then overflow
      set m.register : InPlace Unit).run n.register =
      n.leaves (.ofFault (if c then .error (.ofCause .overflow) else .ok m)) := by
  by_cases h : c
  · rw [if_pos h, if_pos h]
    rfl
  · rw [if_neg h, if_neg h]
    rfl

theorem run_add : (add m.register).run n.register = n.leaves (.ofFault (n.add m)) := by
  have hsum : (n.register.plus m.register).1 = (⟨n.word + m.word⟩ : Integer).register := by
    rw [eq_register_iff, word_plus, n.word_register, m.word_register]
  simp only [add, run_get_bind, hsum, isNegative_register]
  exact run_set_unless n ⟨n.word + m.word⟩ _

theorem run_sub : (sub m.register).run n.register = n.leaves (.ofFault (n.sub m)) := by
  have hdifference : n.register.minus m.register = (⟨n.word - m.word⟩ : Integer).register := by
    rw [eq_register_iff, word_minus, n.word_register, m.word_register]
  simp only [sub, run_get_bind, hdifference, isNegative_register]
  exact run_set_unless n ⟨n.word - m.word⟩ _

theorem run_assign (k : Int) :
    (assign k).run n.register = n.leaves (.ofFault (Integer.ofInt .signed k)) := by
  rw [assign]
  rcases Integer.ofInt .signed k with f | m
  · rfl
  · rfl

theorem run_mul : (mul m.register).run n.register = n.leaves (.ofFault (n.mul m)) := by
  rw [mul, run_get_bind, n.word_register, m.word_register]
  exact run_assign n _

theorem run_divideBy (quotient : Int → Int → Int) :
    (divideBy quotient m.register).run n.register = n.leaves (n.divideBy quotient m) := by
  rw [divideBy, run_get_bind]
  simp only [n.word_register, m.word_register, isNegative_register]
  rw [Integer.divideBy, Integer.isZero_eq]
  by_cases h : m.toInt .signed = 0
  · rw [if_pos h, if_pos (by simpa using h)]
    rfl
  · rw [if_neg h, if_neg (by simpa using h)]
    exact run_assign n _

/-- **The bytes after work in place** are those of the word that the instruction makes, and of
the word it was given where it fails. -/
theorem run_inPlace (i : Instruction) : i.inPlace.run n.register = n.leaves (i.apply n) := by
  match i with
  | .negate => exact run_negate n
  | .abs => exact run_abs n
  | .not =>
    refine congrArg (Prod.mk (Except.ok ())) ((eq_register_iff _).mpr ?_)
    rw [word_complement, n.word_register]
  | .add m => exact run_add n m
  | .sub m => exact run_sub n m
  | .mul m => exact run_mul n m
  | .div m => exact run_divideBy n m Int.tdiv
  | .mod m => exact run_divideBy n m Int.tmod
  | .logical c m =>
    refine congrArg (Prod.mk (Except.ok ())) ((eq_register_iff _).mpr ?_)
    rw [word_onBytes, n.word_register, m.word_register]

theorem step_register (i : Instruction) :
    n.register.step i = ((n.step i).1.register, (n.step i).2) := by
  rw [step, run_inPlace, Integer.step]
  rcases i.apply n with e | m
  · rfl
  · rfl

end Register
end BasicNumerics
