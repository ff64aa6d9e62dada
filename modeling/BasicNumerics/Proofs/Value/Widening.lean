/-
Integers and the singles they widen to.

Sums, differences and products of integers are taken on words; where no word holds the exact
result, that result is converted to a single. The operands could as well have been converted
first. The two ways never differ: a word is the number that the singles come to, and a result
that left the words is the very single that they store. Sums and differences of words fit the
significand of a single, so there is nothing to round; products need up to thirty-one bits,
and on both ways they are rounded once, from the working width.
-/
import BasicNumerics.Proofs.Floating.WholeNumbers
import BasicNumerics.Proofs.Register.Refinement

set_option autoImplicit false

namespace BasicNumerics

namespace Value

/-- An operation of singles, on operands that are converted first. -/
def viaSingles (onSingles : Single → Single → Outcome Single Single) (l r : Value) :
    Outcome Single Single := do
  let x ← l.toSingle
  let y ← r.toSingle
  onSingles x y

/-- An operation that comes to the exact number `k` on two values agrees with an operation of
singles: it gives the word for `k`, where there is one, and the singles come to `k` too;
otherwise it gives the single that they store. -/
structure AgreesWithSingles (op : Value → Value → Calc)
    (onSingles : Single → Single → Outcome Single Single) (k : ℤ) (l r : Value) : Prop where
  word : -32768 ≤ k → k ≤ 32767 → ∃ (n : Integer) (z : Single),
    op l r = .ok (integer n) ∧ n.toInt .signed = k ∧ viaSingles onSingles l r = .ok z ∧ z.exact = k
  single : k < -32768 ∨ 32767 < k → ∃ z : Single,
    op l r = .ok (float .single z) ∧ viaSingles onSingles l r = .ok z

/-- **What has to be known of an operation:** the words tell when the exact result is out of
range, and the singles store that result as it is converted. -/
theorem agreesWithSingles_arithmetic {onWords : Integer → Integer → Except Fault Integer}
    {exact : ℤ → ℤ → ℤ}
    {onFloats : (p : Precision) → Floating p → Floating p → Outcome (Floating p) (Floating p)}
    {onStrings : String → String → Calc} {n m : Integer} {k : ℤ}
    (hexact : exact (n.toInt .signed) (m.toInt .signed) = k)
    (hwords : onWords n m = Integer.ofInt .signed k)
    (hfloats : onFloats .single (.ofInt (n.toInt .signed)) (.ofInt (m.toInt .signed))
      = .ok (.ofInt k)) :
    AgreesWithSingles (arithmetic onWords exact onFloats onStrings) (onFloats .single) k
      (integer n) (integer m) := by
  have hvia : viaSingles (onFloats .single) (integer n) (integer m) = .ok (.ofInt k) := hfloats
  have hop : arithmetic onWords exact onFloats onStrings (integer n) (integer m)
      = .ok (wordOr k (Integer.ofInt .signed k)) := by
    rw [← hwords, ← hexact]
    rfl
  refine ⟨?_, ?_⟩
  · intro hlo hhi
    have hword : Integer.ofInt .signed k = .ok ⟨BitVec.ofInt 16 k⟩ := by
      apply if_neg
      show ¬(k < -32768 ∨ 32767 < k)
      omega
    refine ⟨_, _, ?_, Integer.ofInt_signed_eq_ok_iff.mp hword, hvia, ?_⟩
    · rw [hop, hword]
      rfl
    · -- in the range of words the number fits the significand, and the single is exact
      have hbits : k.natAbs < 2 ^ 24 := by omega
      exact Floating.exact_ofInt hbits
  · intro hout
    refine ⟨_, ?_, hvia⟩
    rw [hop, Integer.ofInt_signed_eq_error hout]
    rfl

/-- A product of words has thirty-one bits at most. -/
theorem natAbs_mul_lt (n m : Integer) : (n.toInt .signed * m.toInt .signed).natAbs < 2 ^ 32 := by
  have hn := n.toInt_bounds
  have hm := m.toInt_bounds
  calc (n.toInt .signed * m.toInt .signed).natAbs
      = (n.toInt .signed).natAbs * (m.toInt .signed).natAbs := Int.natAbs_mul _ _
    _ ≤ 32768 * 32768 := Nat.mul_le_mul (by omega) (by omega)
    _ < 2 ^ 32 := by norm_num

/-- **Words and singles agree.** For any two integers, sum, difference and product give the
integer with the exact value where there is one, and singles come to the same value; otherwise
they give, bit for bit, what the same operation stores on the operands converted to single.
None of them fails. -/
theorem integers_agree_with_singles (n m : Integer) :
    AgreesWithSingles sum Floating.add (n.toInt .signed + m.toInt .signed)
        (integer n) (integer m) ∧
      AgreesWithSingles subtract Floating.sub (n.toInt .signed - m.toInt .signed)
        (integer n) (integer m) ∧
      AgreesWithSingles multiply Floating.mul (n.toInt .signed * m.toInt .signed)
        (integer n) (integer m) := by
  have hn := n.toInt_bounds
  have hm := m.toInt_bounds
  have hbits : 2 ^ Precision.single.manBits = 2 ^ 24 := rfl
  refine ⟨?_, ?_, ?_⟩
  · exact agreesWithSingles_arithmetic rfl (n.add_eq_ofInt m)
      (Floating.add_ofInt (by omega) (by omega) (by omega))
  · exact agreesWithSingles_arithmetic rfl (n.sub_eq_ofInt m)
      (Floating.sub_ofInt (by omega) (by omega) (by omega))
  · exact agreesWithSingles_arithmetic rfl rfl
      (Floating.mul_ofInt (by omega) (by omega) (natAbs_mul_lt n m))

end Value

end BasicNumerics
