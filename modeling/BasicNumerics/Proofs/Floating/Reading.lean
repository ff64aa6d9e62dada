/-
How close the digits that are read off are to the value, and that they keep its order.

Of the scaling steps that a value in range can take, none drifts by more than a share of
`2^-31` for singles and `2^-63` for doubles. The least singles take at most fifty steps, and
over these the drift at seven digits stays below a quarter of a unit of the last digit; with
the half unit that rounding adds, less than three quarters of a unit are lost
(`toDecimal_accurate`). For some values more than half a unit is.

Still the digits never invert the order of two values, whatever their signs
(`toDecimal_mono`). Scaling keeps the order, rounding to a whole number does, and where the
powers of ten differ the limits are between the two values.
-/
import BasicNumerics.Proofs.Floating.Digits
import BasicNumerics.Proofs.Floating.ScalingRuns
import Mathlib.Algebra.Order.Ring.Pow

set_option autoImplicit false

namespace BasicNumerics

open Rounding

/-! ## The drift of a whole run -/

namespace Precision

/-- The steps that scaling a value in range can take, at most. -/
def scalingSteps : Precision → ℕ
  | .single => 50
  | .double => 60

/-- The highest lower limit is within reach of the least exponent. -/
theorem ten_pow_lt_scalingSteps {p : Precision} {t : ℕ} (ht : t + 1 ≤ p.digits) :
    10 ^ t < 2 ^ (3 * p.scalingSteps - 130) := by
  have hle : 10 ^ t ≤ 10 ^ (p.digits - 1) := Nat.pow_le_pow_right (by norm_num) (by omega)
  refine hle.trans_lt ?_
  cases p <;> decide

/-- So many steps lose less than a quarter of a unit of the last digit. -/
theorem drift_scalingSteps_lt (p : Precision) :
    ((1 + p.unitShare) ^ p.scalingSteps - 1) * (10 ^ p.digits + 1 / 2) < 1 / 4 := by
  cases p <;> norm_num [unitShare, scalingSteps, width, manBits, digits]

end Precision

/-- **The drift of a run** is less than a quarter of a unit. -/
theorem Drift.abs_sub_lt {p : Precision} {n : ℕ} {a b : ℚ} (h : Drift p n a b)
    (hn : n ≤ p.scalingSteps) (ha : 0 ≤ a) (hle : a ≤ 10 ^ p.digits + 1 / 2) :
    |a - b| < 1 / 4 := by
  obtain ⟨hpos, -⟩ := p.unitShare_mem
  have hnonneg : 0 ≤ (1 + p.unitShare) ^ p.scalingSteps - 1 :=
    sub_nonneg.mpr (one_le_pow₀ (by linarith))
  calc |a - b| ≤ ((1 + p.unitShare) ^ p.scalingSteps - 1) * a := h.abs_sub_le ha hn
    _ ≤ ((1 + p.unitShare) ^ p.scalingSteps - 1) * (10 ^ p.digits + 1 / 2) :=
        mul_le_mul_of_nonneg_left hle hnonneg
    _ < 1 / 4 := p.drift_scalingSteps_lt

theorem Scratch.nearestNat_mono {p : Precision} {d e : Scratch p}
    (h : d.magnitude ≤ e.magnitude) : d.nearestNat ≤ e.nearestNat := by
  have hd := d.nearestNat_bounds.1
  have he := e.nearestNat_bounds.2
  have hlt : (d.nearestNat : ℚ) < e.nearestNat + 1 := by linarith
  have hlt' : d.nearestNat < e.nearestNat + 1 := by exact_mod_cast hlt
  omega

namespace Floating

open Scratch

variable {p : Precision} {x y : Floating p} {t : ℕ}

/-! ## One value -/

/-- The limits for so many digits are ten apart. -/
theorem magnitude_ten_pow_succ (ht : t + 1 ≤ p.digits) :
    (ofInt (10 ^ (t + 1) : ℕ) : Floating p).unpack.magnitude
      = 10 * (ofInt (10 ^ t : ℕ) : Floating p).unpack.magnitude := by
  have hlow := (unpack_ofInt_ten_pow
    (Precision.ten_pow_lt_of_le_digits (p := p) (t := t) (by omega))).1
  have hhigh := (unpack_ofInt_ten_pow (Precision.ten_pow_lt_of_le_digits (p := p) ht)).1
  rw [hlow, hhigh, pow_succ, mul_comm]

theorem scaled_scaledOnce (hx : x.isZero = false) (ht : t + 1 ≤ p.digits) :
    ScaledOnce (ofInt (10 ^ t : ℕ) : Floating p).unpack
      (ofInt (10 ^ (t + 1) : ℕ) : Floating p).unpack { x.unpack with neg := false }
      (x.scaled t) :=
  scaleBetween_scaledOnce (unpack_aligned _) (unpack_aligned _) (magnitude_ten_pow_succ ht)
    x.unsigned_aligned (exponent_mem hx).1

/-- **The scaled value has hardly drifted.** -/
theorem abs_scaled_sub_lt (hx : x.isZero = false) (ht : t + 1 ≤ p.digits) :
    |(x.scaled t).1.magnitude - x.unpack.magnitude * 10 ^ (-(x.scaled t).2)| < 1 / 4 := by
  obtain ⟨steps, hbetween⟩ := exists_scaledBetween hx ht
  obtain ⟨hlo, hhi⟩ := exponent_mem hx
  obtain ⟨n, hdrift, hsteps⟩ :=
    (scaled_scaledOnce hx ht).exists_drift x.unsigned_aligned hlo
  have hn : n ≤ p.scalingSteps := by
    have h0 : 10 ^ t ≠ 0 := (Nat.pow_pos (by norm_num)).ne'
    have hfit : 10 ^ t < 2 ^ p.manBits := Precision.ten_pow_lt_of_le_digits (by omega)
    have hlowexp : (ofInt (10 ^ t : ℕ) : Floating p).unpack.exp = 128 + bitLength (10 ^ t) := by
      rw [unpack_ofInt h0 hfit, exp_align_ofInt h0]
    have hbits := bitLength_le (Precision.ten_pow_lt_scalingSteps ht)
    have hhighexp := (unpack_ofInt_ten_pow (Precision.ten_pow_lt_of_le_digits (p := p) ht)).2.1
    have hmost : 50 ≤ p.scalingSteps := by cases p <;> decide
    simp only at hsteps
    omega
  have hle : (x.scaled t).1.magnitude ≤ 10 ^ p.digits + 1 / 2 := by
    have hpow : (10 : ℚ) ^ (t + 1) ≤ 10 ^ p.digits := pow_le_pow_right₀ (by norm_num) ht
    have hlimit := Precision.stepRatio_mul_ten_pow_lt ht
    have hmag := hbetween.magnitude_le
    linarith
  exact hdrift.abs_sub_lt hn ((by positivity : (0 : ℚ) ≤ 10 ^ t).trans hbetween.le_magnitude) hle

/-- **The nearest whole number, moved back,** is off by less than three quarters of a unit. -/
theorem abs_nearestNat_scaled_sub_lt (hx : x.isZero = false) (ht : t + 1 ≤ p.digits) :
    |x.unpack.magnitude - (x.scaled t).1.nearestNat * 10 ^ (x.scaled t).2|
      < 3 / 4 * 10 ^ (x.scaled t).2 := by
  have hpos : (0 : ℚ) < 10 ^ (x.scaled t).2 := by positivity
  have hdrift := abs_lt.mp (abs_scaled_sub_lt hx ht)
  obtain ⟨hup, hdown⟩ := (x.scaled t).1.nearestNat_bounds
  have hback : x.unpack.magnitude
      = x.unpack.magnitude * 10 ^ (-(x.scaled t).2) * 10 ^ (x.scaled t).2 := by
    rw [mul_assoc, ← zpow_add₀ (by norm_num), neg_add_cancel, zpow_zero, mul_one]
  rw [hback, ← sub_mul, abs_mul, abs_of_pos hpos, mul_lt_mul_iff_left₀ hpos, abs_lt]
  constructor <;> linarith

/-- **Digits are accurate.** A nonzero value is read off with exactly as many digits as are asked
for, inside what its precision shows, with its own sign, and by less than three quarters of a
unit of the last digit off. -/
theorem toDecimal_accurate (digits : Option ℕ) (hx : x.isZero = false) :
    let d := x.toDecimal digits
    10 ^ (digitCount p digits - 1) ≤ d.mantissa.natAbs ∧
    d.mantissa.natAbs < 10 ^ digitCount p digits ∧
    d.mantissa.sign = x.sign ∧
    |(|x.exact| - d.mantissa.natAbs * 10 ^ d.exponent)| < 3 / 4 * 10 ^ d.exponent := by
  obtain ⟨t, hcount, ht⟩ := exists_digitCount p digits
  obtain ⟨n, r, hdigits⟩ := exists_hasDigits hx ht
  have hpos : 0 < n := (Nat.pow_pos (by norm_num)).trans_le hdigits.le_digits
  have hsign : (if x.neg then -(n : ℤ) else n).sign = x.sign ∧
      (if x.neg then -(n : ℤ) else n).natAbs = n := by
    have hone : (n : ℤ).sign = 1 := Int.sign_eq_one_of_pos (by exact_mod_cast hpos)
    by_cases hneg : x.neg = true <;> simp [sign, hx, hneg, hone]
  rw [toDecimal_of_digitCount hcount ht, hdigits.toDecimal_eq, hcount, Nat.add_sub_cancel]
  refine ⟨?_, ?_, hsign.1, ?_⟩
  · rw [hsign.2]
    exact hdigits.le_digits
  · rw [hsign.2]
    exact hdigits.digits_lt
  · have hpow : (10 : ℚ) ^ (x.scaled t).2 ≤ 10 ^ r := by
      have hmem := hdigits.power_mem
      exact zpow_le_zpow_right₀ (by norm_num) (by omega)
    have hnear := abs_nearestNat_scaled_sub_lt hx ht
    rw [hsign.2, abs_exact hx, hdigits.worth_eq]
    linarith

/-- Forty-five steps up from near the least single: more than half a unit is lost. -/
theorem toDecimal_accurate_past_half :
    let x : Single := ofWord 0x025932AE
    x.isZero = false ∧ x.toDecimal none = ⟨9973241, -45⟩ ∧
      1 / 2 * 10 ^ (-45 : ℤ) < |(|x.exact| - 9973241 * 10 ^ (-45 : ℤ))| ∧
      |(|x.exact| - 9973241 * 10 ^ (-45 : ℤ))| < 3 / 4 * 10 ^ (-45 : ℤ) := by
  intro x
  have hread : x.toDecimal none = ⟨9973241, -45⟩ := by decide +kernel
  have hx : x.exact = 0xD932AE / 2 ^ 150 := by
    norm_num [x, exact, isZero, ofWord, significand, Precision.manBits]
  obtain ⟨-, -, -, hnear⟩ := toDecimal_accurate (x := x) none rfl
  rw [hread] at hnear
  refine ⟨rfl, hread, ?_, hnear⟩
  rw [hx]
  norm_num

/-! ## Two values -/

/-- **Digits of magnitudes keep the order.** -/
theorem scaled_worth_mono (hx : x.isZero = false) (hy : y.isZero = false) (ht : t + 1 ≤ p.digits)
    (h : x.unpack.magnitude ≤ y.unpack.magnitude) :
    ((x.scaled t).1.nearestNat : ℚ) * 10 ^ (x.scaled t).2
      ≤ (y.scaled t).1.nearestNat * 10 ^ (y.scaled t).2 := by
  obtain ⟨m, hm⟩ := exists_scaledBetween hx ht
  obtain ⟨n, hn⟩ := exists_scaledBetween hy ht
  rcases (scaled_scaledOnce hx ht).mono (unpack_aligned _) (unpack_aligned _) x.unsigned_aligned
      y.unsigned_aligned (exponent_mem hx).1 (exponent_mem hy).1 (scaled_scaledOnce hy ht) h
    with hlt | ⟨heq, hle⟩
  · -- the most of the lower power is the least of the next one
    have hmost : ((x.scaled t).1.nearestNat : ℚ) ≤ 10 ^ (t + 1) := by
      exact_mod_cast (hm.nearestNat_mem ht).2
    have hleast : (10 : ℚ) ^ t ≤ (y.scaled t).1.nearestNat := by
      exact_mod_cast (hn.nearestNat_mem ht).1
    have hpow : (10 : ℚ) ^ ((x.scaled t).2 + 1) ≤ 10 ^ (y.scaled t).2 :=
      zpow_le_zpow_right₀ (by norm_num) hlt
    calc ((x.scaled t).1.nearestNat : ℚ) * 10 ^ (x.scaled t).2
        ≤ 10 ^ (t + 1) * 10 ^ (x.scaled t).2 := mul_le_mul_of_nonneg_right hmost (by positivity)
      _ = 10 ^ t * 10 ^ ((x.scaled t).2 + 1) := by
          rw [zpow_add₀ (by norm_num), zpow_one]
          ring
      _ ≤ (y.scaled t).1.nearestNat * 10 ^ (y.scaled t).2 :=
          mul_le_mul hleast hpow (by positivity) (by positivity)
  · rw [heq]
    exact mul_le_mul_of_nonneg_right (by exact_mod_cast nearestNat_mono hle) (by positivity)

/-- What is read off is the sign times what the scaled value is worth, also for zero. -/
theorem value_toDecimal (x : Floating p) (ht : t + 1 ≤ p.digits) :
    (x.toDecimal (some (t + 1))).value
      = x.sign * ((x.scaled t).1.nearestNat * 10 ^ (x.scaled t).2) := by
  by_cases hx : x.isZero = true
  · rw [toDecimal, sign, if_pos hx, if_pos hx]
    simp [Decimal.value]
  · obtain ⟨n, r, hdigits⟩ := exists_hasDigits (by simpa using hx) ht
    rw [hdigits.toDecimal_eq, Decimal.value, ← hdigits.worth_eq, sign, if_neg hx]
    cases x.neg <;> simp

/-- What keeps the order of magnitudes keeps the order of values once it takes their signs. -/
theorem sign_mul_mono {f : Floating p → ℚ} (hf : ∀ z, 0 ≤ f z)
    (hmono : ∀ {z w : Floating p}, z.isZero = false → w.isZero = false →
      z.unpack.magnitude ≤ w.unpack.magnitude → f z ≤ f w)
    (h : x.exact ≤ y.exact) : x.sign * f x ≤ y.sign * f y := by
  have hfx := hf x
  have hfy := hf y
  rcases lt_trichotomy x.sign y.sign with hlt | heq | hgt
  · rcases x.sign_mem with hx | hx | hx <;> rcases y.sign_mem with hy | hy | hy <;>
      rw [hx, hy] at hlt ⊢ <;> first | omega | (push_cast; linarith)
  · have hnonzero : ∀ z : Floating p, z.sign ≠ 0 → z.isZero = false := by
      intro z hz
      simpa [sign_eq_zero_iff] using hz
    rw [exact_eq, exact_eq, heq] at h
    rw [heq]
    rcases y.sign_mem with hs | hs | hs
    · -- below zero the larger magnitude is the smaller value
      rw [hs] at h ⊢
      push_cast at h ⊢
      have hle := hmono (hnonzero y (by omega)) (hnonzero x (by omega)) (by linarith)
      linarith
    · simp [hs]
    · rw [hs] at h ⊢
      push_cast at h ⊢
      have hle := hmono (hnonzero x (by omega)) (hnonzero y (by omega)) (by linarith)
      linarith
  · exact absurd (exact_lt_of_sign_lt hgt) (not_lt.mpr h)

/-- **Digits never invert an order:** of two values the one that is not larger is not read off as
larger, at any count of digits and whatever the signs. -/
theorem toDecimal_mono (digits : Option ℕ) (h : x.exact ≤ y.exact) :
    (x.toDecimal digits).value ≤ (y.toDecimal digits).value := by
  obtain ⟨t, hcount, ht⟩ := exists_digitCount p digits
  rw [toDecimal_of_digitCount hcount ht, toDecimal_of_digitCount hcount ht, value_toDecimal x ht,
    value_toDecimal y ht]
  apply sign_mul_mono (f := fun z => (z.scaled t).1.nearestNat * 10 ^ (z.scaled t).2) ?_ ?_ h
  · intro z
    positivity
  · intro z w hz hw hle
    exact scaled_worth_mono hz hw ht hle

/-- Thousand, taken once to a tenth, and the single before it, not scaled at all: at three digits
both are read off as `100 · 10`, the second by its carry. -/
theorem toDecimal_mono_meeting :
    let x : Single := ofWord 0x8AFA0000
    let y : Single := ofWord 0x8AF9FFFF
    x.exact < y.exact ∧ x.toDecimal (some 3) = ⟨-100, 1⟩ ∧ y.toDecimal (some 3) = ⟨-100, 1⟩ ∧
      (x.toDecimal (some 3)).value ≤ (y.toDecimal (some 3)).value := by
  intro x y
  have hlt : x.exact < y.exact := by
    rw [← gt_iff_exact_lt]
    decide +kernel
  exact ⟨hlt, by decide +kernel, by decide +kernel, toDecimal_mono (some 3) hlt.le⟩

end Floating

end BasicNumerics
