/-
The digits that are read off a value, and the decimals that can be stored.

Reading off a nonzero value always gives as many digits as are asked for (`HasDigits`): a
carry past the upper limit makes the next power of ten exactly, and the digit too many is
dropped again. What is read off at the digits of the precision may be above the value, by
the drift of the scaling and by half a unit of the last digit (`ReadOff`).

On the way back a decimal overflows only past `2^127`. The largest number of so many
digits below `2^127` is far enough below it that no drift reaches the limit, so every
decimal up to that number can be stored (`exists_ofDecimal_eq_ok`). Whether what is read
off stays at or below that number is a matter of rounding: for doubles it always does,
for singles it does not at the three largest magnitudes.
-/
import BasicNumerics.Proofs.Floating.Exact
import BasicNumerics.Proofs.Floating.RoundTrip

set_option autoImplicit false

namespace BasicNumerics

open Rounding

namespace Precision

theorem ten_pow_digits_lt (p : Precision) : 10 ^ p.digits < 2 ^ p.manBits := by
  cases p <;> decide

theorem ten_pow_lt_of_le_digits {p : Precision} {t : ℕ} (ht : t ≤ p.digits) :
    10 ^ t < 2 ^ p.manBits :=
  (Nat.pow_le_pow_right (by norm_num) ht).trans_lt p.ten_pow_digits_lt

theorem digits_pos (p : Precision) : 0 < p.digits := by
  cases p <;> decide

theorem digits_le (p : Precision) : p.digits ≤ 16 := by
  cases p <;> decide

/-- One step past the upper limit is less than half a unit past it. -/
theorem stepRatio_mul_ten_pow_lt {p : Precision} {d : ℕ} (hd : d ≤ p.digits) :
    p.stepRatio * 10 ^ d < 10 ^ d + 1 / 2 := by
  have hle : (10 : ℚ) ^ d ≤ 10 ^ p.digits := pow_le_pow_right₀ (by norm_num) hd
  have hmost : (p.stepRatio - 1) * 10 ^ p.digits < 1 / 2 := by
    cases p <;> norm_num [stepRatio, width, manBits, digits]
  have := mul_le_mul_of_nonneg_left hle (sub_nonneg.mpr p.one_le_stepRatio)
  linarith

/-- The largest number that the digits of the precision make below `2^127`, in units of
`10^(39 - digits)`. -/
def topDigits (p : Precision) : ℕ := 2 ^ 127 / 10 ^ (39 - p.digits)

end Precision

/-- The number that a decimal stands for. -/
def Decimal.value (d : Decimal) : ℚ := d.mantissa * 10 ^ d.exponent

theorem Decimal.abs_value (d : Decimal) : |d.value| = d.mantissa.natAbs * 10 ^ d.exponent := by
  rw [value, abs_mul, abs_of_pos (by positivity : (0 : ℚ) < 10 ^ d.exponent), ← Int.cast_abs,
    Int.abs_eq_natAbs, Int.cast_natCast]

/-! ## Reading off -/

namespace Scratch.ScaledBetween

variable {p : Precision} {t steps : ℕ} {d : Scratch p} {r : Scratch p × ℤ}

/-- A value between the limits has its nearest whole number between them. -/
theorem nearestNat_mem (h : ScaledBetween t steps d r) (ht : t + 1 ≤ p.digits) :
    10 ^ t ≤ r.1.nearestNat ∧ r.1.nearestNat ≤ 10 ^ (t + 1) := by
  obtain ⟨hup, hdown⟩ := r.1.nearestNat_bounds
  have hlow := h.le_magnitude
  have hhigh := h.magnitude_le
  have hlimit := Precision.stepRatio_mul_ten_pow_lt ht
  have h1 : (10 : ℚ) ^ t < r.1.nearestNat + 1 := by linarith
  have h2 : (r.1.nearestNat : ℚ) < 10 ^ (t + 1) + 1 := by linarith
  have h3 : 10 ^ t < r.1.nearestNat + 1 := by exact_mod_cast h1
  have h4 : r.1.nearestNat < 10 ^ (t + 1) + 1 := by exact_mod_cast h2
  omega

/-- The nearest whole number, moved back, is above the value by no more than the drift
and half of a unit. -/
theorem nearestNat_worth_le (h : ScaledBetween t steps d r) (hd : d.Aligned) {k : ℕ}
    (hk : steps ≤ k) :
    (r.1.nearestNat : ℚ) * 10 ^ r.2 ≤ p.stepRatio ^ k * d.magnitude + 10 ^ r.2 / 2 := by
  have hpos : (0 : ℚ) < 10 ^ r.2 := by positivity
  have hback : (10 : ℚ) ^ r.2 * (d.magnitude * 10 ^ (-r.2)) = d.magnitude := by
    rw [mul_left_comm, ← zpow_add₀ (by norm_num), add_neg_cancel, zpow_zero, mul_one]
  have hnear := (h.near.mul_left hpos.le).left
  rw [hback] at hnear
  have hpow : p.stepRatio ^ steps * d.magnitude ≤ p.stepRatio ^ k * d.magnitude :=
    mul_le_mul_of_nonneg_right (pow_le_pow_right₀ p.one_le_stepRatio hk) hd.magnitude_pos.le
  have hround := mul_le_mul_of_nonneg_right r.1.nearestNat_bounds.1 hpos.le
  linarith

end Scratch.ScaledBetween

namespace Floating

open Scratch

variable {p : Precision} {x : Floating p}

theorem exponent_mem (hx : x.isZero = false) : 0 < x.unpack.exp ∧ x.unpack.exp ≤ 255 := by
  have h1 := x.exponent_lt
  have h2 : x.exponent ≠ 0 := by simpa [isZero] using hx
  show 0 < (x.exponent : ℤ) ∧ (x.exponent : ℤ) ≤ 255
  omega

/-- The value without its sign, between the limits for `t + 1` digits. -/
def scaled (x : Floating p) (t : ℕ) : Scratch p × ℤ :=
  scaleBetween (ofInt (10 ^ t : ℕ) : Floating p).unpack
    (ofInt (10 ^ (t + 1) : ℕ) : Floating p).unpack { x.unpack with neg := false }

theorem unsigned_aligned (x : Floating p) :
    ({ x.unpack with neg := false } : Scratch p).Aligned :=
  ⟨(unpack_aligned x).le_man, (unpack_aligned x).man_lt⟩

theorem exists_scaledBetween {t : ℕ} (hx : x.isZero = false) (ht : t + 1 ≤ p.digits) :
    ∃ steps, ScaledBetween t steps { x.unpack with neg := false } (x.scaled t) := by
  obtain ⟨hlo, hhi⟩ := exponent_mem hx
  exact scaleBetween_scaled (Precision.ten_pow_lt_of_le_digits ht) x.unsigned_aligned hlo hhi

/-- What reading off `t + 1` digits gives: the scaled value to the nearest whole number, or the
same number one power of ten higher. -/
structure HasDigits (x : Floating p) (t n : ℕ) (r : ℤ) : Prop where
  toDecimal_eq : x.toDecimal (some (t + 1)) = ⟨if x.neg then -(n : ℤ) else n, r⟩
  le_digits : 10 ^ t ≤ n
  digits_lt : n < 10 ^ (t + 1)
  power_mem : r = (x.scaled t).2 ∨ r = (x.scaled t).2 + 1
  worth_eq : (n : ℚ) * 10 ^ r = (x.scaled t).1.nearestNat * 10 ^ (x.scaled t).2

/-- **Every nonzero value has the digits that are asked for.** -/
theorem exists_hasDigits {t : ℕ} (hx : x.isZero = false) (ht : t + 1 ≤ p.digits) :
    ∃ n r, x.HasDigits t n r := by
  obtain ⟨steps, hr⟩ := exists_scaledBetween hx ht
  obtain ⟨hlow, hhigh⟩ := hr.nearestNat_mem ht
  have heq := toDecimal_eq hx ht
  dsimp only at heq
  rw [← scaled] at heq
  by_cases hcarry : 10 ^ (t + 1) ≤ (x.scaled t).1.nearestNat
  · -- one digit too many, and all but the first are zero
    have hn : (x.scaled t).1.nearestNat = 10 ^ (t + 1) := le_antisymm hhigh hcarry
    have hdiv : 10 ^ (t + 1) / 10 = 10 ^ t := by
      rw [Nat.pow_succ, Nat.mul_div_cancel _ (by norm_num)]
    rw [if_pos hcarry, hn, hdiv] at heq
    refine ⟨10 ^ t, (x.scaled t).2 + 1, ⟨heq, le_rfl, ?_, Or.inr rfl, ?_⟩⟩
    · exact Nat.pow_lt_pow_right (by norm_num) (Nat.lt_succ_self t)
    · rw [hn, zpow_add₀ (by norm_num), zpow_one]
      push_cast
      ring
  · rw [if_neg hcarry] at heq
    exact ⟨_, _, ⟨heq, hlow, not_le.mp hcarry, Or.inl rfl, rfl⟩⟩

theorem exists_digitCount (p : Precision) (digits : Option ℕ) :
    ∃ t, digitCount p digits = t + 1 ∧ t + 1 ≤ p.digits := by
  have hpos := p.digits_pos
  have hlo : 1 ≤ digitCount p digits := Nat.le_max_left _ _
  have hhi : digitCount p digits ≤ p.digits := Nat.max_le.mpr ⟨hpos, Nat.min_le_right _ _⟩
  exact ⟨digitCount p digits - 1, by omega, by omega⟩

/-- Only the count of digits matters. -/
theorem toDecimal_of_digitCount {t : ℕ} {digits : Option ℕ} (h : digitCount p digits = t + 1)
    (ht : t + 1 ≤ p.digits) (x : Floating p) : x.toDecimal digits = x.toDecimal (some (t + 1)) := by
  rw [toDecimal, toDecimal, h, digitCount_some ht]

/-- What reading off the digits of a precision gives: `n · 10^r`, with all its digits,
above the value by no more than the drift and half of the last digit. -/
structure ReadOff (x : Floating p) (n : ℕ) (r : ℤ) : Prop where
  toDecimal_eq : x.toDecimal none = ⟨if x.neg then -(n : ℤ) else n, r⟩
  le_digits : 10 ^ (p.digits - 1) ≤ n
  digits_lt : n < 10 ^ p.digits
  power_le : r.natAbs ≤ 106
  worth_le : (n : ℚ) * 10 ^ r ≤ p.stepRatio ^ (r.natAbs + 5) * x.unpack.magnitude + 10 ^ r / 2

/-- **Every nonzero value is read off with all the digits of its precision.** -/
theorem exists_readOff (hx : x.isZero = false) : ∃ n r, x.ReadOff n r := by
  obtain ⟨t, ht⟩ : ∃ t, p.digits = t + 1 := ⟨p.digits - 1, by have := p.digits_pos; omega⟩
  have hcount : digitCount p none = t + 1 := by
    cases p <;> exact ht
  obtain ⟨steps, hr⟩ := exists_scaledBetween hx ht.ge
  obtain ⟨n, r, hdigits⟩ := exists_hasDigits hx ht.ge
  have hsteps := hr.steps_le
  have hsteps' := hr.steps_le_power
  have hpower := hr.power_le
  have hmem := hdigits.power_mem
  refine ⟨n, r, ⟨?_, ?_, ?_, by omega, ?_⟩⟩
  · rw [toDecimal_of_digitCount hcount ht.ge, hdigits.toDecimal_eq]
  · rw [ht, Nat.add_sub_cancel]
    exact hdigits.le_digits
  · rw [ht]
    exact hdigits.digits_lt
  · -- at a higher power half of a unit is more
    have hworth := hr.nearestNat_worth_le x.unsigned_aligned (k := r.natAbs + 5) (by omega)
    have hpow : (10 : ℚ) ^ (x.scaled t).2 ≤ 10 ^ r :=
      zpow_le_zpow_right₀ (by norm_num) (by omega)
    rw [hdigits.worth_eq]
    refine hworth.trans (add_le_add le_rfl ?_)
    linarith

end Floating

/-! ## Decimals that can be stored -/

namespace Scratch

variable {p : Precision} {d : Scratch p}

/-- **A value that is too large to store** is `2^127`, up to half of the last place. -/
theorem le_magnitude_of_overflows (ha : d.Aligned) (h : d.overflows = true) :
    2 ^ 127 ≤ (1 + 1 / 2 ^ p.manBits) * d.magnitude := by
  simp only [overflows, ha.align_eq, Bool.and_eq_true, decide_eq_true_eq] at h
  -- what would be stored is a full significand at the exponent past the largest
  have hstored : (2 : ℚ) ^ 127 ≤ (d.round.1 : ℚ) * 256 * 2 ^ (d.round.2 - unitExp p) := by
    have hman : ((2 ^ (p.manBits - 1) : ℕ) : ℚ) ≤ d.round.1 := by
      exact_mod_cast (round_fst_mem ha).1
    have hexp : (2 : ℚ) ^ (256 - unitExp p) ≤ 2 ^ (d.round.2 - unitExp p) :=
      zpow_le_zpow_right₀ (by norm_num) (by omega)
    have hunit : ((2 ^ (p.manBits - 1) : ℕ) : ℚ) * 256 * 2 ^ (256 - unitExp p) = 2 ^ 127 := by
      cases p <;> norm_num [unitExp, Precision.bias, Precision.manBits]
    refine hunit.ge.trans ?_
    exact mul_le_mul (mul_le_mul_of_nonneg_right hman (by norm_num)) hexp (by positivity)
      (by positivity)
  have hround := (abs_le.mp (abs_round_sub_le d)).2
  -- and half of the last place is a small share of the value
  have hhalf : 128 * d.unit ≤ 1 / 2 ^ p.manBits * d.magnitude := by
    have hlo := ha.le_magnitude
    have hw : (2 : ℚ) ^ (p.width - 1) = 128 * 2 ^ p.manBits := by
      cases p <;> norm_num [Precision.width, Precision.manBits]
    rw [hw] at hlo
    rw [one_div, ← div_eq_inv_mul, le_div_iff₀ (by positivity)]
    linarith
  linarith

theorem pack_of_not_overflows (h : d.overflows = false) : d.pack = .ok d.saturate := by
  rw [pack, if_neg (by simp [h])]

/-- A value whose exponent is well inside its byte does not overflow. -/
theorem not_overflows_of_exp_lt (ha : d.Aligned) (h : d.exp < 255) : d.overflows = false := by
  have hround := d.round_snd_mem
  rw [overflows, ha.align_eq, Bool.and_eq_false_iff]
  right
  rw [decide_eq_false_iff_not]
  omega

/-- **Scaling up drifts up by a step at a time,** also where it stops early. -/
theorem magnitude_timesTen_le (n : ℕ) : ∀ {d : Scratch p}, d.Aligned → 0 < d.exp →
    (timesTen n d).magnitude ≤ p.stepRatio ^ n * (10 ^ n * d.magnitude) := by
  induction n with
  | zero =>
    intro d _ _
    simp [timesTen]
  | succ n ih =>
    intro d h hexp
    obtain ⟨ha, hlo, -, -⟩ := tenfold_spec h hexp
    have hstep := (near_tenfold h hexp).left
    rw [pow_one] at hstep
    have hpos : 0 ≤ p.stepRatio ^ n := pow_nonneg (zero_le_one.trans p.one_le_stepRatio) n
    have hall : p.stepRatio ^ n * (10 ^ n * d.tenfold.magnitude)
        ≤ p.stepRatio ^ (n + 1) * (10 ^ (n + 1) * d.magnitude) := by
      calc p.stepRatio ^ n * (10 ^ n * d.tenfold.magnitude)
          ≤ p.stepRatio ^ n * (10 ^ n * (p.stepRatio * (10 * d.magnitude))) :=
            mul_le_mul_of_nonneg_left (mul_le_mul_of_nonneg_left hstep (by positivity)) hpos
        _ = p.stepRatio ^ (n + 1) * (10 ^ (n + 1) * d.magnitude) := by ring
    rw [timesTen]
    by_cases hstop : 0x1ff < d.tenfold.exp
    · rw [if_pos hstop]
      refine le_trans ?_ hall
      have h1 : (1 : ℚ) ≤ p.stepRatio ^ n * 10 ^ n :=
        one_le_mul_of_one_le_of_one_le (one_le_pow₀ p.one_le_stepRatio)
          (one_le_pow₀ (by norm_num))
      rw [← mul_assoc]
      exact le_mul_of_one_le_left ha.magnitude_pos.le h1
    · rw [if_neg hstop]
      exact (ih ha (by omega)).trans hall

end Scratch

/-- The drift of the 38 steps that a power of ten in range can take, and of storing, does
not reach from the largest number of so many digits to `2^127`. -/
theorem Precision.topDigits_lt (p : Precision) :
    (1 + 1 / 2 ^ p.manBits) * (p.stepRatio ^ 38 * (p.topDigits * 10 ^ (39 - p.digits)))
      < (2 : ℚ) ^ 127 := by
  cases p <;> norm_num [topDigits, stepRatio, width, manBits, digits]

namespace Floating

open Scratch

variable {p : Precision} {x : Floating p}

/-- **A decimal in range is stored.** -/
theorem exists_ofDecimal_eq_ok {m : ℕ} {e : ℤ} (hm : m < 2 ^ p.manBits)
    (h : (m : ℚ) * 10 ^ e ≤ p.topDigits * 10 ^ (39 - p.digits)) :
    ∃ y : Floating p, ofDecimal ⟨m, e⟩ = .ok y := by
  by_cases h0 : m = 0
  · exact ⟨zero, by rw [ofDecimal, if_pos (by simpa using h0)]⟩
  suffices hpack : (overTen (-e).toNat (timesTen e.toNat (Scratch.ofInt p m).align)).overflows
      = false by
    have hok := pack_of_not_overflows hpack
    rw [ofDecimal, if_neg (by simpa using h0)]
    exact ⟨_, hok⟩
  set start := (Scratch.ofInt p m).align
  have ha : start.Aligned := align_aligned (by rw [man_ofInt]; exact h0)
  have hexp : start.exp = 128 + bitLength m := exp_align_ofInt h0
  have hbits : bitLength m ≤ 56 := (bitLength_le hm).trans (by cases p <;> decide)
  -- one of the two runs is empty, by the sign of the exponent
  rcases le_or_gt 0 e with he | he
  · obtain ⟨n, rfl⟩ : ∃ n : ℕ, e = n := ⟨e.toNat, by omega⟩
    have hdown : (-(n : ℤ)).toNat = 0 := by omega
    rw [hdown, overTen, Int.toNat_natCast]
    rw [zpow_natCast] at h
    have hmag : start.magnitude = m := by
      rw [← magnitude_unpack_ofInt (p := p) h0 hm, unpack_ofInt h0 hm]
    have hone : (1 : ℚ) ≤ m := by exact_mod_cast Nat.one_le_iff_ne_zero.mpr h0
    have hn : n ≤ 38 := by
      by_contra hlt
      have h1 : (10 : ℚ) ^ 39 ≤ 10 ^ n := pow_le_pow_right₀ (by norm_num) (by omega)
      have h2 : (10 : ℚ) ^ n ≤ m * 10 ^ n := le_mul_of_one_le_left (by positivity) hone
      have h3 : (p.topDigits : ℚ) * 10 ^ (39 - p.digits) < 10 ^ 39 := by
        cases p <;> norm_num [Precision.topDigits, Precision.digits]
      linarith
    by_contra hover
    have hlimit := le_magnitude_of_overflows (timesTen_spec n ha (by omega)).1
      (by simpa using hover)
    have hscaled : (timesTen n start).magnitude
        ≤ p.stepRatio ^ 38 * (p.topDigits * 10 ^ (39 - p.digits)) := by
      have hpow : p.stepRatio ^ n ≤ p.stepRatio ^ 38 := pow_le_pow_right₀ p.one_le_stepRatio hn
      calc (timesTen n start).magnitude ≤ p.stepRatio ^ n * (10 ^ n * m) := by
            rw [← hmag]
            exact magnitude_timesTen_le n ha (by omega)
        _ ≤ p.stepRatio ^ 38 * (10 ^ n * m) := mul_le_mul_of_nonneg_right hpow (by positivity)
        _ ≤ p.stepRatio ^ 38 * (p.topDigits * 10 ^ (39 - p.digits)) := by
            rw [mul_comm ((10 : ℚ) ^ n)]
            exact mul_le_mul_of_nonneg_left h
              (pow_nonneg (zero_le_one.trans p.one_le_stepRatio) 38)
    have hfar := p.topDigits_lt
    have hnear := mul_le_mul_of_nonneg_left hscaled
      (by positivity : (0 : ℚ) ≤ 1 + 1 / 2 ^ p.manBits)
    linarith
  · have hup : e.toNat = 0 := by omega
    rw [hup, timesTen]
    obtain ⟨hal, -, hrun⟩ := overTen_spec (-e).toNat ha
    refine not_overflows_of_exp_lt hal ?_
    rcases hrun with hout | ⟨hmove, -⟩ <;> omega

/-- A whole number that fits the significand is stored as itself. -/
theorem ofDecimal_natCast {m : ℕ} (hm : m < 2 ^ p.manBits) :
    (ofDecimal ⟨m, 0⟩ : Outcome (Floating p) (Floating p)) = .ok (ofInt m) := by
  by_cases h0 : m = 0
  · rw [ofDecimal, if_pos (by simpa using h0), h0]
    rfl
  · have ha : (Scratch.ofInt p m).align.Aligned := align_aligned (by rw [man_ofInt]; exact h0)
    have hbits : bitLength m ≤ 56 := (bitLength_le hm).trans (by cases p <;> decide)
    have hexp := exp_align_ofInt (p := p) h0
    have hstored := pack_of_not_overflows (not_overflows_of_exp_lt ha (by omega))
    rw [ofDecimal, if_neg (by simpa using h0)]
    exact hstored

/-! ## Values whose digits stay in range -/

theorem magnitude_lt_two_pow (x : Floating p) : x.unpack.magnitude < 2 ^ 127 := by
  have hsig : (x.significand : ℚ) < 2 ^ p.manBits := by exact_mod_cast x.significand_lt
  have hexp : (2 : ℚ) ^ ((x.exponent : ℤ) - 128 - p.manBits) ≤ 2 ^ ((127 : ℤ) - p.manBits) := by
    have := x.exponent_lt
    exact zpow_le_zpow_right₀ (by norm_num) (by omega)
  have hunit : (2 : ℚ) ^ p.manBits * 2 ^ ((127 : ℤ) - p.manBits) = 2 ^ 127 := by
    cases p <;> norm_num [Precision.manBits]
  rw [magnitude_unpack]
  exact (mul_lt_mul hsig hexp (by positivity) (by positivity)).trans_eq hunit

/-- **What is read off stays in range** as long as the value does not round up past the
largest number of so many digits. -/
theorem ReadOff.worth_le_topDigits {n : ℕ} {r : ℤ} (h : x.ReadOff n r)
    (hx : p.stepRatio ^ (44 - p.digits) * x.unpack.magnitude + 10 ^ (39 - p.digits) / 2
      < (p.topDigits + 1) * 10 ^ (39 - p.digits)) :
    (n : ℚ) * 10 ^ r ≤ p.topDigits * 10 ^ (39 - p.digits) := by
  have hdigits := p.digits_le
  have hpower := h.power_le
  have hlt : (n : ℚ) < 10 ^ p.digits := by exact_mod_cast h.digits_lt
  have hle : (10 : ℚ) ^ (p.digits - 1) ≤ n := by exact_mod_cast h.le_digits
  have hworth := h.worth_le
  rcases lt_trichotomy r (39 - p.digits : ℕ) with hr | hr | hr
  · -- at a lower power all digits together stay below `10^38`
    have hpow : (10 : ℚ) ^ r ≤ 10 ^ ((38 : ℤ) - p.digits) :=
      zpow_le_zpow_right₀ (by norm_num) (by omega)
    have htop : (10 : ℚ) ^ p.digits * 10 ^ ((38 : ℤ) - p.digits)
        ≤ p.topDigits * 10 ^ (39 - p.digits) := by
      cases p <;> norm_num [Precision.topDigits, Precision.digits]
    exact (mul_le_mul hlt.le hpow (by positivity) (by positivity)).trans htop
  · subst hr
    rw [Int.natAbs_natCast, show 39 - p.digits + 5 = 44 - p.digits by omega, zpow_natCast] at hworth
    rw [zpow_natCast]
    have hpos : (0 : ℚ) < 10 ^ (39 - p.digits) := by positivity
    have hn : (n : ℚ) < p.topDigits + 1 := lt_of_mul_lt_mul_right (hworth.trans_lt hx) hpos.le
    have hn' : n ≤ p.topDigits := by
      have : n < p.topDigits + 1 := by exact_mod_cast hn
      omega
    have hn'' : (n : ℚ) ≤ p.topDigits := by exact_mod_cast hn'
    exact mul_le_mul_of_nonneg_right hn'' hpos.le
  · -- at a higher power the least number of so many digits is already out of reach
    exfalso
    have hpow : (10 : ℚ) ^ ((40 : ℤ) - p.digits) ≤ 10 ^ r :=
      zpow_le_zpow_right₀ (by norm_num) (by omega)
    have hleast : (2 : ℚ) ^ 128 ≤ (10 ^ (p.digits - 1) - 1 / 2) * 10 ^ ((40 : ℤ) - p.digits) := by
      cases p <;> norm_num [Precision.digits]
    have hscaled : (10 ^ (p.digits - 1) - 1 / 2) * (10 : ℚ) ^ ((40 : ℤ) - p.digits)
        ≤ (n - 1 / 2) * 10 ^ r := by
      have hone : (1 : ℚ) ≤ 10 ^ (p.digits - 1) := one_le_pow₀ (by norm_num)
      exact mul_le_mul (by linarith) hpow (by positivity) (by linarith)
    have hratio : p.stepRatio ^ (r.natAbs + 5) ≤ 2 := by
      have h1 := Precision.stepRatio_pow_le (p := p) (n := r.natAbs + 5) (by omega)
      have h2 : 1 + p.drift ≤ 2 := by
        cases p <;> norm_num [Precision.drift, Precision.width, Precision.manBits]
      linarith
    have hreach := mul_le_mul_of_nonneg_right hratio (unpack_aligned x).magnitude_pos.le
    have hmag := x.magnitude_lt_two_pow
    linarith

end Floating

end BasicNumerics
