/-
The digits of a literal that are kept.

A decimal literal is read as a mantissa below `10^18` and a power of ten. With at most eighteen
digits that count it is read exactly. With more, the digits past the eighteenth are cut off: the
literal lies between the decimal that is read and the next one at the same power of ten, and
eighteen digits are there (`KeepsDigits`).

No number on the way leaves the word it is kept in: the mantissa because it never has more than
eighteen digits, the power of ten because every digit moves it by one at most and a text is not
that long.
-/
import BasicNumerics.Proofs.Floating.Digits
import BasicNumerics.Proofs.Literal.Grammar

set_option autoImplicit false

namespace BasicNumerics

open Text

/-! ## The case of letters -/

namespace Decimal

theorem toUpper_of_isMantissaChar {c : Char} (h : isMantissaChar c = true) : c.toUpper = c := by
  rcases Bool.or_eq_true_iff.mp h with hdigit | hpoint
  · exact toUpper_of_isDigit hdigit
  · rw [eq_of_beq hpoint]
    decide

/-- **A text is read alike in either case.** -/
theorem ofText_map_toUpper (cs : List Char) : ofText (cs.map Char.toUpper) = ofText cs := by
  have hchar : isMantissaChar ∘ Char.toUpper = isMantissaChar :=
    funext (apply_toUpper (by decide +kernel))
  have htake : (cs.map Char.toUpper).takeWhile isMantissaChar = cs.takeWhile isMantissaChar := by
    rw [List.takeWhile_map, hchar]
    exact map_toUpper_eq_self fun c hc => toUpper_of_isMantissaChar (List.mem_takeWhile_imp hc)
  rw [ofText, htake, List.dropWhile_map, hchar, exponentOf,
    Numeral.takesPart_scanExponent.folds]
  rfl

end Decimal

/-! ## Words that are large enough -/

namespace MantissaReader

/-- The mantissa fits 63 bits, and the power of ten fits 31. -/
structure InRange (r : MantissaReader) : Prop where
  mantissa_lt : r.mantissa < 2 ^ 63
  exponent_lt : |r.exponent| < 2 ^ 31

variable {r : MantissaReader} {cs : List Char}

/-- The digits kept are no more than the limit. -/
theorem Reads.mantissa_lt (h : r.Reads cs) : r.mantissa < 10 ^ limit := by
  have hlt := numeralValue_lt_pow_significantCount (isDigit_of_mem_filter cs)
  have hcount : significantCount (cs.filter Char.isDigit) ≤ dropped cs + limit := by
    rw [dropped]
    omega
  rw [h.mantissa]
  apply Nat.div_lt_of_lt_mul
  rw [← Nat.pow_add]
  exact hlt.trans_le (Nat.pow_le_pow_right (by decide) hcount)

theorem Reads.abs_exponent_le (h : r.Reads cs) : |r.exponent| ≤ cs.length := by
  have hdropped := dropped_le_length cs
  have hdecimals := length_decimals_le cs
  rw [h.exponent, abs_le]
  omega

theorem Reads.inRange (h : r.Reads cs) (hlength : cs.length < 2 ^ 30) : r.InRange := by
  have hexponent := h.abs_exponent_le
  refine ⟨h.mantissa_lt.trans (by decide), ?_⟩
  omega

end MantissaReader

namespace Decimal

/-- The size of an exponent stops below `10^5`. -/
theorem exponentSize_lt {cs : List Char} (h : ∀ c ∈ cs, c.isDigit = true) :
    exponentSize cs < 10 ^ 5 := by
  induction cs using List.reverseRecOn with
  | nil => decide
  | append_singleton cs c ih =>
    have hrest := ih fun d hd => h d (by simp [hd])
    have hdigit := digitValue_lt_ten (h c (by simp))
    rw [exponentSize_append_singleton]
    split_ifs <;> omega

theorem abs_exponentOf_lt (cs : List Char) : |exponentOf cs| < 10 ^ 5 := by
  rw [exponentOf]
  rcases he : (Numeral.scanExponent cs).1 with _ | e
  · decide
  · have hlt := exponentSize_lt (Numeral.isDigit_of_mem_scanExponent e he)
    simp only [abs_lt]
    split_ifs <;> omega

variable {t : List Char}

/-- **Any text is read in words of fixed size,** at every character of its mantissa. -/
theorem inRange_of_prefix (hlength : t.length < 2 ^ 30) {cs : List Char}
    (h : cs <+: t.takeWhile isMantissaChar) : (cs.foldl MantissaReader.step {}).InRange := by
  have hread := MantissaReader.reads_foldl cs fun c hc => List.mem_takeWhile_imp (h.subset hc)
  refine hread.inRange (lt_of_le_of_lt ?_ hlength)
  exact h.length_le.trans (List.takeWhile_prefix _).length_le

theorem mantissa_ofText_lt (t : List Char) :
    0 ≤ (ofText t).mantissa ∧ (ofText t).mantissa < 10 ^ MantissaReader.limit := by
  have hread := MantissaReader.reads_foldl (t.takeWhile isMantissaChar)
    fun c hc => List.mem_takeWhile_imp hc
  exact ⟨Int.natCast_nonneg _, Int.ofNat_lt.mpr hread.mantissa_lt⟩

theorem abs_exponent_ofText_lt (hlength : t.length < 2 ^ 30) : |(ofText t).exponent| < 2 ^ 31 := by
  have hread := MantissaReader.reads_foldl (t.takeWhile isMantissaChar)
    fun c hc => List.mem_takeWhile_imp hc
  have hmantissa := hread.abs_exponent_le
  have hle := (List.takeWhile_prefix isMantissaChar (l := t)).length_le
  have hpower := abs_exponentOf_lt (t.dropWhile isMantissaChar)
  rw [abs_le] at hmantissa
  rw [abs_lt] at hpower ⊢
  rw [ofText]
  simp only
  omega

end Decimal

/-! ## Eighteen digits -/

/-- A decimal that keeps the first eighteen digits of a numeral, counted from the first that is
not zero. -/
structure KeepsDigits (n : Numeral) (d : Decimal) : Prop where
  nonneg : 0 ≤ d.mantissa
  lt : d.mantissa < 10 ^ 18
  /-- Few digits are kept all. -/
  exact : n.significant ≤ 18 → d.value = n.value
  /-- Of many digits eighteen are kept, and the rest is less than one at the last of these. -/
  full : 18 < n.significant →
    10 ^ 17 ≤ d.mantissa ∧ d.value ≤ n.value ∧ n.value < (d.mantissa + 1) * 10 ^ d.exponent

/-- **Cutting digits off** and raising the power of ten by as many leaves less than one at the
last digit that is kept. -/
theorem Decimal.cut_bounds (m k : ℕ) (e : ℤ) :
    ((m / 10 ^ k : ℕ) : ℚ) * 10 ^ (e + k) ≤ m * 10 ^ e ∧
      (m : ℚ) * 10 ^ e < ((m / 10 ^ k : ℕ) + 1) * 10 ^ (e + k) := by
  have hunit : (0 : ℚ) < 10 ^ e := by positivity
  have hlow : ((m / 10 ^ k : ℕ) : ℚ) * 10 ^ k ≤ m := by
    exact_mod_cast Nat.div_mul_le_self m (10 ^ k)
  have hhigh : (m : ℚ) < 10 ^ k * ((m / 10 ^ k : ℕ) + 1) := by
    exact_mod_cast Nat.lt_mul_div_succ m (Nat.pow_pos (by decide))
  have hscale : (10 : ℚ) ^ (e + k) = 10 ^ k * 10 ^ e := by
    rw [zpow_add₀ (by norm_num), zpow_natCast, mul_comm]
  rw [hscale, ← mul_assoc, ← mul_assoc]
  refine ⟨mul_le_mul_of_nonneg_right hlow hunit.le, ?_⟩
  rw [mul_comm _ ((10 : ℚ) ^ k)]
  exact mul_lt_mul_of_pos_right hhigh hunit

namespace Numeral

variable {n : Numeral}

/-- **A numeral is read to eighteen digits.** -/
theorem keepsDigits_ofText_text (h : n.WellFormed)
    (hexp : ∀ e ∈ n.exponent, numeralValue 10 e.digits < 10 ^ 5) :
    KeepsDigits n (Decimal.ofText n.text) := by
  obtain ⟨hnonneg, hlt⟩ := Decimal.mantissa_ofText_lt n.text
  refine ⟨hnonneg, hlt, ?_, ?_⟩
  · intro hfew
    have hnone : n.significant - MantissaReader.limit = 0 := Nat.sub_eq_zero_of_le hfew
    rw [ofText_text_of_wellFormed h hexp, hnone, Nat.pow_zero, Nat.div_one, Nat.cast_zero, add_zero,
      Decimal.value, value, Int.cast_natCast]
  · intro hmany
    have hfirst : 10 ^ (n.significant - 1) ≤ numeralValue 10 n.digits :=
      pow_significantCount_le (isDigit_of_mem_digits h) (Nat.zero_lt_of_lt hmany)
    have hkept :
        10 ^ 17 ≤ numeralValue 10 n.digits / 10 ^ (n.significant - MantissaReader.limit) := by
      rw [Nat.le_div_iff_mul_le (Nat.pow_pos (by decide)), ← Nat.pow_add]
      refine (Nat.pow_le_pow_right (by decide) ?_).trans hfirst
      rw [MantissaReader.limit]
      omega
    obtain ⟨hbelow, habove⟩ := Decimal.cut_bounds (numeralValue 10 n.digits)
      (n.significant - MantissaReader.limit) (n.power - (n.fraction.getD []).length)
    rw [ofText_text_of_wellFormed h hexp, Decimal.value, value, Int.cast_natCast]
    exact ⟨Int.ofNat_le.mpr hkept, hbelow, habove⟩

end Numeral

/-! ## Literals -/

namespace Literal

variable {t u : List Char} {k : NumberKind}

/-- Only a digit or the point starts a decimal literal. -/
theorem exists_cons_of_scan?_decimal {rest : List Char}
    (h : scan? t = some (⟨.decimal k, u⟩, rest)) :
    ∃ c cs, t = c :: cs ∧ isDecimalStart c = true := by
  rcases scan?_eq_some_iff.mp h with hdecimal | ⟨hletter, -⟩ | -
  · exact hdecimal.exists_cons
  · cases hletter

/-- **A decimal literal is read to eighteen digits.**

The parts `n` of the literal spell it, in capital letters. The decimal that is read has a mantissa
below `10^18`, is exactly the literal's number if no more than eighteen digits count, and is
otherwise that number cut at the eighteenth digit. On the way every mantissa fits 63 bits, and the
power of ten fits 31. -/
theorem ofText_keeps_eighteen_digits {n : Numeral}
    (hscan : scan? t = some (⟨.decimal k, u⟩, [])) (hparts : (Numeral.scan t).1 = n)
    (hlength : t.length < 2 ^ 30)
    (hexp : ∀ e ∈ n.exponent, numeralValue 10 e.digits < 100000) :
    (n.WellFormed ∧ n.text = t.map Char.toUpper) ∧ KeepsDigits n (Decimal.ofText t) ∧
      (∀ cs, cs <+: t.takeWhile Decimal.isMantissaChar →
        (cs.foldl MantissaReader.step {}).InRange) ∧
      |(Decimal.ofText t).exponent| < 2 ^ 31 := by
  obtain ⟨c, cs, rfl, hstart⟩ := exists_cons_of_scan?_decimal hscan
  have hwell : n.WellFormed := hparts ▸ Numeral.wellFormed_scan hstart
  rw [scan?_of_isDecimalStart hstart, Option.some.injEq, Prod.mk.injEq] at hscan
  have htext : n.text = (c :: cs).map Char.toUpper := by
    have hspells := Numeral.takesPart_scan.spells (c :: cs)
    rw [hscan.2, hparts, List.map_nil, List.append_nil] at hspells
    exact hspells.symm
  have hkeeps := Numeral.keepsDigits_ofText_text hwell (by simpa using hexp)
  rw [htext, Decimal.ofText_map_toUpper] at hkeeps
  exact ⟨⟨hwell, htext⟩, hkeeps, fun _ hcs => Decimal.inRange_of_prefix hlength hcs,
    Decimal.abs_exponent_ofText_lt hlength⟩

/-- Zeros in front, digits dropped on both sides of the point, and a small letter. -/
theorem ofText_keeps_eighteen_digits_dropped :
    let t := "00123456789012345678901.56e-7".toList
    scan? t = some (⟨.decimal (.float .double), t.map Char.toUpper⟩, []) ∧
      Decimal.ofText t = ⟨123456789012345678, -4⟩ ∧ (Numeral.scan t).1.significant = 23 ∧
      (123456789012345678 : ℚ) * 10 ^ (-4 : ℤ) ≤ (Numeral.scan t).1.value ∧
      (Numeral.scan t).1.value < 123456789012345679 * (10 : ℚ) ^ (-4 : ℤ) := by
  intro t
  have hscan : scan? t = some (⟨.decimal (.float .double), t.map Char.toUpper⟩, []) := by
    decide +kernel
  have hread : Decimal.ofText t = ⟨123456789012345678, -4⟩ := by decide +kernel
  have hmany : (Numeral.scan t).1.significant = 23 := by decide +kernel
  obtain ⟨-, hkeeps, -, -⟩ := ofText_keeps_eighteen_digits hscan rfl (by decide +kernel)
    (by decide +kernel)
  obtain ⟨-, hbelow, habove⟩ := hkeeps.full (by rw [hmany]; decide)
  rw [hread] at hbelow habove
  norm_num [Decimal.value] at hbelow habove
  refine ⟨hscan, hread, hmany, ?_, ?_⟩
  · norm_num
    exact hbelow
  · norm_num
    exact habove

end Literal

end BasicNumerics
