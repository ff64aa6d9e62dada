/-
Numbers laid out to a picture, and how they are read.

A number laid out to a picture is a sign, whole digits that may be grouped, and what follows
them. Without the sign and the commas it is the text of one numeral (`scan_bareText_layout`), and
the numeral tells the number: all its digits, at the power of its exponent less the digits past
the point (`Numeral.value`).

The digits come from a decimal that was read off the value. Its mantissa has the sign of the
value, and no more digits than were asked for (`mantissa_toDecimal`).
-/
import BasicNumerics.Proofs.Floating.Nearest
import BasicNumerics.Proofs.Printing.Denotation

set_option autoImplicit false

namespace BasicNumerics

open Text

/-! ## Reading a laid out number -/

/-- A number laid out, without its sign or blank and without the commas between groups. -/
def bareText (text : List Char) : List Char := (Floating.unsignedText text).filter (· ≠ ',')

namespace Numeral

variable {n : Numeral} {style : Style}

/-- A numeral laid out in a style. -/
def layout (style : Style) (neg : Bool) (n : Numeral) : List Char :=
  style.signText neg ++ (style.wholeText n.whole ++
    (fractionPart n.fraction ++ (exponentPart n.exponent ++ markPart n.mark)))

/-- A numeral has no commas of its own. -/
theorem ne_comma_of_mem_text (h : n.WellFormed) : ∀ c ∈ n.text, c ≠ ',' := by
  rintro c hc rfl
  exact absurd (isPart_of_mem_text h ',' hc) (by decide)

/-- **Without the commas the layout is the numeral** again. -/
theorem filter_layout (style : Style) (h : n.WellFormed) :
    (style.wholeText n.whole ++
        (fractionPart n.fraction ++ (exponentPart n.exponent ++ markPart n.mark))).filter (· ≠ ',')
      = n.text := by
  have hcomma := ne_comma_of_mem_text h
  rw [text_eq] at hcomma ⊢
  rw [List.forall_mem_append] at hcomma
  obtain ⟨hwhole, hrest⟩ := hcomma
  have hgroup : (style.wholeText n.whole).filter (· ≠ ',') = n.whole := by
    rw [Style.wholeText]
    split
    · exact filter_groupThousands n.whole hwhole
    · exact List.filter_eq_self.mpr (by simpa using hwhole)
  rw [List.filter_append, hgroup, List.filter_eq_self.mpr (by simpa using hrest)]

/-- Grouped or not, a numeral starts with a digit or the point. -/
theorem exists_cons_layout (style : Style) (h : n.WellFormed) :
    ∃ c cs, style.wholeText n.whole ++
        (fractionPart n.fraction ++ (exponentPart n.exponent ++ markPart n.mark)) = c :: cs ∧
      Literal.isDecimalStart c = true := by
  rcases hw : n.whole with _ | ⟨c, cs⟩
  · rcases hf : n.fraction with _ | ds
    · exact absurd h.starts (by simp [hw, hf])
    · have hnil : style.wholeText [] = [] := by rw [Style.wholeText, groupThousands, ite_self]
      rw [hnil]
      exact ⟨'.', _, rfl, by decide⟩
  · have hc : c.isDigit = true := h.whole c (by simp [hw])
    have hcons : ∃ ds, style.wholeText (c :: cs) = c :: ds := by
      rw [Style.wholeText, groupThousands]
      split_ifs <;> exact ⟨_, rfl⟩
    obtain ⟨ds, hds⟩ := hcons
    rw [hds]
    exact ⟨c, _, rfl, by simp [Literal.isDecimalStart, hc]⟩

/-- **What is laid out is one numeral,** and the sign in front of it can be told. -/
theorem scan_bareText_layout (style : Style) (neg : Bool) (h : n.WellFormed) :
    scan (bareText (n.layout style neg)) = (n, []) ∧
      ((n.layout style neg).head? = some '-' ↔ neg = true) := by
  obtain ⟨c, cs, hbody, hc⟩ := exists_cons_layout style h
  obtain ⟨hbare, hsign⟩ := Floating.signText_append_cons style neg hc cs
  rw [← hbody] at hbare hsign
  refine ⟨?_, hsign⟩
  rw [bareText, layout, hbare, filter_layout style h]
  exact scan_text h

end Numeral

/-! ## The point -/

namespace Style

/-- The decimals of a numeral: none without a point, which a style may ask for. -/
def decimals (style : Style) (places : ℕ) (ds : List Char) : Option (List Char) :=
  if 0 < places ∨ style.forceDot then some ds else none

variable {style : Style} {places : ℕ}

theorem decimals_of_point (h : 0 < places ∨ style.forceDot = true) (ds : List Char) :
    style.decimals places ds = some ds := if_pos h

theorem decimals_of_not_point (h : ¬(0 < places ∨ style.forceDot = true)) (ds : List Char) :
    style.decimals places ds = none := if_neg h

theorem decimals_ne_none_iff (ds : List Char) :
    style.decimals places ds ≠ none ↔ 0 < places ∨ style.forceDot = true := by
  by_cases h : 0 < places ∨ style.forceDot = true
  · simp [decimals_of_point h, h]
  · simp [decimals_of_not_point h, h]

/-- The point is shown with the decimals behind it. -/
theorem fractionPart_decimals (style : Style) (places : ℕ) (ds : List Char) :
    Numeral.fractionPart (style.decimals places ds)
      = style.pointText (0 < places) ++ (style.decimals places ds).getD [] := by
  by_cases h : 0 < places ∨ style.forceDot = true
  · have hdot : style.pointText (0 < places) = ['.'] := if_pos (by simpa using h)
    rw [decimals_of_point h, hdot]
    rfl
  · have hdot : style.pointText (0 < places) = [] := if_neg (by simpa using h)
    rw [decimals_of_not_point h, hdot]
    rfl

end Style

/-! ## What is read off a value -/

namespace Floating

open Scratch

variable {p : Precision}

theorem isZero_iff_exact_eq_zero (x : Floating p) : x.isZero = true ↔ x.exact = 0 := by
  constructor
  · exact exact_of_isZero
  · intro h
    by_contra hx
    have habs := abs_exact (x := x) (by simpa using hx)
    rw [h, abs_zero] at habs
    exact absurd habs.symm (unpack_aligned x).magnitude_pos.ne'

/-- **The mantissa of a decimal read off a value** has the sign of the value, and no more digits
than were asked for. -/
theorem mantissa_toDecimal (x : Floating p) (digits : Option ℕ) :
    ((x.toDecimal digits).mantissa = 0 ↔ x.exact = 0) ∧
      ((x.toDecimal digits).mantissa < 0 ↔ x.exact < 0) ∧
      (x.toDecimal digits).mantissa.natAbs < 10 ^ digitCount p digits := by
  by_cases hx : x.isZero = true
  · have hzero : x.toDecimal digits = ⟨0, 0⟩ := by rw [toDecimal, if_pos hx]
    rw [hzero, exact_of_isZero hx]
    exact ⟨by simp, by simp, Nat.pow_pos (by norm_num)⟩
  · rw [Bool.not_eq_true] at hx
    obtain ⟨t, hcount, ht⟩ := exists_digitCount p digits
    -- the digits are a whole number other than zero, and the sign is put in front of it
    obtain ⟨n, r, hdigits⟩ := exists_hasDigits hx ht
    have hlt := hdigits.digits_lt
    have hpos : 0 < n := lt_of_lt_of_le (Nat.pow_pos (by norm_num)) hdigits.le_digits
    have hmag := (unpack_aligned x).magnitude_pos
    have hexact : x.exact ≠ 0 := by
      rw [ne_eq, ← isZero_iff_exact_eq_zero, hx]
      simp
    rw [toDecimal_of_digitCount hcount ht, hdigits.toDecimal_eq, hcount, exact_eq_signed hx,
      signed_neg_iff hmag, ← exact_eq_signed hx]
    by_cases hneg : x.neg = true
    · simp only [hneg, if_true, Int.natAbs_neg, Int.natAbs_natCast]
      refine ⟨iff_of_false (by omega) hexact, iff_of_true (by omega) trivial, hlt⟩
    · simp only [hneg, Bool.false_eq_true, if_false, Int.natAbs_natCast]
      refine ⟨iff_of_false (by omega) hexact, iff_of_false (by omega) id, hlt⟩

/-- More digits than the precision has are not read off. -/
theorem toDecimal_min (x : Floating p) (count : ℕ) :
    x.toDecimal (some (count ⊓ p.digits)) = x.toDecimal (some count) := by
  have hcount : digitCount p (some (count ⊓ p.digits)) = digitCount p (some count) := by
    show 1 ⊔ (count ⊓ p.digits ⊓ p.digits) = 1 ⊔ (count ⊓ p.digits)
    rw [min_assoc, min_self]
  rw [toDecimal, toDecimal, hcount]

theorem length_decimal_toDecimal_le (x : Floating p) {count : ℕ} (h : 0 < count) :
    (decimal (x.toDecimal (some count)).mantissa.natAbs).length ≤ count := by
  obtain ⟨-, -, hlt⟩ := x.mantissa_toDecimal (some count)
  apply length_decimal_le h
  have hle : digitCount p (some count) ≤ count := Nat.max_le.mpr ⟨h, Nat.min_le_left _ _⟩
  exact hlt.trans_le (Nat.pow_le_pow_right (by norm_num) hle)

end Floating

theorem Decimal.abs_value_eq_zero_iff (d : Decimal) : |d.value| = 0 ↔ d.mantissa = 0 := by
  rw [abs_eq_zero, value, mul_eq_zero, Int.cast_eq_zero, or_iff_left (by positivity)]

end BasicNumerics
