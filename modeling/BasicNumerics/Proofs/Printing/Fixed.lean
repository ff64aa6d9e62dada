/-
Numbers in fixed notation.

The digits that the precision shows are moved by the decimals of the picture and rounded to a
whole number; what comes out is split again so many digits before its end. The text denotes this
whole number over a power of ten, since no step after the rounding changes the number: zeros are
put in front until there is a whole digit, and taken off again as long as one is left.

So the number shown is the one nearest to the printed decimal, halves away from zero, and its
sign is dropped with its last digit: a number that rounds to zero has no minus
(`fixedText_rounds`).
-/
import BasicNumerics.Proofs.Printing.Layout
import BasicNumerics.Proofs.Text.Rounding
import BasicNumerics.Proofs.Value.Order

set_option autoImplicit false

namespace BasicNumerics

open Text

namespace Decimal

/-! ## Digits on both sides of the point -/

/-- The digits of fixed notation on both sides of the point, one at least before it. -/
def fixedDigits (places : ℕ) (d : Decimal) : List Char :=
  padLeft (places + 1) (shiftRound (decimal d.mantissa.natAbs) (d.exponent + places))

/-- The whole number that the digits denote. -/
def scaledMagnitude (places : ℕ) (d : Decimal) : ℕ := ⌊|d.value| * 10 ^ places + 1 / 2⌋₊

/-- **The digits are rounded halves up** at the last place of the picture. -/
theorem denotes_fixedDigits (places : ℕ) (d : Decimal) :
    Denotes (d.fixedDigits places) (d.scaledMagnitude places) := by
  have hscaled : |d.value| * 10 ^ places
      = (d.mantissa.natAbs : ℚ) * 10 ^ (d.exponent + (places : ℤ)) := by
    rw [abs_value, zpow_add₀ (by norm_num), zpow_natCast, mul_assoc]
  rw [scaledMagnitude, hscaled]
  exact ((Denotes.decimal d.mantissa.natAbs).shiftRound _).padLeft _

theorem lt_length_fixedDigits (places : ℕ) (d : Decimal) :
    places < (d.fixedDigits places).length := by
  rw [fixedDigits, length_padLeft]
  exact Nat.le_max_left _ _

/-- The numeral that fixed notation shows, its sign apart. -/
def fixedNumeral (style : Style) (places : ℕ) (d : Decimal) : Numeral where
  whole := dropLeadingZeros
    ((d.fixedDigits places).take ((d.fixedDigits places).length - places))
  fraction := style.decimals places
    ((d.fixedDigits places).drop ((d.fixedDigits places).length - places))
  exponent := none
  mark := none

theorem denotes_whole (style : Style) (places : ℕ) (d : Decimal) :
    Denotes (d.fixedNumeral style places).whole
      (numeralValue 10 ((d.fixedDigits places).take ((d.fixedDigits places).length - places))) := by
  apply denotes_dropLeadingZeros
  intro c hc
  exact (denotes_fixedDigits places d).isDigit c (List.mem_of_mem_take hc)

/-- With a point or without one, the decimals of the picture are the digits behind the whole
ones. -/
theorem getD_fraction (style : Style) (places : ℕ) (d : Decimal) :
    (d.fixedNumeral style places).fraction.getD []
      = (d.fixedDigits places).drop ((d.fixedDigits places).length - places) := by
  rw [fixedNumeral]
  by_cases hpoint : 0 < places ∨ style.forceDot = true
  · rw [Style.decimals_of_point hpoint, Option.getD_some]
  · obtain ⟨rfl, -⟩ : places = 0 ∧ style.forceDot = false := by simpa [not_or] using hpoint
    rw [Style.decimals_of_not_point hpoint, Option.getD_none, Nat.sub_zero, List.drop_length]

theorem length_fraction (style : Style) (places : ℕ) (d : Decimal) :
    ((d.fixedNumeral style places).fraction.getD []).length = places := by
  have hlt := lt_length_fixedDigits places d
  rw [getD_fraction, List.length_drop]
  omega

theorem wellFormed_fixedNumeral (style : Style) (places : ℕ) (d : Decimal) :
    (d.fixedNumeral style places).WellFormed := by
  have hwhole := denotes_whole style places d
  refine ⟨hwhole.isDigit, ?_, ?_, Or.inl hwhole.ne_nil⟩
  · intro ds hds c hc
    have hfraction := getD_fraction style places d
    rw [hds, Option.getD_some] at hfraction
    rw [hfraction] at hc
    exact (denotes_fixedDigits places d).isDigit c (List.mem_of_mem_drop hc)
  · intro e he
    exact absurd he (by simp [fixedNumeral])

/-- **Splitting the digits keeps the number.** -/
theorem value_fixedNumeral (style : Style) (places : ℕ) (d : Decimal) :
    (d.fixedNumeral style places).value = d.scaledMagnitude places / 10 ^ places := by
  have hlength := length_fraction style places d
  have hvalue : numeralValue 10 (d.fixedNumeral style places).digits
      = d.scaledMagnitude places := by
    -- both parts of the row, read together, are the row
    have hsplit := numeralValue_append 10
      ((d.fixedDigits places).take ((d.fixedDigits places).length - places))
      ((d.fixedNumeral style places).fraction.getD [])
    rw [hlength, getD_fraction, List.take_append_drop, (denotes_fixedDigits places d).value_eq]
      at hsplit
    rw [Numeral.digits, numeralValue_append, (denotes_whole style places d).value_eq, hlength,
      getD_fraction, hsplit]
  have hpower : (d.fixedNumeral style places).power = 0 := rfl
  rw [Numeral.value, hvalue, hlength, hpower, zero_sub, zpow_neg, zpow_natCast, div_eq_mul_inv]

/-- **Fixed notation lays out its numeral,** with a minus only if something is left of it. -/
theorem layout_fixedNumeral (style : Style) (places : ℕ) (d : Decimal) :
    (d.fixedNumeral style places).layout style
        (decide (d.mantissa < 0) && d.scaledMagnitude places != 0)
      = d.fixedText style places := by
  have hrow := denotes_fixedDigits places d
  -- the sign is dropped with the last digit other than zero, that is with the whole number
  have hany : (d.fixedDigits places).any (· != '0') = (d.scaledMagnitude places != 0) := by
    rw [Bool.eq_iff_iff, bne_iff_ne, ← hrow.value_eq, ne_eq, numeralValue_eq_zero_iff hrow.isDigit]
    simp
  have htext : d.fixedText style places
      = style.signText (decide (d.mantissa < 0) && (d.fixedDigits places).any (· != '0'))
        ++ style.wholeText (d.fixedNumeral style places).whole ++ style.pointText (0 < places)
        ++ (d.fixedDigits places).drop ((d.fixedDigits places).length - places) := rfl
  rw [htext, hany, ← getD_fraction style, Numeral.layout]
  simp only [fixedNumeral, Style.fractionPart_decimals, Numeral.exponentPart, Numeral.markPart,
    List.append_nil, List.append_assoc]

end Decimal

/-! ## What a picture with fixed decimals shows -/

/-- A text in fixed notation for the whole number `r` over `10^places`, which shows the numeral
`n`: a whole digit in any case, no zero in front of another digit, the decimals of the picture, a
point where there are decimals or the style asks for one, a minus only for a negative number of
which something is left, and commas between groups of three digits where the style asks for
them. -/
structure ShowsFixed (style : Style) (places : ℕ) (negative : Prop) (r : ℕ) (text : List Char)
    (n : Numeral) : Prop where
  scan : Numeral.scan (bareText text) = (n, [])
  plain : n.exponent = none ∧ n.mark = none
  whole_ne_nil : n.whole ≠ []
  head?_whole : 1 < n.whole.length → n.whole.head? ≠ some '0'
  length_fraction : (n.fraction.getD []).length = places
  point_iff : n.fraction ≠ none ↔ 0 < places ∨ style.forceDot = true
  value_eq : n.value = r / 10 ^ places
  minus_iff : text.head? = some '-' ↔ negative ∧ r ≠ 0
  commas : ∃ neg whole, text = style.signText neg ++ (whole ++ Numeral.fractionPart n.fraction) ∧
    (style.groupDigits = false → whole = n.whole) ∧
    (style.groupDigits = true → ∃ first rest, GroupedAs n.whole whole first rest)

/-- **What fixed notation shows of a decimal.** -/
theorem Decimal.showsFixed (style : Style) (places : ℕ) (d : Decimal) :
    ShowsFixed style places (d.mantissa < 0) (d.scaledMagnitude places) (d.fixedText style places)
      (d.fixedNumeral style places) := by
  have hlayout := layout_fixedNumeral style places d
  have hwhole := denotes_whole style places d
  obtain ⟨hscan, hminus⟩ := Numeral.scan_bareText_layout style
    (decide (d.mantissa < 0) && d.scaledMagnitude places != 0)
    (wellFormed_fixedNumeral style places d)
  rw [hlayout] at hscan hminus
  refine ⟨hscan, ⟨rfl, rfl⟩, hwhole.ne_nil, head?_dropLeadingZeros_ne,
    length_fraction style places d, Style.decimals_ne_none_iff _, value_fixedNumeral style places d,
    ?_, ?_⟩
  · rw [hminus]
    simp
  · refine ⟨decide (d.mantissa < 0) && d.scaledMagnitude places != 0,
      style.wholeText (d.fixedNumeral style places).whole, ?_, ?_, ?_⟩
    · rw [← hlayout, Numeral.layout]
      simp only [fixedNumeral, Numeral.exponentPart, Numeral.markPart, List.append_nil]
    · intro hgroup
      rw [Style.wholeText, if_neg (by simp [hgroup])]
    · intro hgroup
      rw [Style.wholeText, if_pos hgroup]
      exact groupedAs_groupThousands hwhole.ne_nil

namespace Value

/-- The decimal that a number is printed from; a string has none. -/
def printed? : Value → Option Decimal
  | integer n => some ⟨n.toInt .signed, 0⟩
  | float _ x => some (x.toDecimal none)
  | string _ => none

/-- **Fixed notation rounds halves away from zero.** A number is printed from a decimal `d`, and
fixed notation shows `|d| · 10^places` to the nearest whole number, halves up, over `10^places`. -/
theorem fixedText_rounds {v : Value} {q : ℚ} (hv : v.worth? = some q) (style : Style) (places : ℕ) :
    ∃ d text n, v.printed? = some d ∧ v.fixedText style places = .ok text ∧
      ShowsFixed style places (q < 0) ⌊|d.value| * 10 ^ places + 1 / 2⌋₊ text n := by
  cases v with
  | integer k =>
    have hneg : q < 0 ↔ k.toInt .signed < 0 := by
      rw [← Option.some.inj hv, Int.cast_lt_zero]
    rw [hneg]
    exact ⟨_, _, _, rfl, rfl, Decimal.showsFixed style places ⟨k.toInt .signed, 0⟩⟩
  | float p x =>
    obtain ⟨-, hneg, -⟩ := x.mantissa_toDecimal none
    obtain rfl : x.exact = q := Option.some.inj hv
    rw [← hneg]
    exact ⟨_, _, _, rfl, rfl, Decimal.showsFixed style places (x.toDecimal none)⟩
  | string s => exact absurd hv (by simp [worth?])

/-- A carry that runs through all the digits, and starts a new group of them. -/
theorem fixedText_rounds_nines :
    let x : Single := .ofWord 0x8AF9FFC0
    let v : Value := float .single x
    let style : Style := ⟨false, false, false, true⟩
    v.worth? = some (-255999 / 256) ∧ x.toDecimal none = ⟨-9999961, -4⟩ ∧
      v.fixedText style 2 = .ok "-1,000.00".toList ∧
      ∃ n, ShowsFixed style 2 True 100000 "-1,000.00".toList n ∧ n.value = 1000 := by
  intro x v style
  have hworth : v.worth? = some (-255999 / 256) := by
    rw [worth?, Option.some.injEq]
    norm_num [x, Floating.exact, Floating.isZero, Floating.ofWord, Floating.significand,
      Precision.manBits]
  have hdecimal : x.toDecimal none = ⟨-9999961, -4⟩ := by decide +kernel
  have htext : v.fixedText style 2 = .ok "-1,000.00".toList := by decide +kernel
  obtain ⟨d, text, n, hd, hok, hshows⟩ := fixedText_rounds hworth style 2
  obtain rfl : x.toDecimal none = d := Option.some.inj hd
  obtain rfl := Except.ok.inj (htext.symm.trans hok)
  have hround : ⌊|(x.toDecimal none).value| * 10 ^ 2 + 1 / 2⌋₊ = 100000 := by
    rw [hdecimal, Decimal.value, Nat.floor_eq_iff (by positivity)]
    norm_num
  have hneg : ((-255999 / 256 : ℚ) < 0) = True := by norm_num
  rw [hround, hneg] at hshows
  refine ⟨hworth, hdecimal, htext, n, hshows, ?_⟩
  rw [hshows.value_eq]
  norm_num

end Value

end BasicNumerics
