/-
Numbers in scientific notation.

A picture has some digits before the point and some after it. As many digits are read off the
value, up to what the precision has, and zeros fill up the rest; the power of ten makes up for
the zeros and for the digits before the point (`shownDigits_worth`). So the text denotes the
decimal that was read off, with one exception. A picture without any digits still shows one, and
the power takes it for a digit behind the point. Where no point is shown it stands in front of it,
and the text denotes ten times as much (`value_scientificNumeral`).
-/
import BasicNumerics.Proofs.Printing.Layout
import BasicNumerics.Proofs.Register.Refinement
import BasicNumerics.Proofs.Text.Rounding
import BasicNumerics.Proofs.Value.Order

set_option autoImplicit false

namespace BasicNumerics

open Text

/-! ## Powers of ten in a text -/

namespace ExponentPart

/-- The power of ten as it is written, by parts. -/
def ofInt (p : Precision) (e : ℤ) : ExponentPart :=
  ⟨p, some (decide (e < 0)), padLeft 2 (decimal e.natAbs)⟩

theorem denotes_digits (p : Precision) (e : ℤ) : Denotes (ofInt p e).digits e.natAbs :=
  (Denotes.decimal e.natAbs).padLeft 2

theorem exponentPart_ofInt (p : Precision) (e : ℤ) :
    Numeral.exponentPart (some (ofInt p e)) = exponentText p.marker e := by
  rw [exponentText, Numeral.exponentPart]
  by_cases h : e < 0
  · simp [ofInt, h, Numeral.signText]
  · simp [ofInt, h, Numeral.signText]

theorem power_eq {n : Numeral} {p : Precision} {e : ℤ} (h : n.exponent = some (ofInt p e)) :
    n.power = e := by
  have hvalue := (denotes_digits p e).value_eq
  rw [Numeral.power, h]
  simp only [hvalue]
  by_cases hneg : e < 0
  · rw [if_pos (by simp [ofInt, hneg])]
    omega
  · rw [if_neg (by simp [ofInt, hneg])]
    omega

end ExponentPart

/-! ## Scientific notation -/

namespace Decimal

variable {d : Decimal} {style : Style} {p : Precision} {whole places : ℕ}

/-- The digits that a picture of `count` digits shows. -/
def shownDigits (count : ℕ) (d : Decimal) : List Char := padRight count (decimal d.mantissa.natAbs)

/-- The power of ten shown with `whole` of `count` digits before the point. -/
def shownPower (count whole : ℕ) (d : Decimal) : ℤ :=
  if d.mantissa = 0 then 0
  else d.exponent - (count - (decimal d.mantissa.natAbs).length : ℕ) + (count - whole : ℕ)

/-- The numeral that scientific notation shows, its sign apart. Without a point all digits stand
in front of where it would be. -/
def scientificNumeral (style : Style) (p : Precision) (whole places : ℕ) (d : Decimal) :
    Numeral where
  whole :=
    if 0 < places ∨ style.forceDot then (d.shownDigits ((whole + places) ⊔ 1)).take whole
    else d.shownDigits ((whole + places) ⊔ 1)
  fraction := style.decimals places ((d.shownDigits ((whole + places) ⊔ 1)).drop whole)
  exponent := some (.ofInt p (d.shownPower ((whole + places) ⊔ 1) whole))
  mark := none

theorem denotes_shownDigits (count : ℕ) (d : Decimal) :
    Denotes (d.shownDigits count)
      (d.mantissa.natAbs * 10 ^ (count - (decimal d.mantissa.natAbs).length)) :=
  (Denotes.decimal d.mantissa.natAbs).append_zeros _

theorem length_shownDigits {count : ℕ} (h : (decimal d.mantissa.natAbs).length ≤ count) :
    (d.shownDigits count).length = count := by
  rw [shownDigits, length_padRight]
  exact max_eq_left h

/-- **Padding is made up for by the power.** -/
theorem shownDigits_worth (count whole : ℕ) (d : Decimal) :
    (numeralValue 10 (d.shownDigits count) : ℚ)
      * 10 ^ (d.shownPower count whole - (count - whole : ℕ)) = |d.value| := by
  rw [(denotes_shownDigits count d).value_eq, abs_value, shownPower]
  by_cases h0 : d.mantissa = 0
  · simp [h0]
  · rw [if_neg h0, add_sub_cancel_right, zpow_sub₀ (by norm_num), zpow_natCast]
    push_cast
    field_simp

theorem wellFormed_scientificNumeral (style : Style) (p : Precision) (whole places : ℕ)
    (d : Decimal) : (d.scientificNumeral style p whole places).WellFormed := by
  have hrow := denotes_shownDigits ((whole + places) ⊔ 1) d
  refine ⟨?_, ?_, ?_, ?_⟩
  · intro c hc
    rw [scientificNumeral] at hc
    split at hc
    · exact hrow.isDigit c (List.mem_of_mem_take hc)
    · exact hrow.isDigit c hc
  · intro ds hds c hc
    rw [scientificNumeral, Option.mem_def, Style.decimals] at hds
    split at hds
    · obtain rfl := Option.some.inj hds
      exact hrow.isDigit c (List.mem_of_mem_drop hc)
    · exact absurd hds (by simp)
  · intro e he c hc
    obtain rfl := Option.some.inj he
    exact (ExponentPart.denotes_digits p _).isDigit c hc
  · by_cases hpoint : 0 < places ∨ style.forceDot = true
    · exact Or.inr ((Style.decimals_ne_none_iff _).mpr hpoint)
    · left
      rw [scientificNumeral, if_neg hpoint]
      exact hrow.ne_nil

/-- A row that all stands before the point, or the one digit of a picture without digits, is
grouped as a whole. -/
theorem wholeText_take_append_drop (style : Style) {ds : List Char} (h : ds.length = whole ⊔ 1) :
    style.wholeText (ds.take whole) ++ ds.drop whole = style.wholeText ds := by
  rcases Nat.eq_zero_or_pos whole with rfl | hpos
  · obtain ⟨c, rfl⟩ := List.length_eq_one_iff.mp h
    show style.wholeText [] ++ [c] = style.wholeText [c]
    by_cases hgroup : style.groupDigits = true
    · simp [Style.wholeText, hgroup, groupThousands]
    · simp [Style.wholeText, hgroup]
  · have hle : ds.length ≤ whole := by omega
    rw [List.take_of_length_le hle, List.drop_of_length_le hle, List.append_nil]

/-- **Scientific notation lays out its numeral.** -/
theorem layout_scientificNumeral (style : Style) (p : Precision)
    (h : (decimal d.mantissa.natAbs).length ≤ (whole + places) ⊔ 1) :
    (d.scientificNumeral style p whole places).layout style (d.mantissa < 0)
      = d.scientificText style p.marker whole places := by
  have hlength := length_shownDigits h
  have htext : d.scientificText style p.marker whole places
      = style.signText (d.mantissa < 0)
        ++ style.wholeText ((d.shownDigits ((whole + places) ⊔ 1)).take whole)
        ++ style.pointText (0 < places) ++ (d.shownDigits ((whole + places) ⊔ 1)).drop whole
        ++ exponentText p.marker (d.shownPower ((whole + places) ⊔ 1) whole) := rfl
  rw [htext, Numeral.layout]
  simp only [scientificNumeral, Style.fractionPart_decimals, ExponentPart.exponentPart_ofInt,
    Numeral.markPart, List.append_nil, List.append_assoc]
  by_cases hpoint : 0 < places ∨ style.forceDot = true
  · rw [if_pos hpoint, Style.decimals_of_point hpoint, Option.getD_some]
  · -- without a point nothing stands between the two parts of the row
    have hdot : style.pointText (0 < places) = [] := if_neg (by simpa using hpoint)
    obtain ⟨rfl, -⟩ : places = 0 ∧ style.forceDot = false := by simpa [not_or] using hpoint
    rw [if_neg hpoint, Style.decimals_of_not_point hpoint, Option.getD_none, hdot,
      ← wholeText_take_append_drop style hlength]
    simp only [Nat.add_zero, List.nil_append, List.append_assoc]

/-- **What the numeral is worth:** the decimal, or ten times as much where the one digit of a
picture without digits is shown without a point. -/
theorem value_scientificNumeral (style : Style) (p : Precision)
    (h : (decimal d.mantissa.natAbs).length ≤ (whole + places) ⊔ 1) :
    (d.scientificNumeral style p whole places).value
      = if whole = 0 ∧ places = 0 ∧ style.forceDot = false then 10 * |d.value| else |d.value| := by
  have hpower := ExponentPart.power_eq (n := d.scientificNumeral style p whole places) rfl
  have hlength := length_shownDigits h
  rw [Numeral.value, hpower, ← shownDigits_worth ((whole + places) ⊔ 1) whole d]
  by_cases hpoint : 0 < places ∨ style.forceDot = true
  · rw [if_neg (by rintro ⟨-, rfl, hdot⟩; simp [hdot] at hpoint)]
    simp only [Numeral.digits, scientificNumeral, if_pos hpoint, Style.decimals_of_point hpoint,
      Option.getD_some, List.take_append_drop, List.length_drop, hlength]
  · obtain ⟨hplaces, hdot⟩ : places = 0 ∧ style.forceDot = false := by
      simpa [not_or] using hpoint
    simp only [Numeral.digits, scientificNumeral, if_neg hpoint, Style.decimals_of_not_point hpoint,
      Option.getD_none, List.append_nil, List.length_nil, Nat.cast_zero, sub_zero]
    by_cases hwhole : whole = 0
    · -- the digit is counted as one behind the point, but stands in front of it
      have hcount : (whole + places) ⊔ 1 - whole = 1 := by omega
      rw [if_pos ⟨hwhole, hplaces, hdot⟩, hcount, Nat.cast_one, zpow_sub_one₀ (by norm_num)]
      ring
    · have hcount : (whole + places) ⊔ 1 - whole = 0 := by omega
      rw [if_neg (by tauto), hcount, Nat.cast_zero, sub_zero]

end Decimal

namespace Floating

variable {p : Precision}

/-- The power of ten of what is read off is small. -/
theorem natAbs_exponent_toDecimal_le (x : Floating p) (digits : Option ℕ) :
    (x.toDecimal digits).exponent.natAbs ≤ 106 := by
  by_cases hx : x.isZero = true
  · rw [toDecimal, if_pos hx]
    exact Nat.zero_le _
  · rw [Bool.not_eq_true] at hx
    obtain ⟨t, hcount, ht⟩ := exists_digitCount p digits
    obtain ⟨steps, hscaled⟩ := exists_scaledBetween hx ht
    obtain ⟨n, r, hdigits⟩ := exists_hasDigits hx ht
    have hsteps := hscaled.steps_le
    have hpower := hscaled.power_le
    have hmem := hdigits.power_mem
    rw [toDecimal_of_digitCount hcount ht, hdigits.toDecimal_eq]
    show r.natAbs ≤ 106
    omega

/-- **A word of 32 bits holds the powers of a picture,** the one of its last digit and the one that
is shown, if it has no more than two thousand million digits or so. -/
theorem powers_of_scientificText (x : Floating p) {whole places : ℕ}
    (h : (whole + places) ⊔ 1 < 2 ^ 31 - 106) :
    let count := (whole + places) ⊔ 1
    let d := x.toDecimal (some count)
    let last := d.exponent - (count - (decimal d.mantissa.natAbs).length : ℕ)
    |last| < 2 ^ 31 ∧ |d.shownPower count whole| < 2 ^ 31 := by
  intro count d last
  have hexponent : d.exponent.natAbs ≤ 106 := x.natAbs_exponent_toDecimal_le (some count)
  have hlast : -2 ^ 31 < last ∧ last < 2 ^ 31 := by omega
  refine ⟨abs_lt.mpr hlast, ?_⟩
  rw [Decimal.shownPower, abs_lt]
  split
  · omega
  · omega

end Floating

namespace Value

variable {v : Value} {p : Precision} {x : Floating p}

/-- A number is laid out as the floating-point number it is taken for, and is zero with it. -/
theorem scientificText_of_toFloat (h : v.toFloat = .ok (float p x)) :
    (∀ style whole places,
      v.scientificText style whole places = .ok (x.scientificText style whole places)) ∧
      (x.exact = 0 ↔ v.isZero = true) := by
  cases v with
  | integer n =>
    obtain ⟨rfl, heq⟩ := Value.float.inj (Except.ok.inj h)
    obtain rfl := eq_of_heq heq
    refine ⟨fun _ _ _ => rfl, ?_⟩
    rw [Integer.exact_toFloating, Int.cast_eq_zero, isZero, Integer.isZero_eq, beq_iff_eq]
  | float q y =>
    obtain ⟨rfl, heq⟩ := Value.float.inj (Except.ok.inj h)
    obtain rfl := eq_of_heq heq
    exact ⟨fun _ _ _ => rfl, y.isZero_iff_exact_eq_zero.symm⟩
  | string s => exact absurd h (by simp [toFloat, typeMismatch])

/-- **Scientific notation denotes the digits read off,** at every width and in every style: the
text is one numeral with an exponent, it is zero exactly for zero, and it has a minus sign
exactly for a negative mantissa. The numeral is worth the decimal, but for a picture without
digits and without a point: its one digit is worth ten times too much. -/
theorem scientificText_denotes (hv : v.toFloat = .ok (float p x)) (style : Style)
    (whole places : ℕ) :
    let d := x.toDecimal (some (((whole + places) ⊔ 1) ⊓ p.digits))
    ∃ text n, v.scientificText style whole places = .ok text ∧
      Numeral.scan (bareText text) = (n, []) ∧
      (∃ e, n.exponent = some e ∧ e.marker = p ∧ e.sign ≠ none) ∧ n.mark = none ∧
      n.value = (if whole = 0 ∧ places = 0 ∧ style.forceDot = false then 10 * |d.value|
        else |d.value|) ∧
      (n.value = 0 ↔ v.isZero = true) ∧
      (text.head? = some '-' ↔ d.mantissa < 0) := by
  intro d
  obtain ⟨hlaid, hisZero⟩ := scientificText_of_toFloat hv
  -- the digits that the precision does not have are zeros of the padding
  have hd : d = x.toDecimal (some ((whole + places) ⊔ 1)) := x.toDecimal_min _
  have hlength : (decimal d.mantissa.natAbs).length ≤ (whole + places) ⊔ 1 := by
    rw [hd]
    exact x.length_decimal_toDecimal_le (by omega)
  have htext : v.scientificText style whole places
      = .ok ((d.scientificNumeral style p whole places).layout style (d.mantissa < 0)) := by
    rw [hlaid, Decimal.layout_scientificNumeral style p hlength, hd]
    rfl
  obtain ⟨hscan, hminus⟩ := Numeral.scan_bareText_layout style (d.mantissa < 0)
    (d.wellFormed_scientificNumeral style p whole places)
  have hvalue := Decimal.value_scientificNumeral style p hlength
  refine ⟨_, _, htext, hscan, ⟨_, rfl, rfl, by simp [ExponentPart.ofInt]⟩, rfl, hvalue, ?_, ?_⟩
  · obtain ⟨hzero, -, -⟩ := x.mantissa_toDecimal (some (((whole + places) ⊔ 1) ⊓ p.digits))
    rw [← hisZero, ← hzero, ← Decimal.abs_value_eq_zero_iff, hvalue]
    split
    · exact mul_eq_zero_iff_left (by norm_num)
    · exact Iff.rfl
  · rw [hminus, decide_eq_true_eq]

/-- Nines that round up to one digit more, in a style that groups digits. -/
theorem scientificText_denotes_nines :
    let v : Value := float .single (.ofInt (-99999))
    let style : Style := ⟨false, false, false, true⟩
    v.toFloat = .ok v ∧ v.scientificText style 4 0 = .ok "-1,000E+02".toList ∧
      ∃ n, Numeral.scan "1000E+02".toList = (n, []) ∧ n.value = 100000 := by
  intro v style
  have htext : v.scientificText style 4 0 = .ok "-1,000E+02".toList := by decide +kernel
  have hdecimal : (.ofInt (-99999) : Single).toDecimal (some 4) = ⟨-1000, 2⟩ := by decide +kernel
  obtain ⟨text, n, hok, hscan, -, -, hvalue, -⟩ :=
    scientificText_denotes (v := v) (p := .single) (x := .ofInt (-99999)) rfl style 4 0
  obtain rfl := Except.ok.inj (htext.symm.trans hok)
  refine ⟨rfl, htext, n, hscan, ?_⟩
  rw [hvalue, if_neg (by simp)]
  show |Decimal.value ((.ofInt (-99999) : Single).toDecimal (some 4))| = 100000
  rw [hdecimal]
  norm_num [Decimal.value]

/-- A five in a picture without digits is shown as fifty. -/
theorem scientificText_without_digits :
    let v : Value := integer ⟨5⟩
    let x : Single := .ofInt 5
    v.toFloat = .ok (float .single x) ∧
      ∃ text n, v.scientificText .write 0 0 = .ok text ∧ Numeral.scan (bareText text) = (n, []) ∧
        n.value = 50 ∧ |(x.toDecimal (some 1)).value| = 5 := by
  intro v x
  have htext : v.scientificText .write 0 0 = .ok "5E+01".toList := by decide +kernel
  have hscan : Numeral.scan (bareText "5E+01".toList)
      = (⟨['5'], none, some ⟨.single, some false, ['0', '1']⟩, none⟩, []) := by decide +kernel
  have hdecimal : x.toDecimal (some 1) = ⟨5, 0⟩ := by decide +kernel
  refine ⟨by decide, _, _, htext, hscan, ?_, ?_⟩
  · have hdigits : numeralValue 10 ['5'] = 5 := by decide
    have hpower : numeralValue 10 ['0', '1'] = 1 := by decide
    norm_num [Numeral.value, Numeral.digits, Numeral.power, hdigits, hpower]
  · rw [hdecimal]
    norm_num [Decimal.value]

end Value

end BasicNumerics
