/-
Printed text denotes the digits computed.

A floating-point value is printed from a decimal: its digits without trailing zeros, and
the power of ten of the first one. They are laid out in one of four ways: in scientific
notation, behind the point with zeros between, on both sides of the point, or in front of
it with zeros filled up. Each layout is the text of one numeral (`Shown.numeral`), and in
each the digits stand at their own place, between zeros that change nothing (`Shows`).
From that alone it follows that the text is one literal, that it is worth the decimal,
and, with a type mark where the digits do not tell, that it has the right kind.
-/
import BasicNumerics.Printing.General
import BasicNumerics.Proofs.Floating.Digits
import BasicNumerics.Proofs.Literal.Value

set_option autoImplicit false

namespace BasicNumerics

open Text

/-! ## Trailing zeros -/

theorem exists_eq_append_zeros (ds : List Char) :
    ∃ k, ds = (ds.reverse.dropWhile (· == '0')).reverse ++ List.replicate k '0' := by
  have hzeros : ds.reverse.takeWhile (· == '0')
      = List.replicate (ds.reverse.takeWhile (· == '0')).length '0' := by
    rw [List.eq_replicate_iff]
    refine ⟨rfl, ?_⟩
    intro c hc
    have := List.mem_takeWhile_imp hc
    simpa using this
  refine ⟨(ds.reverse.takeWhile (· == '0')).length, ?_⟩
  conv_lhs => rw [← List.reverse_reverse ds,
    ← List.takeWhile_append_dropWhile (p := (· == '0')) (l := ds.reverse), hzeros,
    List.reverse_append, List.reverse_replicate]

/-- **Only zeros are stripped,** and never the last digit. -/
theorem stripZeros_spec {ds : List Char} (h : ds ≠ []) :
    ds = (stripZeros ds).1 ++ List.replicate (stripZeros ds).2 '0' ∧ (stripZeros ds).1 ≠ [] := by
  obtain ⟨k, hk⟩ := exists_eq_append_zeros ds
  unfold stripZeros
  generalize (ds.reverse.dropWhile (· == '0')).reverse = kept at hk
  rcases kept with _ | ⟨c, cs⟩
  · -- nothing but zeros: the first one is kept
    obtain ⟨j, rfl⟩ : ∃ j, k = j + 1 := by
      refine ⟨k - 1, ?_⟩
      have hpos : k ≠ 0 := by
        rintro rfl
        exact h hk
      omega
    rw [hk]
    simp [List.replicate_succ]
  · rw [hk]
    simp

/-! ## Kinds without a mark -/

namespace Numeral

variable {n : Numeral}

theorem kind_eq_double (hmark : n.mark = none)
    (h : n.hasDoubleMarker = true ∨ 7 < n.significant) : n.kind = .float .double := by
  simp only [kind, hmark]
  rw [if_pos (by simpa using h)]

theorem kind_eq_single (hmark : n.mark = none) (hmarker : n.hasDoubleMarker = false)
    (hfew : n.significant ≤ 7) (h : n.fraction ≠ none ∨ n.exponent ≠ none) :
    n.kind = .float .single := by
  simp only [kind, hmark, hmarker]
  rw [if_neg (by simpa using hfew), if_neg]
  rcases h with h | h
  · simp [h]
  · simp [h]

theorem kind_eq_integer (hmark : n.mark = none) (hfraction : n.fraction = none)
    (hexponent : n.exponent = none) (hfew : n.significant ≤ 7)
    (hsmall : numeralValue 10 n.whole ≤ 32767) : n.kind = .integer := by
  have hmarker : n.hasDoubleMarker = false := by rw [hasDoubleMarker, hexponent, Option.any_none]
  simp only [kind, hmark, hmarker, hfraction, hexponent]
  rw [if_neg (by simpa using hfew), if_pos (by simpa using hsmall)]

end Numeral

namespace Floating

namespace Shown

variable {p : Precision} {s : Shown} {style : Style}

/-! ## Digits to be shown -/

/-- Digits that a precision can show: at least one, no more than it has, the first of
several no zero, and at a place that a short exponent can name. -/
structure Proper (p : Precision) (s : Shown) : Prop where
  digits_ne_nil : s.digits ≠ []
  isDigit : ∀ c ∈ s.digits, c.isDigit = true
  length_le : s.digits.length ≤ p.digits
  head?_ne_zero : 1 < s.digits.length → s.digits.head? ≠ some '0'
  first_lt : s.first.natAbs < 10 ^ 5

/-- The number that digits at their place stand for. -/
def value (s : Shown) : ℚ := numeralValue 10 s.digits * 10 ^ (s.first + 1 - s.digits.length)

theorem proper_ofDecimal {d : Decimal} (hm : d.mantissa.natAbs < 10 ^ p.digits)
    (he : d.exponent.natAbs ≤ 106) : (ofDecimal d).Proper p := by
  obtain ⟨hsplit, hne⟩ := stripZeros_spec (decimal_ne_nil d.mantissa.natAbs)
  have hlen := length_decimal_le p.digits_pos hm
  have hdigits := p.digits_le
  have hpos := List.length_pos_iff.mpr hne
  have hlen' := congrArg List.length hsplit
  rw [List.length_append, List.length_replicate] at hlen'
  refine ⟨hne, ?_, ?_, ?_, ?_⟩
  · intro c hc
    apply isDigit_of_mem_decimal (n := d.mantissa.natAbs)
    rw [hsplit]
    exact List.mem_append_left _ hc
  · show (stripZeros (decimal d.mantissa.natAbs)).1.length ≤ p.digits
    omega
  · intro hseveral
    change 1 < (stripZeros (decimal d.mantissa.natAbs)).1.length at hseveral
    have h0 : d.mantissa.natAbs ≠ 0 := by
      intro h0
      rw [h0, decimal_of_lt (by norm_num)] at hlen' hseveral
      simp only [List.length_singleton] at hlen'
      omega
    have hhead := head?_decimal_ne_zero h0
    obtain ⟨c, cs, hcs⟩ := List.exists_cons_of_ne_nil hne
    rw [hsplit, hcs] at hhead
    show (stripZeros (decimal d.mantissa.natAbs)).1.head? ≠ some '0'
    rw [hcs]
    exact hhead
  · show (d.exponent + (stripZeros (decimal d.mantissa.natAbs)).2
      + (stripZeros (decimal d.mantissa.natAbs)).1.length - 1).natAbs < 10 ^ 5
    omega

/-- **Stripping zeros keeps the number.** -/
theorem value_ofDecimal (d : Decimal) : (ofDecimal d).value = |d.value| := by
  obtain ⟨hsplit, -⟩ := stripZeros_spec (decimal_ne_nil d.mantissa.natAbs)
  have hnumber : d.mantissa.natAbs = numeralValue 10 (stripZeros (decimal d.mantissa.natAbs)).1
      * 10 ^ (stripZeros (decimal d.mantissa.natAbs)).2 := by
    rw [← numeralValue_append_zeros, ← hsplit, numeralValue_decimal]
  rw [Decimal.abs_value, value]
  show (numeralValue 10 (stripZeros (decimal d.mantissa.natAbs)).1 : ℚ)
    * 10 ^ (d.exponent + (stripZeros (decimal d.mantissa.natAbs)).2
      + (stripZeros (decimal d.mantissa.natAbs)).1.length - 1 + 1
      - (stripZeros (decimal d.mantissa.natAbs)).1.length) = _
  generalize stripZeros (decimal d.mantissa.natAbs) = kept at hnumber
  rw [show d.exponent + kept.2 + kept.1.length - 1 + 1 - kept.1.length = d.exponent + kept.2 by ring,
    hnumber, zpow_add₀ (by norm_num), zpow_natCast]
  push_cast
  ring

/-! ## Layouts as numerals -/

def scientificNumeral (p : Precision) (s : Shown) : Numeral where
  whole := s.digits.take 1
  fraction := if 1 < s.digits.length then some (s.digits.drop 1) else none
  exponent := some ⟨p, some (decide (s.first < 0)), padLeft 2 (decimal s.first.natAbs)⟩
  mark := none

def fixedNumeral (p : Precision) (style : Style) (s : Shown) : Numeral where
  whole :=
    if s.first < 0 then []
    else if s.hasPoint then s.digits.take (s.first.toNat + 1)
    else padRight (s.first.toNat + 1) s.digits
  fraction :=
    if s.first < 0 then some (List.replicate (-s.first - 1).toNat '0' ++ s.digits)
    else if s.hasPoint then some (s.digits.drop (s.first.toNat + 1))
    else if style.forceDot then some []
    else none
  exponent := none
  mark := if style.typeSign && s.needsMark p then some (.float p) else none

/-- The numeral that is printed. -/
def numeral (p : Precision) (style : Style) (s : Shown) : Numeral :=
  if s.isScientific p then s.scientificNumeral p else s.fixedNumeral p style

theorem text_scientificNumeral (p : Precision) (s : Shown) :
    (s.scientificNumeral p).text = s.scientific p.marker := by
  have hsign : Numeral.signText (some (decide (s.first < 0)))
      = [if s.first < 0 then '-' else '+'] := by
    by_cases h : s.first < 0
    · simp [h, Numeral.signText]
    · simp [h, Numeral.signText]
  rw [Numeral.text_eq, scientific, exponentText]
  simp only [scientificNumeral, Numeral.exponentPart, Numeral.markPart, hsign]
  by_cases hlen : 1 < s.digits.length
  · simp [hlen, Numeral.fractionPart]
  · simp [hlen, Numeral.fractionPart]

/-- Digits that start behind the point have one. -/
theorem hasPoint_of_first_neg (hne : s.digits ≠ []) (h : s.first < 0) : s.hasPoint = true := by
  have := List.length_pos_iff.mpr hne
  rw [hasPoint, decide_eq_true_eq]
  omega

theorem text_fixedNumeral (hgroup : style.groupDigits = false) (hne : s.digits ≠ []) :
    (s.fixedNumeral p style).text = s.fixed style
      ++ (if style.forceDot && !s.hasPoint then ['.'] else [])
      ++ (if style.typeSign && s.needsMark p then [p.sigil] else []) := by
  have hmark : Numeral.markPart (if style.typeSign && s.needsMark p then some (.float p) else none)
      = if style.typeSign && s.needsMark p then [p.sigil] else [] := by
    by_cases h : (style.typeSign && s.needsMark p) = true
    · rw [if_pos h, if_pos h]
      rfl
    · rw [if_neg h, if_neg h]
      rfl
  have hwhole : ∀ ds, style.wholeText ds = ds := by
    intro ds
    rw [Style.wholeText, if_neg (by simp [hgroup])]
  rw [Numeral.text_eq]
  simp only [fixedNumeral, hmark, fixed, hwhole]
  by_cases hneg : s.first < 0
  · simp [hneg, hasPoint_of_first_neg hne hneg, Numeral.fractionPart, Numeral.exponentPart]
  · by_cases hpoint : s.hasPoint = true
    · simp [hneg, hpoint, Numeral.fractionPart, Numeral.exponentPart]
    · by_cases hdot : style.forceDot = true
      · simp [hneg, hpoint, hdot, Numeral.fractionPart, Numeral.exponentPart]
      · simp [hneg, hpoint, hdot, Numeral.fractionPart, Numeral.exponentPart]

/-- **What is printed is one numeral,** as long as digits are not grouped. -/
theorem text_numeral (hgroup : style.groupDigits = false) (hne : s.digits ≠ []) :
    (s.numeral p style).text = s.text p style := by
  rw [numeral, text]
  by_cases hsci : s.isScientific p = true
  · rw [if_pos hsci, if_pos hsci, text_scientificNumeral]
  · rw [if_neg hsci, if_neg hsci, text_fixedNumeral hgroup hne]

/-! ## Where the digits stand -/

/-- A numeral that shows the digits at their own place, with zeros before and after, and
no more places than the precision has. -/
structure Shows (p : Precision) (s : Shown) (before after : ℕ) (n : Numeral) : Prop
    extends n.WellFormed where
  digits : n.digits = List.replicate before '0' ++ (s.digits ++ List.replicate after '0')
  place : n.power - (n.fraction.getD []).length = s.first + 1 - s.digits.length - after
  length_le : before + s.digits.length + after ≤ p.digits
  exponent_lt : ∀ e ∈ n.exponent, numeralValue 10 e.digits < 10 ^ 5

theorem shows_scientificNumeral (h : s.Proper p) : s.Shows p 0 0 (s.scientificNumeral p) := by
  have hpos := List.length_pos_iff.mpr h.digits_ne_nil
  have hvalue : numeralValue 10 (padLeft 2 (decimal s.first.natAbs)) = s.first.natAbs := by
    rw [padLeft, numeralValue_zeros_append, numeralValue_decimal]
  refine ⟨⟨?_, ?_, ?_, ?_⟩, ?_, ?_, ?_, ?_⟩
  · intro c hc
    exact h.isDigit c (List.mem_of_mem_take hc)
  · intro ds hds c hc
    by_cases hlen : 1 < s.digits.length
    · simp only [scientificNumeral, if_pos hlen, Option.mem_def, Option.some.injEq] at hds
      rw [← hds] at hc
      exact h.isDigit c (List.mem_of_mem_drop hc)
    · simp [scientificNumeral, if_neg hlen] at hds
  · intro e he c hc
    simp only [scientificNumeral, Option.mem_def, Option.some.injEq] at he
    rw [← he, padLeft, List.mem_append] at hc
    rcases hc with hzero | hdigit
    · rw [List.eq_of_mem_replicate hzero]
      decide
    · exact isDigit_of_mem_decimal hdigit
  · left
    simp [scientificNumeral, h.digits_ne_nil]
  · simp only [Numeral.digits, scientificNumeral, List.replicate_zero, List.nil_append,
      List.append_nil]
    by_cases hlen : 1 < s.digits.length
    · rw [if_pos hlen, Option.getD_some, List.take_append_drop]
    · rw [if_neg hlen, Option.getD_none, List.append_nil, List.take_of_length_le (by omega)]
  · have hpower : (s.scientificNumeral p).power = s.first := by
      simp only [Numeral.power, scientificNumeral, hvalue]
      by_cases hneg : s.first < 0
      · rw [if_pos (by simp [hneg])]
        omega
      · rw [if_neg (by simp [hneg])]
        omega
    rw [hpower]
    simp only [scientificNumeral]
    by_cases hlen : 1 < s.digits.length
    · rw [if_pos hlen, Option.getD_some, List.length_drop]
      omega
    · rw [if_neg hlen, Option.getD_none, List.length_nil]
      omega
  · have hlen := h.length_le
    omega
  · intro e he
    simp only [scientificNumeral, Option.mem_def, Option.some.injEq] at he
    rw [← he, hvalue]
    exact h.first_lt

/-- Digits behind the point, with zeros between. -/
theorem shows_fixedNumeral_of_first_neg (h : s.Proper p) (style : Style)
    (hsci : s.isScientific p = false) (hneg : s.first < 0) :
    s.Shows p (-s.first - 1).toNat 0 (s.fixedNumeral p style) := by
  simp only [isScientific, Bool.or_eq_false_iff, decide_eq_false_iff_not] at hsci
  refine ⟨⟨?_, ?_, ?_, ?_⟩, ?_, ?_, by omega, ?_⟩
  · simp [fixedNumeral, hneg]
  · intro ds hds c hc
    simp only [fixedNumeral, if_pos hneg, Option.mem_def, Option.some.injEq] at hds
    rw [← hds, List.mem_append] at hc
    rcases hc with hzero | hdigit
    · rw [List.eq_of_mem_replicate hzero]
      decide
    · exact h.isDigit c hdigit
  · simp [fixedNumeral]
  · right
    simp [fixedNumeral, hneg]
  · simp [Numeral.digits, fixedNumeral, hneg]
  · simp only [Numeral.power, fixedNumeral, if_pos hneg, Option.getD_some, List.length_append,
      List.length_replicate]
    omega
  · simp [fixedNumeral]

/-- Digits on both sides of the point. -/
theorem shows_fixedNumeral_of_hasPoint (h : s.Proper p) (style : Style) (hneg : ¬ s.first < 0)
    (hpoint : s.hasPoint = true) : s.Shows p 0 0 (s.fixedNumeral p style) := by
  have hlen := h.length_le
  have hinside : s.first < (s.digits.length : ℤ) - 1 := by simpa [hasPoint] using hpoint
  refine ⟨⟨?_, ?_, ?_, ?_⟩, ?_, ?_, by omega, ?_⟩
  · intro c hc
    simp only [fixedNumeral, if_neg hneg, if_pos hpoint] at hc
    exact h.isDigit c (List.mem_of_mem_take hc)
  · intro ds hds c hc
    simp only [fixedNumeral, if_neg hneg, if_pos hpoint, Option.mem_def, Option.some.injEq] at hds
    rw [← hds] at hc
    exact h.isDigit c (List.mem_of_mem_drop hc)
  · simp [fixedNumeral]
  · right
    simp [fixedNumeral, hneg, hpoint]
  · simp [Numeral.digits, fixedNumeral, hneg, hpoint]
  · simp only [Numeral.power, fixedNumeral, if_neg hneg, if_pos hpoint, Option.getD_some,
      List.length_drop]
    omega
  · simp [fixedNumeral]

/-- Digits in front of the point, filled up with zeros. -/
theorem shows_fixedNumeral_of_not_hasPoint (h : s.Proper p) (style : Style)
    (hsci : s.isScientific p = false) (hneg : ¬ s.first < 0) (hpoint : ¬ s.hasPoint = true) :
    s.Shows p 0 (s.first.toNat + 1 - s.digits.length) (s.fixedNumeral p style) := by
  have hlen := h.length_le
  have hbeyond : (s.digits.length : ℤ) - 1 ≤ s.first := by simpa [hasPoint] using hpoint
  have hfraction : (s.fixedNumeral p style).fraction.getD [] = [] := by
    simp only [fixedNumeral, if_neg hneg, if_neg hpoint]
    by_cases hdot : style.forceDot = true
    · rw [if_pos hdot, Option.getD_some]
    · rw [if_neg hdot, Option.getD_none]
  simp only [isScientific, Bool.or_eq_false_iff, decide_eq_false_iff_not] at hsci
  refine ⟨⟨?_, ?_, ?_, ?_⟩, ?_, ?_, by omega, ?_⟩
  · intro c hc
    simp only [fixedNumeral, if_neg hneg, if_neg hpoint, padRight, List.mem_append] at hc
    rcases hc with hdigit | hzero
    · exact h.isDigit c hdigit
    · rw [List.eq_of_mem_replicate hzero]
      decide
  · intro ds hds c hc
    rw [Option.mem_def] at hds
    rw [hds, Option.getD_some] at hfraction
    rw [hfraction] at hc
    exact absurd hc (by simp)
  · simp [fixedNumeral]
  · left
    simp [fixedNumeral, hneg, hpoint, padRight, h.digits_ne_nil]
  · rw [Numeral.digits, hfraction]
    simp [fixedNumeral, hneg, hpoint, padRight]
  · rw [hfraction]
    simp only [Numeral.power, fixedNumeral, List.length_nil]
    omega
  · simp [fixedNumeral]

/-- **In fixed notation all places shown are within the precision,** and zeros follow the
digits only where there is no point. -/
theorem exists_shows_fixedNumeral (h : s.Proper p) (style : Style)
    (hsci : s.isScientific p = false) :
    ∃ before after, s.Shows p before after (s.fixedNumeral p style) ∧ (s.hasPoint → after = 0) := by
  by_cases hneg : s.first < 0
  · exact ⟨_, 0, shows_fixedNumeral_of_first_neg h style hsci hneg, fun _ => rfl⟩
  · by_cases hpoint : s.hasPoint = true
    · exact ⟨0, 0, shows_fixedNumeral_of_hasPoint h style hneg hpoint, fun _ => rfl⟩
    · exact ⟨0, _, shows_fixedNumeral_of_not_hasPoint h style hsci hneg hpoint,
        fun hcontra => absurd hcontra hpoint⟩

theorem exists_shows_numeral (h : s.Proper p) (style : Style) :
    ∃ before after, s.Shows p before after (s.numeral p style) := by
  by_cases hsci : s.isScientific p = true
  · rw [numeral, if_pos hsci]
    exact ⟨0, 0, shows_scientificNumeral h⟩
  · rw [numeral, if_neg hsci]
    obtain ⟨before, after, hshows, -⟩ := exists_shows_fixedNumeral h style (by simpa using hsci)
    exact ⟨before, after, hshows⟩

namespace Shows

variable {before after : ℕ} {n : Numeral}

theorem numeralValue_digits (h : s.Shows p before after n) :
    numeralValue 10 n.digits = numeralValue 10 s.digits * 10 ^ after := by
  rw [h.digits, numeralValue_zeros_append, numeralValue_append_zeros]

theorem mantissa_lt (h : s.Shows p before after n) : numeralValue 10 n.digits < 10 ^ p.digits := by
  have hlength : n.digits.length ≤ p.digits := by
    have := h.length_le
    rw [h.digits]
    simp only [List.length_append, List.length_replicate]
    omega
  have hlt := numeralValue_lt (Numeral.isDigit_of_mem_digits h.toWellFormed)
  exact hlt.trans_le (Nat.pow_le_pow_right (by norm_num) hlength)

theorem fits (h : s.Shows p before after n) : n.Fits := by
  refine ⟨h.toWellFormed, h.mantissa_lt.trans_le ?_, h.exponent_lt⟩
  exact Nat.pow_le_pow_right (by norm_num) (p.digits_le.trans (by decide))

/-- **Zeros around the digits change nothing:** the text is worth what is shown. -/
theorem value_ofText (h : s.Shows p before after n) : (Decimal.ofText n.text).value = s.value := by
  rw [Numeral.ofText_text h.fits, Decimal.value, value, h.numeralValue_digits, h.place,
    zpow_sub₀ (by norm_num) _ (after : ℤ), zpow_natCast]
  push_cast
  field_simp

theorem significant_le (h : s.Shows p before after n) : n.significant ≤ s.digits.length + after := by
  have hdigits := h.digits
  rw [Numeral.digits] at hdigits
  rw [Numeral.significant, hdigits, List.dropWhile_append_of_pos (by simp)]
  refine (length_dropWhile_le _ _).trans ?_
  simp

theorem length_le_significant (h : s.Shows p before after n) (hne : s.digits ≠ [])
    (hhead : s.digits.head? ≠ some '0') : s.digits.length ≤ n.significant := by
  have hdigits := h.digits
  rw [Numeral.digits] at hdigits
  obtain ⟨c, cs, hcs⟩ := List.exists_cons_of_ne_nil hne
  have hc : ¬ (c == '0') = true := by
    rw [hcs] at hhead
    simpa using hhead
  rw [Numeral.significant, hdigits, List.dropWhile_append_of_pos (by simp), hcs, List.cons_append,
    List.dropWhile_cons_of_neg (p := (· == '0')) hc]
  simp

end Shows

/-! ## The kind -/

/-- **With type marks a printed number keeps its precision.** -/
theorem kind_numeral (h : s.Proper p) (hmark : style.typeSign = true) :
    (s.numeral p style).kind = .float p := by
  have hlen := h.length_le
  by_cases hsci : s.isScientific p = true
  · rw [numeral, if_pos hsci]
    cases p with
    | single =>
      have hfew := (shows_scientificNumeral h).significant_le
      apply Numeral.kind_eq_single rfl rfl (hfew.trans hlen)
      right
      simp [scientificNumeral]
    | double => exact Numeral.kind_eq_double rfl (Or.inl rfl)
  · obtain ⟨before, after, hshows, hafter⟩ := exists_shows_fixedNumeral h style (by simpa using hsci)
    rw [numeral, if_neg hsci]
    by_cases hneeds : s.needsMark p = true
    · have hsome : (s.fixedNumeral p style).mark = some (.float p) := by
        simp [fixedNumeral, hmark, hneeds]
      rw [Numeral.kind, hsome]
    · have hnone : (s.fixedNumeral p style).mark = none := by
        simp [fixedNumeral, hneeds]
      cases p with
      | single =>
        -- a single without a mark has a point, and no more digits than a single has
        have hpoint : s.hasPoint = true := by simpa [needsMark] using hneeds
        have hfew := hshows.significant_le
        rw [hafter hpoint] at hfew
        apply Numeral.kind_eq_single hnone rfl (hfew.trans hlen)
        left
        by_cases hneg : s.first < 0
        · simp [fixedNumeral, hneg]
        · simp [fixedNumeral, hneg, hpoint]
      | double =>
        -- a double without a mark has more digits than a single could show
        have hmany : 7 < s.digits.length := by simpa [needsMark] using hneeds
        have hcount := hshows.length_le_significant h.digits_ne_nil (h.head?_ne_zero (by omega))
        exact Numeral.kind_eq_double hnone (Or.inr (by omega))

end Shown

variable {p : Precision}

/-! ## Printed values -/

/-- A printed text without the sign or the blank in front. -/
def unsignedText : List Char → List Char
  | '-' :: cs => cs
  | ' ' :: cs => cs
  | cs => cs

/-- The numeral that is printed for a value, its sign apart. -/
def numeral (style : Style) (x : Floating p) : Numeral :=
  (Shown.ofDecimal (x.toDecimal none)).numeral p style

theorem shown_proper (x : Floating p) : (Shown.ofDecimal (x.toDecimal none)).Proper p := by
  by_cases hx : x.isZero = true
  · have hzero : x.toDecimal none = ⟨0, 0⟩ := by rw [toDecimal, if_pos hx]
    rw [hzero]
    exact Shown.proper_ofDecimal (Nat.pow_pos (by norm_num)) (by norm_num)
  · obtain ⟨n, r, hread⟩ := exists_readOff (by simpa using hx)
    rw [hread.toDecimal_eq]
    refine Shown.proper_ofDecimal ?_ hread.power_le
    have hlt := hread.digits_lt
    by_cases hneg : x.neg = true
    · simpa [hneg] using hlt
    · simpa [hneg] using hlt

theorem text_eq_numeral {style : Style} (hgroup : style.groupDigits = false) (x : Floating p) :
    x.text style
      = style.signText ((x.toDecimal none).mantissa < 0) ++ (x.numeral style).text := by
  rw [numeral, Shown.text_numeral hgroup x.shown_proper.digits_ne_nil, text]

/-- The numeral shows the digits that were read off. -/
theorem exists_shows (style : Style) (x : Floating p) :
    ∃ before after, (Shown.ofDecimal (x.toDecimal none)).Shows p before after (x.numeral style) :=
  Shown.exists_shows_numeral x.shown_proper style

theorem value_ofText_numeral (style : Style) (x : Floating p) :
    (Decimal.ofText (x.numeral style).text).value = |(x.toDecimal none).value| := by
  obtain ⟨before, after, hshows⟩ := x.exists_shows style
  rw [hshows.value_ofText, Shown.value_ofDecimal]

theorem kind_numeral {style : Style} (hmark : style.typeSign = true) (x : Floating p) :
    (x.numeral style).kind = .float p :=
  Shown.kind_numeral x.shown_proper hmark

/-- The sign can be told from the digits behind it. -/
theorem signText_append_cons (style : Style) (neg : Bool) {c : Char}
    (hc : Literal.isDecimalStart c = true) (cs : List Char) :
    unsignedText (style.signText neg ++ c :: cs) = c :: cs
      ∧ ((style.signText neg ++ c :: cs).head? = some '-' ↔ neg = true) := by
  have hminus : c ≠ '-' := Literal.ne_of_isDecimalStart hc (by decide)
  have hblank : c ≠ ' ' := Literal.ne_of_isDecimalStart hc (by decide)
  cases neg with
  | true => exact ⟨rfl, by simp [Style.signText]⟩
  | false =>
    by_cases hspace : style.leadingSpace = true
    · simp [Style.signText, hspace, unsignedText]
    · simp [Style.signText, hspace, unsignedText, hminus, hblank]

theorem signText_append (style : Style) (neg : Bool) {n : Numeral} (h : n.WellFormed) :
    unsignedText (style.signText neg ++ n.text) = n.text
      ∧ ((style.signText neg ++ n.text).head? = some '-' ↔ neg = true) := by
  obtain ⟨c, cs, htext, hc⟩ := Numeral.exists_cons_text h
  rw [htext]
  exact signText_append_cons style neg hc cs

/-- **Printed text denotes exactly the digits computed, and is one literal of the right
kind.** In every style that does not group digits, what is printed behind the sign is one
literal with nothing left over, it is worth the decimal that was read off the value, the
minus sign is there exactly for a negative one, and with type marks the literal has the
precision of the value. -/
theorem scan?_unsignedText (x : Floating p) (style : Style) (hgroup : style.groupDigits = false) :
    ∃ l, Literal.scan? (unsignedText (x.text style)) = some (l, [])
      ∧ (Decimal.ofText (unsignedText (x.text style))).value = |(x.toDecimal none).value|
      ∧ ((x.text style).head? = some '-' ↔ (x.toDecimal none).mantissa < 0)
      ∧ (style.typeSign = true → l.spelling = .decimal (.float p)) := by
  obtain ⟨before, after, hshows⟩ := x.exists_shows style
  obtain ⟨hbare, hsign⟩ :=
    signText_append style ((x.toDecimal none).mantissa < 0) hshows.toWellFormed
  rw [decide_eq_true_eq] at hsign
  rw [text_eq_numeral hgroup, hbare]
  refine ⟨_, Numeral.scan?_text hshows.toWellFormed, x.value_ofText_numeral style, hsign, ?_⟩
  intro hmark
  rw [kind_numeral hmark]

/-- Minus a hundred in double precision, with a mark and a forced point: three digits of
which two are zeros filled in. -/
theorem scan?_unsignedText_hundred :
    let x : Double := (ofInt 100).negate
    x.text ⟨true, true, true, false⟩ = "-100.#".toList
      ∧ ∃ l, Literal.scan? "100.#".toList = some (l, []) ∧ l.spelling = .decimal (.float .double)
        ∧ (Decimal.ofText "100.#".toList).value = |(x.toDecimal none).value| := by
  intro x
  have htext : x.text ⟨true, true, true, false⟩ = "-100.#".toList := by decide +kernel
  obtain ⟨l, hscan, hvalue, -, hkind⟩ := scan?_unsignedText x ⟨true, true, true, false⟩ rfl
  rw [htext] at hscan hvalue
  exact ⟨htext, l, hscan, hkind rfl, hvalue⟩

end Floating

end BasicNumerics
