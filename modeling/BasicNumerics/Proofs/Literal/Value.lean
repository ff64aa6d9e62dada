/-
What a numeral is worth, and what it is read as.

A numeral denotes the number of all its digits, at the power of ten that its exponent and the
digits past the point leave (`Numeral.value`).

Its digits are read one by one into a mantissa that keeps eighteen of them, and the digits of
its exponent into a size that stops growing once it is past all use. After any row of digits and
points the reader keeps the number of the row without the digits past the limit, and stands at
the power of ten of the last digit kept (`MantissaReader.Reads`); that is what one step
preserves. A digit that is dropped in front of the point moves the power, one that is dropped
behind it does not.

So a numeral is read with a loss that is known (`Numeral.ofText_text_of_wellFormed`), and with
none if its mantissa is below `10^18` (`Numeral.ofText_text`).
-/
import BasicNumerics.Proofs.Literal.Scanning
import BasicNumerics.Proofs.Text.Numerals
import Mathlib.Algebra.Order.Field.Rat

set_option autoImplicit false

namespace BasicNumerics

open Text

/-! ## The mantissa -/

namespace MantissaReader

/-- The digits past the point in a row of mantissa characters. -/
def decimals (cs : List Char) : List Char := (cs.dropWhile (· ≠ '.')).filter Char.isDigit

/-- How many digits of a row are past the limit. -/
def dropped (cs : List Char) : ℕ := significantCount (cs.filter Char.isDigit) - limit

/-- A reader that has read the row `cs`: it keeps the number of all digits without those past
the limit, at the power of ten where the last digit kept stands. -/
structure Reads (r : MantissaReader) (cs : List Char) : Prop where
  mantissa : r.mantissa = numeralValue 10 (cs.filter Char.isDigit) / 10 ^ dropped cs
  exponent : r.exponent = dropped cs - (decimals cs).length
  counted : r.significant = min (significantCount (cs.filter Char.isDigit)) limit
  pastPoint : r.pastPoint = true ↔ '.' ∈ cs

variable {r : MantissaReader} {cs : List Char} {c : Char}

theorem decimals_of_not_mem (h : '.' ∉ cs) : decimals cs = [] := by
  have hall : ∀ c ∈ cs, decide (c ≠ '.') = true := by
    intro c hc
    simpa using ne_of_mem_of_not_mem hc h
  rw [decimals, List.dropWhile_eq_nil_iff.mpr hall, List.filter_nil]

/-- The first point stands where the digits past it begin. -/
theorem decimals_append_point (cs tail : List Char) :
    decimals (cs ++ '.' :: tail) = decimals cs ++ tail.filter Char.isDigit := by
  rw [decimals, dropWhile_append_of_head (by simp), List.filter_append,
    List.filter_cons_of_neg (by decide), decimals]

theorem decimals_append_of_mem (h : '.' ∈ cs) (tail : List Char) :
    decimals (cs ++ tail) = decimals cs ++ tail.filter Char.isDigit := by
  obtain ⟨front, back, rfl⟩ := List.append_of_mem h
  rw [List.append_assoc, List.cons_append, decimals_append_point, decimals_append_point,
    List.filter_append, List.append_assoc]

theorem length_decimals_le (cs : List Char) : (decimals cs).length ≤ cs.length :=
  (List.length_filter_le _ _).trans (List.dropWhile_sublist _).length_le

theorem dropped_le_length (cs : List Char) : dropped cs ≤ cs.length :=
  (Nat.sub_le _ _).trans ((significantCount_le_length _).trans (List.length_filter_le _ _))

theorem isDigit_of_mem_filter (cs : List Char) : ∀ c ∈ cs.filter Char.isDigit, c.isDigit = true :=
  fun _ hc => (List.mem_filter.mp hc).2

theorem filter_append_digit (hc : c.isDigit = true) :
    (cs ++ [c]).filter Char.isDigit = cs.filter Char.isDigit ++ [c] := by
  rw [List.filter_append, List.filter_cons_of_pos hc, List.filter_nil]

theorem point_mem_append_digit (hc : c.isDigit = true) : '.' ∈ cs ++ [c] ↔ '.' ∈ cs := by
  have hpoint : '.' ≠ c := by
    rintro rfl
    exact absurd hc (by decide)
  rw [List.mem_append, List.mem_singleton, or_iff_left hpoint]

/-- A digit behind those that are dropped changes nothing in front of them. -/
theorem append_digit_div (m k : ℕ) {d : ℕ} (hd : d < 10) :
    (m * 10 + d) / 10 ^ (k + 1) = m / 10 ^ k := by
  have hfront : (m * 10 + d) / 10 = m := by omega
  rw [Nat.pow_succ', ← Nat.div_div_eq_div_mul, hfront]

namespace Reads

theorem length_decimals_append (h : r.Reads cs) (hc : c.isDigit = true) :
    (decimals (cs ++ [c])).length =
      if r.pastPoint then (decimals cs).length + 1 else (decimals cs).length := by
  by_cases hmem : '.' ∈ cs
  · rw [if_pos (h.pastPoint.mpr hmem), decimals_append_of_mem hmem, List.filter_cons_of_pos hc,
      List.length_append]
    rfl
  · rw [if_neg (mt h.pastPoint.mp hmem), decimals_of_not_mem hmem,
      decimals_of_not_mem (by rwa [point_mem_append_digit hc])]

/-- With room left nothing has been dropped, and the digit goes to the others. -/
theorem push_of_lt (h : r.Reads cs) (hc : c.isDigit = true) (hroom : r.significant < limit) :
    (r.push (digitValue c)).Reads (cs ++ [c]) := by
  have hcount := significantCount_append_singleton (isDigit_of_mem_filter cs) hc
  have hlt : significantCount (cs.filter Char.isDigit) < limit := by
    have := h.counted
    omega
  have hnone : dropped cs = 0 := Nat.sub_eq_zero_of_le hlt.le
  have hnone' : dropped (cs ++ [c]) = 0 := by
    rw [dropped, filter_append_digit hc, hcount]
    split_ifs <;> omega
  have hmantissa := h.mantissa
  rw [hnone, Nat.pow_zero, Nat.div_one] at hmantissa
  rw [MantissaReader.push, if_pos hroom]
  refine ⟨?_, ?_, ?_, ?_⟩
  · rw [hnone', Nat.pow_zero, Nat.div_one, filter_append_digit hc, numeralValue_append_singleton,
      ← hmantissa]
  · rw [hnone', h.length_decimals_append hc]
    simp only [h.exponent, hnone]
    split_ifs <;> push_cast <;> omega
  · rw [filter_append_digit hc, hcount, ← hmantissa]
    simp only [h.counted]
    split_ifs <;> omega
  · rw [point_mem_append_digit hc]
    exact h.pastPoint

/-- Past the limit the digit is dropped. It moves the power of ten in front of the point only,
for behind it the digit is also one that stood past the point. -/
theorem push_of_le (h : r.Reads cs) (hc : c.isDigit = true) (hfull : limit ≤ r.significant) :
    (r.push (digitValue c)).Reads (cs ++ [c]) := by
  have hdigits := isDigit_of_mem_filter cs
  have hcount := significantCount_append_singleton hdigits hc
  have hle : limit ≤ significantCount (cs.filter Char.isDigit) := by
    have := h.counted
    omega
  have hpos : numeralValue 10 (cs.filter Char.isDigit) ≠ 0 := by
    rw [ne_eq, ← significantCount_eq_zero_iff hdigits]
    exact (Nat.lt_of_lt_of_le (by decide) hle).ne'
  rw [if_pos (Or.inl (Nat.pos_of_ne_zero hpos))] at hcount
  have hone : dropped (cs ++ [c]) = dropped cs + 1 := by
    rw [dropped, filter_append_digit hc, hcount, dropped]
    omega
  have hmantissa : r.mantissa =
      numeralValue 10 ((cs ++ [c]).filter Char.isDigit) / 10 ^ dropped (cs ++ [c]) := by
    rw [hone, filter_append_digit hc, numeralValue_append_singleton,
      append_digit_div _ _ (digitValue_lt_ten hc)]
    exact h.mantissa
  have hcounted : r.significant =
      min (significantCount ((cs ++ [c]).filter Char.isDigit)) limit := by
    rw [filter_append_digit hc, hcount, h.counted]
    omega
  have hplaces := h.length_decimals_append hc
  have hpast := h.pastPoint
  rw [← point_mem_append_digit hc] at hpast
  rw [MantissaReader.push, if_neg hfull.not_gt]
  by_cases hp : r.pastPoint = true
  · rw [if_pos hp] at hplaces ⊢
    refine ⟨hmantissa, ?_, hcounted, hpast⟩
    rw [h.exponent, hone, hplaces]
    push_cast
    ring
  · rw [if_neg hp] at hplaces ⊢
    refine ⟨hmantissa, ?_, hcounted, hpast⟩
    rw [hone, hplaces]
    simp only [h.exponent]
    push_cast
    ring

/-- **One digit more.** -/
theorem push (h : r.Reads cs) (hc : c.isDigit = true) :
    (r.push (digitValue c)).Reads (cs ++ [c]) := by
  rcases Nat.lt_or_ge r.significant limit with hroom | hfull
  · exact h.push_of_lt hc hroom
  · exact h.push_of_le hc hfull

/-- **One character more.** -/
theorem step (h : r.Reads cs) (hc : Decimal.isMantissaChar c = true) :
    (r.step c).Reads (cs ++ [c]) := by
  by_cases hpoint : c = '.'
  · have hdigits : (cs ++ [c]).filter Char.isDigit = cs.filter Char.isDigit := by
      simp [hpoint]
    have hdropped : dropped (cs ++ [c]) = dropped cs := by rw [dropped, hdigits, dropped]
    have hdecimals : decimals (cs ++ [c]) = decimals cs := by
      rw [hpoint, decimals_append_point, List.filter_nil, List.append_nil]
    rw [MantissaReader.step, if_pos hpoint]
    refine ⟨?_, ?_, ?_, by simp [hpoint]⟩
    · rw [hdigits, hdropped]
      exact h.mantissa
    · rw [hdropped, hdecimals]
      exact h.exponent
    · rw [hdigits]
      exact h.counted
  · rw [MantissaReader.step, if_neg hpoint]
    exact h.push (by simpa [Decimal.isMantissaChar, hpoint] using hc)

end Reads

/-- **What a reader has read** after any row of digits and points. -/
theorem reads_foldl (cs : List Char) (h : ∀ c ∈ cs, Decimal.isMantissaChar c = true) :
    (cs.foldl MantissaReader.step {}).Reads cs := by
  -- from the last character, which is the one that is read last
  induction cs using List.reverseRecOn with
  | nil => exact ⟨rfl, rfl, rfl, by simp⟩
  | append_singleton cs c ih =>
    rw [List.foldl_append, List.foldl_cons, List.foldl_nil]
    exact (ih fun d hd => h d (by simp [hd])).step (h c (by simp))

end MantissaReader

/-! ## The exponent -/

namespace Decimal

theorem exponentSize_append_singleton (cs : List Char) (c : Char) :
    exponentSize (cs ++ [c]) =
      if exponentSize cs < 10000 then exponentSize cs * 10 + digitValue c else exponentSize cs := by
  rw [exponentSize, List.foldl_append]
  rfl

theorem exponentSize_eq {cs : List Char} (h : numeralValue 10 cs < 10 ^ 5) :
    exponentSize cs = numeralValue 10 cs := by
  induction cs using List.reverseRecOn with
  | nil => rfl
  | append_singleton cs c ih =>
    rw [numeralValue_append_singleton] at h ⊢
    have hrest : exponentSize cs = numeralValue 10 cs := ih (by omega)
    rw [exponentSize_append_singleton, hrest, if_pos (by omega)]

end Decimal

/-! ## The whole numeral -/

namespace Numeral

/-- The digits of the mantissa, from both sides of the point. -/
def digits (n : Numeral) : List Char := n.whole ++ n.fraction.getD []

/-- The power of ten that the exponent names. -/
def power (n : Numeral) : ℤ :=
  match n.exponent with
  | none => 0
  | some e => if e.sign = some true then -(numeralValue 10 e.digits : ℤ) else numeralValue 10 e.digits

/-- The number that a numeral denotes, however long it is. -/
def value (n : Numeral) : ℚ :=
  numeralValue 10 n.digits * 10 ^ (n.power - (n.fraction.getD []).length)

/-- A numeral that is read without loss. -/
structure Fits (n : Numeral) : Prop extends n.WellFormed where
  mantissa_lt : numeralValue 10 n.digits < 10 ^ MantissaReader.limit
  exponent_lt : ∀ e ∈ n.exponent, numeralValue 10 e.digits < 10 ^ 5

variable {n : Numeral}

theorem isDigit_of_mem_digits (h : n.WellFormed) : ∀ c ∈ n.digits, c.isDigit = true := by
  intro c hc
  rcases List.mem_append.mp hc with hwhole | hfraction
  · exact h.whole c hwhole
  · rcases hf : n.fraction with _ | ds
    · rw [hf] at hfraction
      exact absurd hfraction (by simp)
    · rw [hf] at hfraction
      exact h.fraction ds hf c hfraction

theorem mantissa_chars (h : n.WellFormed) :
    n.text.takeWhile Decimal.isMantissaChar = n.whole ++ fractionPart n.fraction ∧
      n.text.dropWhile Decimal.isMantissaChar = exponentPart n.exponent ++ markPart n.mark := by
  have hchars : ∀ c ∈ n.whole ++ fractionPart n.fraction, Decimal.isMantissaChar c = true := by
    intro c hc
    rcases List.mem_append.mp hc with hwhole | hfrac
    · simp [Decimal.isMantissaChar, h.whole c hwhole]
    · rcases mem_fractionPart h.fraction hfrac with rfl | hdigit
      · decide
      · simp [Decimal.isMantissaChar, hdigit]
  have htail : ∀ c ∈ (exponentPart n.exponent ++ markPart n.mark).head?,
      Decimal.isMantissaChar c = false := by
    intro c hc
    obtain ⟨hdigit, hpoint⟩ := head?_exponentPart_append n.exponent n.mark c hc
    simp [Decimal.isMantissaChar, hdigit, hpoint]
  rw [text_eq, ← List.append_assoc]
  refine ⟨?_, ?_⟩
  · rw [takeWhile_append_of_head htail, List.takeWhile_eq_self_iff.mpr hchars]
  · rw [dropWhile_append_of_head htail, List.dropWhile_eq_nil_iff.mpr hchars, List.nil_append]

theorem filter_mantissa (h : n.WellFormed) :
    (n.whole ++ fractionPart n.fraction).filter Char.isDigit = n.digits := by
  rw [List.filter_append, List.filter_eq_self.mpr h.whole, digits]
  rcases hf : n.fraction with _ | ds
  · rfl
  · have hds : ds.filter Char.isDigit = ds := List.filter_eq_self.mpr (h.fraction ds hf)
    rw [fractionPart, List.filter_cons_of_neg (by decide), hds, Option.getD_some]

theorem decimals_mantissa (h : n.WellFormed) :
    MantissaReader.decimals (n.whole ++ fractionPart n.fraction) = n.fraction.getD [] := by
  have hwhole : '.' ∉ n.whole := fun hmem => absurd (h.whole '.' hmem) (by decide)
  have hnone := MantissaReader.decimals_of_not_mem hwhole
  rcases hf : n.fraction with _ | ds
  · rw [fractionPart, List.append_nil, hnone, Option.getD_none]
  · rw [fractionPart, MantissaReader.decimals_append_point, hnone, List.nil_append,
      List.filter_eq_self.mpr (h.fraction ds hf), Option.getD_some]

theorem exponentOf_text (h : n.WellFormed)
    (hexp : ∀ e ∈ n.exponent, numeralValue 10 e.digits < 10 ^ 5) :
    Decimal.exponentOf (exponentPart n.exponent ++ markPart n.mark) = n.power := by
  rw [Decimal.exponentOf, scanExponent_exponentPart _ _ h.exponent, power]
  rcases he : n.exponent with _ | e
  · rfl
  · simp only [Decimal.exponentSize_eq (hexp e he)]

/-- **What a numeral is read as,** however many digits it has: the number of all its digits but
those past the limit, at the power of its exponent less the digits past the point, and more by
those dropped. -/
theorem ofText_text_of_wellFormed (h : n.WellFormed)
    (hexp : ∀ e ∈ n.exponent, numeralValue 10 e.digits < 10 ^ 5) :
    Decimal.ofText n.text =
      ⟨(numeralValue 10 n.digits / 10 ^ (n.significant - MantissaReader.limit) : ℕ),
        n.power - (n.fraction.getD []).length + (n.significant - MantissaReader.limit : ℕ)⟩ := by
  obtain ⟨htake, hdrop⟩ := mantissa_chars h
  have hread := MantissaReader.reads_foldl (n.whole ++ fractionPart n.fraction) (by
    rw [← htake]
    exact fun c hc => List.mem_takeWhile_imp hc)
  have hdropped : MantissaReader.dropped (n.whole ++ fractionPart n.fraction)
      = n.significant - MantissaReader.limit := by
    rw [MantissaReader.dropped, filter_mantissa h]
    rfl
  rw [Decimal.ofText, htake, hdrop, exponentOf_text h hexp]
  simp only [hread.mantissa, hread.exponent, hdropped, filter_mantissa h, decimals_mantissa h,
    Decimal.mk.injEq, true_and]
  ring

theorem Fits.significant_le (h : n.Fits) : n.significant ≤ MantissaReader.limit := by
  by_contra hlt
  rw [not_le] at hlt
  have hle := pow_significantCount_le (isDigit_of_mem_digits h.toWellFormed) (Nat.zero_lt_of_lt hlt)
  have hpow : 10 ^ MantissaReader.limit ≤ 10 ^ (n.significant - 1) :=
    Nat.pow_le_pow_right (by decide) (Nat.le_sub_one_of_lt hlt)
  exact absurd h.mantissa_lt (hpow.trans hle).not_gt

/-- **What a numeral is worth,** if it fits: the number of all its digits, at the power
of its exponent less the digits past the point. -/
theorem ofText_text (h : n.Fits) :
    Decimal.ofText n.text =
      ⟨numeralValue 10 n.digits, n.power - (n.fraction.getD []).length⟩ := by
  rw [ofText_text_of_wellFormed h.toWellFormed h.exponent_lt,
    Nat.sub_eq_zero_of_le h.significant_le, Nat.pow_zero, Nat.div_one, Nat.cast_zero, add_zero]

end Numeral

end BasicNumerics
