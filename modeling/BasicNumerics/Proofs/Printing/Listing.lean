/-
Which listed numbers can be typed back in.

A listing shows a number with a type mark where the digits do not tell its kind, so that
reading the line again makes the same kind of number. The text is one numeral with
perhaps a minus sign, and typing it in reads the literal and turns it (`ofText_signed`).
For integers and floating-point numbers alike the kind survives if the number without its
sign can be held, and that fails in two places.

The lowest integer has no opposite: its digits without the sign are past the sixteen-bit
range and make a single. And a single is listed with seven digits, which for the three
largest magnitudes round up to `1.701412E+38`, past what a single can hold. A double has
sixteen, and its largest magnitude rounds down.
-/
import BasicNumerics.Proofs.Printing.Denotation
import BasicNumerics.Proofs.Session.Typed

set_option autoImplicit false

namespace BasicNumerics

/-! ## Numerals with a sign -/

namespace Text

theorem trimStart_eq_self {cs : List Char} (h : ∀ c ∈ cs, isBlank c = false) :
    trimStart cs = cs := by
  rw [trimStart]
  rcases cs with _ | ⟨c, cs⟩
  · rfl
  · rw [List.dropWhile_cons_of_neg (by simp [h c (by simp)])]

theorem trim_eq_self {cs : List Char} (h : ∀ c ∈ cs, isBlank c = false) : trim cs = cs := by
  rw [trim, trimStart_eq_self h, trimStart_eq_self, List.reverse_reverse]
  intro c hc
  exact h c (List.mem_reverse.mp hc)

end Text

namespace Session

/-- **A numeral typed in** is the value of its literal, turned if a minus sign stands in
front. -/
theorem ofText_signed (s : Session) (neg : Bool) {n : Numeral} (h : n.WellFormed) :
    s.ofText (String.ofList (Style.list.signText neg ++ n.text)) =
      (s.ofLiteral ⟨.decimal n.kind, n.text⟩).andThen fun v =>
        if neg then s.negate v else .done v := by
  have hvisible : ∀ c ∈ n.text, Text.isBlank c = false := by
    intro c hc
    exact Text.isBlank_eq_false (Literal.visible_of_isPart (Numeral.isPart_of_mem_text h c hc))
  have htrim : Text.trim (Style.list.signText neg ++ n.text) = Style.list.signText neg ++ n.text := by
    apply Text.trim_eq_self
    intro c hc
    rcases List.mem_append.mp hc with hsign | hc
    · cases neg with
      | true =>
        rw [show Style.list.signText true = ['-'] from rfl, List.mem_singleton] at hsign
        rw [hsign]
        decide
      | false => exact absurd hsign (by simp [Style.signText, Style.list])
    · exact hvisible c hc
  have hsplit : splitSign (Style.list.signText neg ++ n.text) = (neg, n.text) := by
    cases neg with
    | true =>
      show (true, Text.trimStart n.text) = (true, n.text)
      rw [Text.trimStart_eq_self hvisible]
    | false =>
      obtain ⟨c, cs, htext, hc⟩ := Numeral.exists_cons_text h
      have hminus : c ≠ '-' := Literal.ne_of_isDecimalStart hc (by decide)
      have hplus : c ≠ '+' := Literal.ne_of_isDecimalStart hc (by decide)
      rw [htext]
      simp [Style.signText, Style.list, splitSign, hminus, hplus]
  have hscan : Literal.scan? (splitSign (Text.trim
      (String.ofList (Style.list.signText neg ++ n.text)).toList)).2
        = some (⟨.decimal n.kind, n.text⟩, []) := by
    rw [String.toList_ofList, htrim, hsplit]
    exact Numeral.scan?_text h
  rw [ofText_of_scan? s hscan, String.toList_ofList, htrim, hsplit]

end Session

/-! ## Listed integers -/

namespace Integer

/-- The numeral of a listed integer, its sign apart. -/
def numeral (n : Integer) : Numeral :=
  ⟨Text.decimal (n.toInt .signed).natAbs, none, none, none⟩

variable {n : Integer}

theorem wellFormed_numeral (n : Integer) : n.numeral.WellFormed := by
  refine ⟨?_, ?_, ?_, Or.inl (Text.decimal_ne_nil _)⟩
  · intro c hc
    exact Text.isDigit_of_mem_decimal hc
  · intro ds hds
    exact absurd hds (by simp [numeral])
  · intro e he
    exact absurd he (by simp [numeral])

theorem text_list (n : Integer) :
    n.text .list = Style.list.signText n.isNegative ++ n.numeral.text := by
  rw [text, Numeral.text_eq]
  simp [numeral, Style.wholeText, Style.list, Numeral.fractionPart, Numeral.exponentPart,
    Numeral.markPart]

/-- Every word but the lowest has a magnitude in the sixteen-bit range. -/
theorem natAbs_le (h : n.word ≠ 0x8000) : (n.toInt .signed).natAbs ≤ 32767 := by
  have hlo : -2 ^ 15 ≤ n.word.toInt := n.word.le_toInt
  have hhi : n.word.toInt < 2 ^ 15 := n.word.toInt_lt
  have hne : n.word.toInt ≠ -2 ^ 15 := by
    intro heq
    apply h
    apply BitVec.eq_of_toInt_eq
    rw [heq]
    decide
  show n.word.toInt.natAbs ≤ 32767
  omega

theorem ofText_numeral (h : n.word ≠ 0x8000) :
    Decimal.ofText n.numeral.text = ⟨(n.toInt .signed).natAbs, 0⟩ := by
  have hvalue : Text.numeralValue 10 n.numeral.digits = (n.toInt .signed).natAbs := by
    rw [Numeral.digits, numeral, Option.getD_none, List.append_nil, Text.numeralValue_decimal]
  have hsmall := natAbs_le h
  have hfits : n.numeral.Fits := by
    refine ⟨n.wellFormed_numeral, ?_, ?_⟩
    · rw [hvalue]
      exact lt_of_le_of_lt hsmall (by decide)
    · intro e he
      exact absurd he (by simp [numeral])
  rw [Numeral.ofText_text hfits, hvalue]
  rfl

theorem kind_numeral (h : n.word ≠ 0x8000) : n.numeral.kind = .integer := by
  have hsmall := natAbs_le h
  have hlen := Text.length_decimal_le (k := 5) (by norm_num)
    (show (n.toInt .signed).natAbs < 10 ^ 5 by omega)
  apply Numeral.kind_eq_integer rfl rfl rfl
  · refine (length_dropWhile_le _ _).trans ?_
    simp only [numeral, Option.getD_none, List.append_nil]
    omega
  · rw [numeral, Text.numeralValue_decimal]
    exact hsmall

/-- The digits of a word are read as a word. -/
theorem ofLiteral_numeral (h : n.word ≠ 0x8000) :
    Value.ofLiteral ⟨.decimal .integer, n.numeral.text⟩
      = .ok (.integer ⟨BitVec.ofInt 16 (n.toInt .signed).natAbs⟩) := by
  have hsmall := natAbs_le h
  have hfit : (n.toInt .signed).natAbs < 2 ^ Precision.double.manBits :=
    lt_of_le_of_lt hsmall (by decide)
  have hword : ofInt .signed (n.toInt .signed).natAbs
      = .ok ⟨BitVec.ofInt 16 (n.toInt .signed).natAbs⟩ := by
    rw [ofInt, if_neg]
    show ¬ (((n.toInt .signed).natAbs : ℤ) < -32768 ∨ (32767 : ℤ) < (n.toInt .signed).natAbs)
    omega
  simp only [Value.ofLiteral, ofText_numeral h]
  rw [Floating.ofDecimal_natCast hfit]
  simp only [Floating.toInteger, Floating.toInt?_ofInt hfit, hword]
  rfl

/-- A word that is not negative has an opposite. -/
theorem negate_ofNat {m : ℕ} (h : m ≤ 32767) :
    negate ⟨BitVec.ofInt 16 m⟩ = .ok ⟨~~~(BitVec.ofInt 16 m) + 1⟩ := by
  rw [negate, if_neg]
  intro hlow
  have hint := congrArg BitVec.toInt hlow
  have hlowest : (0x8000 : BitVec 16).toInt = -32768 := by decide
  rw [BitVec.toInt_ofInt_eq_self (by norm_num) (by omega) (by omega), hlowest] at hint
  omega

/-- **A listed integer is an integer again,** if it is not the lowest. -/
theorem exists_ofText_text_list (s : Session) (h : n.word ≠ 0x8000) :
    ∃ m, s.ofText ((Value.integer n).text .list) = .done (.integer m) := by
  have hread : s.ofLiteral ⟨.decimal n.numeral.kind, n.numeral.text⟩
      = .done (.integer ⟨BitVec.ofInt 16 (n.toInt .signed).natAbs⟩) := by
    rw [Session.ofLiteral, kind_numeral h, ofLiteral_numeral h]
    rfl
  rw [Value.text, text_list, Session.ofText_signed s _ n.wellFormed_numeral, hread,
    Run.done_andThen]
  by_cases hneg : n.isNegative = true
  · rw [if_pos hneg, Session.negate, Value.negate, negate_ofNat (natAbs_le h)]
    exact ⟨_, rfl⟩
  · rw [if_neg hneg]
    exact ⟨_, rfl⟩

end Integer

/-! ## Listed floating-point numbers -/

namespace Floating

variable {p : Precision}

/-- **A listed floating-point number keeps its precision,** if its digits stay in
range. -/
theorem exists_ofText_text_list (s : Session) (x : Floating p)
    (h : |(x.toDecimal none).value| ≤ p.topDigits * 10 ^ (39 - p.digits)) :
    ∃ y, s.ofText ((Value.float p x).text .list) = .done (.float p y) := by
  obtain ⟨before, after, hshows⟩ := x.exists_shows .list
  have htext := Numeral.ofText_text hshows.fits
  have hvalue := x.value_ofText_numeral .list
  rw [htext] at hvalue
  have hmantissa := hshows.mantissa_lt.trans p.ten_pow_digits_lt
  obtain ⟨y, hy⟩ := exists_ofDecimal_eq_ok (p := p) hmantissa (hvalue.trans_le h)
  have hread : s.ofLiteral ⟨.decimal (x.numeral .list).kind, (x.numeral .list).text⟩
      = .done (.float p y) := by
    rw [Session.ofLiteral, kind_numeral rfl, Value.ofLiteral]
    simp only [htext, hy]
    rfl
  rw [Value.text, text_eq_numeral rfl, Session.ofText_signed s _ hshows.toWellFormed, hread,
    Run.done_andThen]
  by_cases hneg : (x.toDecimal none).mantissa < 0
  · rw [if_pos (by simpa using hneg)]
    exact ⟨y.negate, rfl⟩
  · rw [if_neg (by simpa using hneg)]
    exact ⟨y, rfl⟩

/-- **Digits stay in range** if no value up to some bound rounds past it. -/
theorem abs_value_le_topDigits {x : Floating p} {bound : ℚ} (hx : x.unpack.magnitude ≤ bound)
    (hbound : p.stepRatio ^ (44 - p.digits) * bound + 10 ^ (39 - p.digits) / 2
      < (p.topDigits + 1) * 10 ^ (39 - p.digits)) :
    |(x.toDecimal none).value| ≤ p.topDigits * 10 ^ (39 - p.digits) := by
  by_cases hzero : x.isZero = true
  · rw [toDecimal, if_pos hzero, Decimal.abs_value]
    simp only [Int.natAbs_zero, Nat.cast_zero, zero_mul]
    positivity
  · obtain ⟨n, r, hread⟩ := exists_readOff (by simpa using hzero)
    have hratio : (0 : ℚ) ≤ p.stepRatio ^ (44 - p.digits) :=
      pow_nonneg (zero_le_one.trans p.one_le_stepRatio) _
    have hscaled := mul_le_mul_of_nonneg_left hx hratio
    have hworth := hread.worth_le_topDigits (by linarith)
    rw [hread.toDecimal_eq, Decimal.abs_value]
    by_cases hneg : x.neg = true
    · simpa [hneg] using hworth
    · simpa [hneg] using hworth

/-- Whether the magnitude is one of the three that seven digits round up past the
largest. -/
def isTop (x : Single) : Bool := x.exponent == 255 && 2 ^ 23 - 3 ≤ x.fraction

theorem magnitude_le_of_not_isTop {x : Single} (h : x.isTop = false) :
    x.unpack.magnitude ≤ (2 ^ 24 - 4) * 2 ^ 103 := by
  have hsig : (x.significand : ℚ) ≤ 2 ^ 24 := by exact_mod_cast x.significand_lt.le
  have hexp := x.exponent_lt
  have hmag := x.magnitude_unpack
  rw [hmag]
  by_cases htop : x.exponent = 255
  · have hfraction : x.fraction < 2 ^ 23 - 3 := by
      simpa [isTop, htop] using h
    have hsig' : x.significand ≤ 2 ^ 24 - 4 := by
      show 2 ^ 23 + x.fraction ≤ 2 ^ 24 - 4
      omega
    have hsig'' : (x.significand : ℚ) ≤ 2 ^ 24 - 4 := by
      have : ((x.significand : ℕ) : ℚ) ≤ ((2 ^ 24 - 4 : ℕ) : ℚ) := by exact_mod_cast hsig'
      norm_num at this ⊢
      exact this
    have hunit : (2 : ℚ) ^ ((x.exponent : ℤ) - 128 - Precision.single.manBits) = 2 ^ 103 := by
      rw [htop]
      norm_num [Precision.manBits]
    rw [hunit]
    exact mul_le_mul_of_nonneg_right hsig'' (by positivity)
  · have hunit : (2 : ℚ) ^ ((x.exponent : ℤ) - 128 - Precision.single.manBits) ≤ 2 ^ (102 : ℤ) := by
      apply zpow_le_zpow_right₀ (by norm_num)
      show (x.exponent : ℤ) - 128 - (24 : ℕ) ≤ 102
      omega
    calc (x.significand : ℚ) * 2 ^ ((x.exponent : ℤ) - 128 - Precision.single.manBits)
        ≤ 2 ^ 24 * 2 ^ (102 : ℤ) := mul_le_mul hsig hunit (by positivity) (by positivity)
      _ ≤ (2 ^ 24 - 4) * 2 ^ 103 := by norm_num

theorem abs_value_le_of_not_isTop {x : Single} (h : x.isTop = false) :
    |(x.toDecimal none).value|
      ≤ Precision.single.topDigits * 10 ^ (39 - Precision.single.digits) := by
  apply abs_value_le_topDigits (magnitude_le_of_not_isTop h)
  norm_num [Precision.topDigits, Precision.stepRatio, Precision.width, Precision.manBits,
    Precision.digits]

theorem abs_value_le_double (x : Double) :
    |(x.toDecimal none).value|
      ≤ Precision.double.topDigits * 10 ^ (39 - Precision.double.digits) := by
  apply abs_value_le_topDigits x.magnitude_lt_two_pow.le
  norm_num [Precision.topDigits, Precision.stepRatio, Precision.width, Precision.manBits,
    Precision.digits]

/-- **The three largest singles are listed past the range,** with either sign. -/
theorem ofText_text_list_of_isTop (doubleMath : Bool) {x : Single} (h : x.isTop = true) :
    (Session.ofText ⟨.strict, doubleMath⟩ ((Value.float .single x).text .list)).result
      = .error (.ofCause .overflow) := by
  have hthree : x = ⟨x.neg, 2 ^ 23 - 3, 255, by decide, by decide⟩
      ∨ x = ⟨x.neg, 2 ^ 23 - 2, 255, by decide, by decide⟩
      ∨ x = ⟨x.neg, 2 ^ 23 - 1, 255, by decide, by decide⟩ := by
    obtain ⟨neg, fraction, exponent, hfraction, hexponent⟩ := x
    have hhi : fraction < 2 ^ 23 := hfraction
    simp only [isTop, Bool.and_eq_true, beq_iff_eq, decide_eq_true_eq] at h
    simp only [mk.injEq, true_and]
    omega
  generalize x.neg = neg at hthree
  rcases hthree with rfl | rfl | rfl <;> cases neg <;> cases doubleMath <;>
    (unfold Session.ofText; decide +kernel)

end Floating

namespace Value

/-! ## Which numbers can be typed back in -/

/-- Whether the listing of a number is one of its kind: all are, but for the lowest
integer and the three largest singles of either sign. -/
def isListable : Value → Bool
  | integer n => n.word != 0x8000
  | float .single x => !x.isTop
  | float .double _ => true
  | string _ => false

/-- The digits of the lowest integer make a single. -/
theorem ofText_text_list_lowest (doubleMath : Bool) :
    (Session.ofText ⟨.strict, doubleMath⟩ ((integer ⟨0x8000⟩).text .list)).result
      = .ok (float .single (.ofInt (-32768))) := by
  cases doubleMath <;> (unfold Session.ofText; decide +kernel)

theorem exists_of_isListable (s : Session) {v : Value} (h : v.isListable = true) :
    ∃ w, s.ofText (v.text .list) = .done w ∧ w.kind = v.kind := by
  cases v with
  | integer n =>
    obtain ⟨m, hm⟩ := Integer.exists_ofText_text_list s (n := n) (by simpa [isListable] using h)
    exact ⟨_, hm, rfl⟩
  | float p x =>
    cases p with
    | single =>
      have htop : x.isTop = false := by simpa [isListable] using h
      obtain ⟨y, hy⟩ := Floating.exists_ofText_text_list s x (Floating.abs_value_le_of_not_isTop htop)
      exact ⟨_, hy, rfl⟩
    | double =>
      obtain ⟨y, hy⟩ := Floating.exists_ofText_text_list s x x.abs_value_le_double
      exact ⟨_, hy, rfl⟩
  | string t => exact absurd h (by simp [isListable])

/-- **A listed number can be typed back in** as a number of its kind, in a strict session,
exactly if it is neither the lowest integer nor one of the three largest singles of
either sign. -/
theorem ofText_text_list_iff (doubleMath : Bool) (v : Value) (hnumber : v.kind ≠ .string) :
    (∃ w, (Session.ofText ⟨.strict, doubleMath⟩ (v.text .list)).result = .ok w ∧ w.kind = v.kind)
      ↔ v.isListable = true := by
  constructor
  · rintro ⟨w, hread, hkind⟩
    by_contra hnot
    cases v with
    | integer n =>
      obtain ⟨word⟩ := n
      obtain rfl : word = 0x8000 := by simpa [isListable] using hnot
      rw [ofText_text_list_lowest, Except.ok.injEq] at hread
      rw [← hread] at hkind
      exact absurd hkind (by decide)
    | float p x =>
      cases p with
      | single =>
        rw [Floating.ofText_text_list_of_isTop doubleMath (by simpa [isListable] using hnot)] at hread
        exact absurd hread (by simp)
      | double => exact absurd hnot (by simp [isListable])
    | string t => exact hnumber rfl
  · intro hlist
    obtain ⟨w, hread, hkind⟩ := exists_of_isListable ⟨.strict, doubleMath⟩ hlist
    exact ⟨w, by rw [hread]; rfl, hkind⟩

/-- The largest single that is listed in range. -/
theorem ofText_text_list_iff_fourth_single :
    let v : Value := float .single ⟨true, 2 ^ 23 - 4, 255, by decide, by decide⟩
    v.kind ≠ .string ∧ v.text .list = "-1.701411E+38"
      ∧ ∃ w, (Session.ofText ⟨.strict, false⟩ (v.text .list)).result = .ok w ∧ w.kind = v.kind := by
  intro v
  have hnumber : v.kind ≠ .string := by decide
  exact ⟨hnumber, by decide +kernel, (ofText_text_list_iff false v hnumber).mpr (by decide)⟩

/-- Not every listed number can be typed back in: `-32768` is listed without a mark, and
comes back as a single. -/
theorem not_forall_ofText_text_list :
    ¬ ∀ v : Value, v.kind ≠ .string →
      ∃ w, (Session.ofText ⟨.strict, false⟩ (v.text .list)).result = .ok w ∧ w.kind = v.kind := by
  intro hall
  obtain ⟨w, hread, hkind⟩ := hall (integer ⟨0x8000⟩) (by decide)
  rw [ofText_text_list_lowest, Except.ok.injEq] at hread
  rw [← hread] at hkind
  exact absurd hkind (by decide)

end Value

end BasicNumerics
