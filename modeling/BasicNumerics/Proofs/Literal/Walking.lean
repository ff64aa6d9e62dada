/-
A literal walked over character by character.

The scanner takes a decimal literal part by part. A walk takes it one character at a time: it
keeps the text so far, counts the digits that matter and raises a flag at the point and one at the
letter of the exponent; a mark ends it, and else the flags and the next character tell whether it
goes on. The literal is then told by the count and the flags alone.

Both find the same literal (`walk_eq_scan?`). What the walk goes on with is what the next part can
take, so it runs through the parts in order (`walk_eq_conclude`), and what it has counted at the end
is what the parts have (`digits_foldl_text`). It counts in 32 bits: the texts must be short enough
for that.
-/
import BasicNumerics.Proofs.Literal.Grammar

set_option autoImplicit false

namespace BasicNumerics

open Text

namespace Literal

/-! ## The walk -/

/-- A decimal literal being walked over: its text so far, how many digits count, and whether the
point or the letter of an exponent has been passed. -/
structure Walker where
  text : List Char := []
  digits : Int32 := 0
  pastPoint : Bool := false
  inExponent : Bool := false
deriving DecidableEq, Repr

namespace Walker

/-- Takes one more character. Zeros in front do not count, and the letter for double precision
counts as eight digits. -/
def take (w : Walker) (c : Char) : Walker :=
  let counts := !w.inExponent && c.isDigit && (0 < w.digits || c != '0')
  let digits := if counts then w.digits + 1 else w.digits
  { text := w.text ++ [c]
    digits := if Precision.ofMarker? c = some .double then digits + 8 else digits
    pastPoint := w.pastPoint || c == '.'
    inExponent := w.inExponent || (Precision.ofMarker? c).isSome }

/-- Whether the literal goes on with the next character. A sign may only follow the letter of the
exponent. -/
def goesOn (w : Walker) (afterLetter : Bool) (next : Char) : Bool :=
  afterLetter && (next == '+' || next == '-')
    || next.isDigit
    || !w.pastPoint && !w.inExponent && next == '.'
    || !w.inExponent && (Precision.ofMarker? next).isSome
    || (NumberKind.ofSigil? next).isSome

/-- The literal of a text that has no mark. -/
def finish (w : Walker) : Literal :=
  if 7 < w.digits then ⟨.decimal (.float .double), w.text⟩
  else if !w.inExponent && !w.pastPoint && numeralValue 10 w.text ≤ 32767 then
    ⟨.decimal .integer, w.text⟩
  else ⟨.decimal (.float .single), w.text⟩

/-- Walks over a text one character at a time: takes the character as a capital letter, stops
behind a mark, and else looks at the next one to see whether to go on. -/
def walk (w : Walker) : List Char → Literal × List Char
  | [] => (w.finish, [])
  | c :: cs =>
    let taken := w.take c.toUpper
    match NumberKind.ofSigil? c.toUpper with
    | some k => (⟨.decimal k, taken.text⟩, cs)
    | none =>
      if cs.head?.any fun next => taken.goesOn (Precision.ofMarker? c.toUpper).isSome next.toUpper
      then taken.walk cs
      else (taken.finish, cs)

/-! ## One character -/

/-- What the walk does behind a character, the letter of an exponent or another one. -/
def proceed (w : Walker) (afterLetter : Bool) (cs : List Char) : Literal × List Char :=
  if cs.head?.any fun next => w.goesOn afterLetter next.toUpper then w.walk cs else (w.finish, cs)

variable {w : Walker} {b : Bool} {c : Char} {cs : List Char}

theorem goesOn_toUpper (w : Walker) (b : Bool) (c : Char) :
    w.goesOn b c.toUpper = w.goesOn b c := by
  have hascii : ∀ past inside b : Bool, ∀ k < 128,
      goesOn ⟨[], 0, past, inside⟩ b (Char.ofNat k).toUpper =
        goesOn ⟨[], 0, past, inside⟩ b (Char.ofNat k) := by
    decide +kernel
  exact apply_toUpper (f := w.goesOn b) (hascii w.pastPoint w.inExponent b) c

theorem walk_cons (h : NumberKind.ofSigil? c.toUpper = none) :
    w.walk (c :: cs) = (w.take c.toUpper).proceed (Precision.ofMarker? c.toUpper).isSome cs := by
  rw [walk, h]
  rfl

theorem proceed_cons (h : w.goesOn b c.toUpper = true) :
    w.proceed b (c :: cs) = w.walk (c :: cs) := by
  rw [proceed, List.head?_cons, Option.any_some, if_pos h]

/-- A character that the walk goes on with, and that is not a mark, is taken. -/
theorem proceed_take (h : w.goesOn b c.toUpper = true)
    (hmark : NumberKind.ofSigil? c.toUpper = none) :
    w.proceed b (c :: cs) =
      (w.take c.toUpper).proceed (Precision.ofMarker? c.toUpper).isSome cs := by
  rw [proceed_cons h, walk_cons hmark]

theorem notMark_of_isDigit (h : c.isDigit = true) :
    NumberKind.ofSigil? c = none ∧ Precision.ofMarker? c = none := by
  have hascii := lt_of_isPart (isPart_of_isDigit h)
  revert h
  exact forall_ascii (P := fun c => c.isDigit = true →
    NumberKind.ofSigil? c = none ∧ Precision.ofMarker? c = none) (by decide +kernel) hascii

theorem proceed_digit (h : c.isDigit = true) :
    w.proceed b (c :: cs) = (w.take c).proceed false cs := by
  have hupper := toUpper_of_isDigit h
  obtain ⟨hmark, hletter⟩ := notMark_of_isDigit h
  have hgo : w.goesOn b c.toUpper = true := by
    rw [hupper]
    simp [goesOn, h]
  rw [proceed_take hgo (by rw [hupper, hmark]), hupper, hletter]
  rfl

/-- **A row of digits** is taken whole. -/
theorem proceed_digits (w : Walker) (cs : List Char) :
    w.proceed false cs =
      ((cs.takeWhile Char.isDigit).foldl take w).proceed false (cs.dropWhile Char.isDigit) := by
  induction cs generalizing w with
  | nil => rfl
  | cons c cs ih =>
    by_cases hc : c.isDigit = true
    · rw [List.takeWhile_cons_of_pos hc, List.dropWhile_cons_of_pos hc, proceed_digit hc, ih]
      rfl
    · rw [List.takeWhile_cons_of_neg hc, List.dropWhile_cons_of_neg hc]
      rfl

theorem proceed_point (hpoint : w.pastPoint = false) (hexp : w.inExponent = false) :
    w.proceed b ('.' :: cs) = (w.take '.').proceed false cs := by
  have hgo : w.goesOn b '.' = true := by simp [goesOn, hpoint, hexp]
  exact proceed_take hgo rfl

theorem proceed_letter {p : Precision} (hexp : w.inExponent = false)
    (h : Precision.ofMarker? c = some p) :
    w.proceed b (c :: cs) = (w.take p.marker).proceed true cs := by
  have hupper := Numeral.toUpper_of_ofMarker? h
  have hletter : Precision.ofMarker? p.marker = some p := by cases p <;> rfl
  have hmark : NumberKind.ofSigil? p.marker = none := by cases p <;> rfl
  have hgo : w.goesOn b c.toUpper = true := by
    rw [hupper]
    simp [goesOn, hexp, hletter]
  rw [proceed_take hgo (by rw [hupper, hmark]), hupper, hletter]
  rfl

/-- The sign of an exponent, if there is one. -/
theorem proceed_sign (w : Walker) (cs : List Char) :
    w.proceed true cs =
      ((Numeral.signText (Numeral.scanSign cs).1).foldl take w).proceed false
        (Numeral.scanSign cs).2 := by
  unfold Numeral.scanSign
  split
  · exact proceed_take (by simp [goesOn]) rfl
  · exact proceed_take (by simp [goesOn]) rfl
  · next hminus hplus =>
    rcases cs with _ | ⟨c, cs⟩
    · rfl
    · have hsign : (c == '+' || c == '-') = false := by
        simp only [Bool.or_eq_false_iff, beq_eq_false_iff_ne]
        exact ⟨fun hc => hplus cs (by rw [hc]), fun hc => hminus cs (by rw [hc])⟩
      have hgo : w.goesOn true c = w.goesOn false c := by
        rw [goesOn, goesOn, hsign, Bool.and_false, Bool.and_false]
      simp only [proceed, List.head?_cons, Option.any_some, goesOn_toUpper, hgo]
      rfl

/-! ## Part by part -/

/-- The literal of a walk that ends, with a mark or without one. -/
def conclude (w : Walker) (mark : Option NumberKind × List Char) : Literal × List Char :=
  match mark.1 with
  | some k => (⟨.decimal k, w.text ++ [k.sigil]⟩, mark.2)
  | none => (w.finish, mark.2)

/-- Where neither a digit nor a point nor an exponent can follow, the literal ends with a mark or
without one. -/
theorem proceed_mark (h : ∀ c ∈ cs.head?, c.isDigit = false ∧
      (!w.pastPoint && !w.inExponent && c == '.') = false ∧
      (!w.inExponent && (Precision.ofMarker? c).isSome) = false) :
    w.proceed false cs = w.conclude (Numeral.scanMark cs) := by
  rcases cs with _ | ⟨c, cs⟩
  · rfl
  · obtain ⟨hdigit, hpoint, hletter⟩ := h c rfl
    have hgo : w.goesOn false c = (NumberKind.ofSigil? c).isSome := by
      rw [goesOn, hdigit, hpoint, hletter]
      rfl
    rw [proceed, List.head?_cons, Option.any_some, goesOn_toUpper, hgo, Numeral.scanMark]
    rcases hmark : NumberKind.ofSigil? c with _ | k
    · rfl
    · have hsigil := NumberKind.sigil_of_ofSigil? hmark
      have hupper : c.toUpper = c := by
        rw [← hsigil]
        rcases k with _ | p
        · rfl
        · cases p <;> rfl
      rw [if_pos (by rfl), walk, hupper, hmark]
      simp [conclude, take, hsigil]

theorem text_foldl_take (t : List Char) (w : Walker) : (t.foldl take w).text = w.text ++ t := by
  induction t generalizing w with
  | nil => rw [List.foldl_nil, List.append_nil]
  | cons c t ih => rw [List.foldl_cons, ih, take, List.append_assoc, List.singleton_append]

theorem pastPoint_foldl_take (t : List Char) (w : Walker) :
    (t.foldl take w).pastPoint = (w.pastPoint || t.any (· == '.')) := by
  induction t generalizing w with
  | nil => rw [List.foldl_nil, List.any_nil, Bool.or_false]
  | cons c t ih => rw [List.foldl_cons, ih, take, List.any_cons, Bool.or_assoc]

theorem inExponent_foldl_take (t : List Char) (w : Walker) :
    (t.foldl take w).inExponent =
      (w.inExponent || t.any fun c => (Precision.ofMarker? c).isSome) := by
  induction t generalizing w with
  | nil => rw [List.foldl_nil, List.any_nil, Bool.or_false]
  | cons c t ih => rw [List.foldl_cons, ih, take, List.any_cons, Bool.or_assoc]

/-- Digits raise no flag. -/
theorem flags_foldl_digits {t : List Char} (h : ∀ c ∈ t, c.isDigit = true) (w : Walker) :
    (t.foldl take w).pastPoint = w.pastPoint ∧ (t.foldl take w).inExponent = w.inExponent := by
  have hpoint : t.any (· == '.') = false := by
    rw [List.any_eq_false]
    rintro c hc hpoint
    have hdigit := h c hc
    rw [beq_iff_eq.mp hpoint] at hdigit
    exact absurd hdigit (by decide)
  have hletter : t.any (fun c => (Precision.ofMarker? c).isSome) = false := by
    rw [List.any_eq_false]
    intro c hc
    rw [(notMark_of_isDigit (h c hc)).2]
    decide
  rw [pastPoint_foldl_take, inExponent_foldl_take, hpoint, hletter, Bool.or_false, Bool.or_false]
  exact ⟨rfl, rfl⟩

theorem head?_dropWhile_isDigit (cs : List Char) :
    ∀ c ∈ (cs.dropWhile Char.isDigit).head?, c.isDigit = false := by
  intro c hc
  have hstop := List.head?_dropWhile_not Char.isDigit cs
  rw [Option.mem_def.mp hc] at hstop
  exact hstop

/-- **The exponent and the mark,** where no more of the mantissa follows. -/
theorem proceed_exponent (hexp : w.inExponent = false)
    (h : ∀ c ∈ cs.head?, c.isDigit = false ∧ (!w.pastPoint && c == '.') = false) :
    w.proceed false cs =
      ((Numeral.exponentPart (Numeral.scanExponent cs).1).foldl take w).conclude
        (Numeral.scanMark (Numeral.scanExponent cs).2) := by
  rcases cs with _ | ⟨c, cs⟩
  · rfl
  · rcases hletter : Precision.ofMarker? c with _ | p
    · have hscan : Numeral.scanExponent (c :: cs) = (none, c :: cs) := by
        rw [Numeral.scanExponent, hletter]
      rw [hscan]
      refine proceed_mark fun d hd => ?_
      obtain rfl := Option.some.inj hd
      obtain ⟨hdigit, hpoint⟩ := h c rfl
      simp [hdigit, hexp, hletter, hpoint]
    · have hscan : Numeral.scanExponent (c :: cs) =
          (some ⟨p, (Numeral.scanSign cs).1, (Numeral.scanSign cs).2.takeWhile Char.isDigit⟩,
            (Numeral.scanSign cs).2.dropWhile Char.isDigit) := by
        rw [Numeral.scanExponent, hletter]
      have hinside : (w.take p.marker).inExponent = true := by
        cases p <;> simp [take, Precision.marker, Precision.ofMarker?]
      rw [hscan, proceed_letter hexp hletter, proceed_sign, proceed_digits, proceed_mark]
      · simp only [Numeral.exponentPart, List.foldl_append, List.foldl_cons]
      · intro d hd
        rw [inExponent_foldl_take, inExponent_foldl_take, hinside]
        simp [head?_dropWhile_isDigit _ d hd]

/-- **The fraction and what follows it,** where no more whole digits follow. -/
theorem proceed_fraction (hexp : w.inExponent = false) (hpoint : w.pastPoint = false)
    (h : ∀ c ∈ cs.head?, c.isDigit = false) :
    w.proceed false cs =
      ((Numeral.exponentPart (Numeral.scanExponent (Numeral.scanFraction cs).2).1).foldl take
        ((Numeral.fractionPart (Numeral.scanFraction cs).1).foldl take w)).conclude
        (Numeral.scanMark (Numeral.scanExponent (Numeral.scanFraction cs).2).2) := by
  unfold Numeral.scanFraction
  split
  · next cs =>
    have hdigits : ∀ c ∈ cs.takeWhile Char.isDigit, c.isDigit = true :=
      fun c hc => List.mem_takeWhile_imp hc
    obtain ⟨hpast, houtside⟩ := flags_foldl_digits hdigits (w.take '.')
    rw [proceed_point hpoint hexp, proceed_digits, proceed_exponent]
    · rfl
    · rw [houtside, take, hexp]
      rfl
    · intro c hc
      refine ⟨head?_dropWhile_isDigit cs c hc, ?_⟩
      rw [hpast]
      simp [take]
  · next hnone =>
    rw [proceed_exponent hexp]
    · rfl
    · intro c hc
      refine ⟨h c hc, ?_⟩
      rcases cs with _ | ⟨d, cs⟩
      · exact absurd hc (by simp)
      · obtain rfl := Option.some.inj hc
        have hne : d ≠ '.' := fun hd => hnone cs (by rw [hd])
        simp [hne]

/-- **The walk takes the parts of the numeral that is scanned,** one after the other. -/
theorem walk_eq_conclude (h : isDecimalStart c = true) :
    let n := (Numeral.scan (c :: cs)).1
    walk {} (c :: cs) =
      ((n.whole ++ Numeral.fractionPart n.fraction ++ Numeral.exponentPart n.exponent).foldl take
        {}).conclude (n.mark, (Numeral.scan (c :: cs)).2) := by
  intro n
  have hgo : ({} : Walker).goesOn false c.toUpper = true := by
    rw [goesOn_toUpper]
    rcases Bool.or_eq_true_iff.mp h with hdigit | hpoint
    · simp [goesOn, hdigit]
    · rw [beq_iff_eq.mp hpoint]
      rfl
  have hdigits : ∀ d ∈ (c :: cs).takeWhile Char.isDigit, d.isDigit = true :=
    fun d hd => List.mem_takeWhile_imp hd
  obtain ⟨hpoint, hexp⟩ := flags_foldl_digits hdigits {}
  rw [← proceed_cons hgo, proceed_digits, proceed_fraction hexp hpoint (head?_dropWhile_isDigit _)]
  simp only [List.foldl_append]
  rfl

/-! ## Counting digits -/

/-- A count goes up while the word can hold it. -/
theorem toInt_add_of_lt {a k : Int32} (ha : 0 ≤ a.toInt) (hk : 0 ≤ k.toInt)
    (h : a.toInt + k.toInt < 2 ^ 31) : (a + k).toInt = a.toInt + k.toInt := by
  rw [Int32.toInt_add]
  exact Int.bmod_eq_of_le (by omega) (by omega)

/-- A mantissa walked over, with the digits that count so far. -/
structure Counts (w : Walker) : Prop where
  outside : w.inExponent = false
  digits : w.digits.toInt = significantCount (w.text.filter Char.isDigit)

theorem significantCount_filter_append (t : List Char) (hc : c.isDigit = true) :
    significantCount ((t ++ [c]).filter Char.isDigit) =
      if 0 < significantCount (t.filter Char.isDigit) ∨ c ≠ '0'
      then significantCount (t.filter Char.isDigit) + 1
      else significantCount (t.filter Char.isDigit) := by
  have hdigits := MantissaReader.isDigit_of_mem_filter t
  have hzero := significantCount_eq_zero_iff hdigits
  have hc0 : 0 < digitValue c ↔ c ≠ '0' := by
    refine ⟨?_, digitValue_pos hc⟩
    rintro hpos rfl
    exact absurd hpos (by decide)
  rw [MantissaReader.filter_append_digit hc, significantCount_append_singleton hdigits hc]
  simp only [hc0, Nat.pos_iff_ne_zero, ne_eq, hzero]

theorem digits_take_of_isDigit (h : w.inExponent = false) (hc : c.isDigit = true) :
    (w.take c).digits = if 0 < w.digits ∨ c ≠ '0' then w.digits + 1 else w.digits := by
  simp [take, h, hc, (notMark_of_isDigit hc).2]

/-- **One character of a mantissa** keeps the count, while the word can hold it. -/
theorem Counts.take (h : w.Counts) (hc : Decimal.isMantissaChar c = true)
    (hroom : w.text.length < 2 ^ 31 - 1) : (w.take c).Counts := by
  have hcount := significantCount_le_length (w.text.filter Char.isDigit)
  have hfilter := List.length_filter_le Char.isDigit w.text
  have hdigits := h.digits
  rcases Bool.or_eq_true_iff.mp hc with hdigit | hpoint
  · refine ⟨by simp [Walker.take, h.outside, (notMark_of_isDigit hdigit).2], ?_⟩
    have hpos : 0 < w.digits ↔ 0 < significantCount (w.text.filter Char.isDigit) := by
      rw [Int32.lt_iff_toInt_lt, hdigits, Int32.toInt_zero]
      omega
    have hone : (w.digits + 1).toInt = w.digits.toInt + 1 :=
      toInt_add_of_lt (by omega) (by decide) (by rw [Int32.toInt_one]; omega)
    rw [digits_take_of_isDigit h.outside hdigit, Walker.take,
      significantCount_filter_append _ hdigit]
    simp only [hpos]
    split
    · rw [hone, hdigits, Nat.cast_add_one]
    · exact hdigits
  · obtain rfl := beq_iff_eq.mp hpoint
    refine ⟨by simp [Walker.take, h.outside, Precision.ofMarker?], ?_⟩
    simpa [Walker.take, Precision.ofMarker?] using hdigits

/-- **A mantissa** walked over is counted. -/
theorem counts_foldl_take {t : List Char} (h : w.Counts)
    (ht : ∀ c ∈ t, Decimal.isMantissaChar c = true) (hroom : w.text.length + t.length < 2 ^ 31) :
    (t.foldl Walker.take w).Counts := by
  induction t generalizing w with
  | nil => exact h
  | cons c t ih =>
    rw [List.length_cons] at hroom
    refine ih (h.take (ht c List.mem_cons_self) (by omega))
      (fun d hd => ht d (List.mem_cons_of_mem _ hd)) ?_
    rw [Walker.take, List.length_append, List.length_singleton]
    omega

/-- In an exponent nothing counts. -/
theorem digits_foldl_take {t : List Char} (h : w.inExponent = true)
    (ht : ∀ c ∈ t, Precision.ofMarker? c = none) : (t.foldl take w).digits = w.digits := by
  induction t generalizing w with
  | nil => rfl
  | cons c t ih =>
    have hc := ht c List.mem_cons_self
    rw [List.foldl_cons, ih _ fun d hd => ht d (List.mem_cons_of_mem _ hd)]
    · simp [take, h, hc]
    · simp [take, h]

/-- The letter of an exponent adds eight digits or none, and the rest of it nothing. -/
theorem toInt_digits_exponentPart {e : Option ExponentPart}
    (he : ∀ part ∈ e, ∀ c ∈ part.digits, c.isDigit = true)
    (hlo : 0 ≤ w.digits.toInt) (hhi : w.digits.toInt < 2 ^ 31 - 8) :
    ((Numeral.exponentPart e).foldl take w).digits.toInt =
      w.digits.toInt + if e.any (·.marker = .double) then 8 else 0 := by
  rcases e with _ | ⟨p, sign, ds⟩
  · simp [Numeral.exponentPart]
  · have hrest : ∀ c ∈ Numeral.signText sign ++ ds, Precision.ofMarker? c = none := by
      intro c hc
      rcases List.mem_append.mp hc with hsign | hdigit
      · rcases sign with _ | _ | _
        · exact absurd hsign (by simp [Numeral.signText])
        · obtain rfl := List.mem_singleton.mp hsign
          rfl
        · obtain rfl := List.mem_singleton.mp hsign
          rfl
      · exact (notMark_of_isDigit (he _ rfl c hdigit)).2
    have hletter : (w.take p.marker).inExponent = true := by
      cases p <;> simp [take, Precision.marker, Precision.ofMarker?]
    show ((Numeral.signText sign ++ ds).foldl take (w.take p.marker)).digits.toInt = _
    rw [digits_foldl_take hletter hrest]
    cases p with
    | single => simp [take, Precision.marker, Precision.ofMarker?]
    | double =>
      have height : (w.digits + 8).toInt = w.digits.toInt + 8 :=
        toInt_add_of_lt hlo (by decide) (by show _ + 8 < _; omega)
      simpa [take, Precision.marker, Precision.ofMarker?] using height

theorem inExponent_exponentPart (e : Option ExponentPart) (h : w.inExponent = false) :
    ((Numeral.exponentPart e).foldl take w).inExponent = e.isSome := by
  rcases e with _ | ⟨p, sign, ds⟩
  · exact h
  · rw [inExponent_foldl_take]
    cases p <;> simp [Numeral.exponentPart, Precision.marker, Precision.ofMarker?]

section Numeral

open Numeral

variable {n : Numeral}

/-- The digits of a numeral without a mark, as the walk counts them. -/
theorem digits_foldl_text (hn : n.WellFormed) (hlength : n.text.length < 2 ^ 31 - 8)
    (htext : n.text = n.whole ++ fractionPart n.fraction ++ exponentPart n.exponent) :
    (n.text.foldl take {}).inExponent = n.exponent.isSome ∧
      (n.text.foldl take {}).digits.toInt = n.significant + if n.hasDoubleMarker then 8 else 0 := by
  have hmantissa : ∀ c ∈ n.whole ++ fractionPart n.fraction, Decimal.isMantissaChar c = true := by
    rw [← (mantissa_chars hn).1]
    exact fun c hc => List.mem_takeWhile_imp hc
  have hshort : (n.whole ++ fractionPart n.fraction).length < 2 ^ 31 - 8 := by
    rw [htext, List.length_append] at hlength
    omega
  have hcounts := counts_foldl_take (w := {}) ⟨rfl, rfl⟩ hmantissa (by
    show 0 + _ < _
    omega)
  have hcount : ((n.whole ++ fractionPart n.fraction).foldl take {}).digits.toInt
      = n.significant := by
    rw [hcounts.digits, text_foldl_take, List.nil_append, filter_mantissa hn]
    rfl
  have hle : n.significant ≤ (n.whole ++ fractionPart n.fraction).length := by
    have hfilter := List.length_filter_le Char.isDigit (n.whole ++ fractionPart n.fraction)
    rw [filter_mantissa hn] at hfilter
    exact (significantCount_le_length n.digits).trans hfilter
  rw [htext, List.foldl_append]
  refine ⟨inExponent_exponentPart n.exponent hcounts.outside, ?_⟩
  rw [toInt_digits_exponentPart hn.exponent (by omega) (by omega), hcount]
  rfl

/-- **The literal of a numeral without a mark,** told by what was counted on the way. -/
theorem finish_foldl_text (hn : n.WellFormed) (hmark : n.mark = none)
    (hlength : n.text.length < 2 ^ 31 - 8) :
    (n.text.foldl take {}).finish = ⟨.decimal n.kind, n.text⟩ := by
  have htext : n.text = n.whole ++ fractionPart n.fraction ++ exponentPart n.exponent := by
    rw [text_eq, hmark, markPart, List.append_nil, List.append_assoc]
  obtain ⟨hinside, hdigits⟩ := digits_foldl_text hn hlength htext
  have hdouble : 7 < (n.text.foldl take {}).digits ↔
      (n.hasDoubleMarker || decide (7 < n.significant)) = true := by
    rw [Int32.lt_iff_toInt_lt, hdigits]
    show (7 : ℤ) < _ ↔ _
    rcases n.hasDoubleMarker with _ | _
    · simp
    · simp
      omega
  have hpast : (n.text.foldl take {}).pastPoint = n.fraction.isSome := by
    rw [pastPoint_foldl_take, Bool.false_or, Bool.eq_iff_iff, List.any_beq', List.contains_iff_mem,
      point_mem_text hn, Option.isSome_iff_ne_none]
  -- without a point and an exponent the whole text is the whole part
  have hplain : (!n.exponent.isSome && !n.fraction.isSome &&
        decide (numeralValue 10 n.text ≤ 32767)) =
      (n.fraction.isNone && n.exponent.isNone && decide (numeralValue 10 n.whole ≤ 32767)) := by
    rw [htext]
    rcases n.fraction with _ | _
    · rcases n.exponent with _ | _
      · simp [fractionPart, exponentPart]
      · rfl
    · rcases n.exponent with _ | _
      · rfl
      · rfl
  rw [finish, text_foldl_take, List.nil_append, hinside, hpast, hplain, kind, hmark]
  simp only [hdouble]
  split
  · rfl
  · split
    · rfl
    · rfl

end Numeral

end Walker

/-- **The walk finds the literal that is scanned,** in a text that is short enough for its digits
to be counted in 32 bits. -/
theorem walk_eq_scan? {c : Char} {cs : List Char} (h : isDecimalStart c = true)
    (hlength : (c :: cs).length < 2 ^ 31 - 8) :
    some (Walker.walk {} (c :: cs)) = scan? (c :: cs) := by
  have hwell : (Numeral.scan (c :: cs)).1.WellFormed := Numeral.wellFormed_scan h
  rw [scan?_of_isDecimalStart h, Walker.walk_eq_conclude h]
  have hspells := Numeral.takesPart_scan.spells (c :: cs)
  have hshort : (Numeral.scan (c :: cs)).1.text.length ≤ (c :: cs).length := by
    have hlengths := congrArg List.length hspells
    rw [List.length_append, List.length_map, List.length_map] at hlengths
    omega
  generalize Numeral.scan (c :: cs) = scanned at hwell hshort ⊢
  obtain ⟨n, rest⟩ := scanned
  have hparts : n.text = n.whole ++ Numeral.fractionPart n.fraction
      ++ Numeral.exponentPart n.exponent ++ Numeral.markPart n.mark := by
    rw [Numeral.text_eq, List.append_assoc, List.append_assoc]
  rcases hmark : n.mark with _ | k
  · have hfinish := Walker.finish_foldl_text hwell hmark (hshort.trans_lt hlength)
    rw [hmark, Numeral.markPart, List.append_nil] at hparts
    simp only [Walker.conclude, ← hparts]
    rw [hfinish]
  · have hkind : n.kind = k := by rw [Numeral.kind, hmark]
    rw [hmark] at hparts
    simp only [Walker.conclude]
    rw [Walker.text_foldl_take, List.nil_append, hkind, hparts]
    rfl

end Literal

end BasicNumerics
