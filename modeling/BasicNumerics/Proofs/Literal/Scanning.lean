/-
Where a literal ends, and which literal it is.

Scanning takes the longest literal it can, part by part: whole digits, a point with its
digits, an exponent, a mark. Two facts about that are used by everything that reads
literals back.

The first is that a literal does not depend on what follows it, as long as the character
after it could not belong to any literal (`scan?_append`). A blank is such a character.

The second is that a numeral written out is scanned to the same parts (`scan?_text`), if
its parts hold digits only and it does not start with its exponent. The proofs go from
the last part to the first: what is written after a part starts with a character that
the part cannot take.
-/
import BasicNumerics.Literal
import BasicNumerics.Text.Blank
import Mathlib.Data.List.TakeWhile

set_option autoImplicit false

namespace BasicNumerics

/-! ## Characters that end a literal -/

/-- Whether a literal may have the character past its start: a letter or digit, a
point, a sign or a mark. -/
def Literal.isPart (c : Char) : Bool :=
  c.isAlphanum || c == '.' || c == '+' || c == '-' || (NumberKind.ofSigil? c).isSome

/-- A text that cannot continue a literal: it is empty, or its first character cannot. -/
def EndsLiteral (tail : List Char) : Prop := ∀ c ∈ tail.head?, Literal.isPart c = false

/-- Taking characters while they pass a test stops where it did before, if what is put
behind starts with one that fails. -/
theorem takeWhile_append_of_head {f : Char → Bool} {tail : List Char}
    (h : ∀ c ∈ tail.head?, f c = false) (cs : List Char) :
    (cs ++ tail).takeWhile f = cs.takeWhile f := by
  induction cs with
  | nil =>
    cases tail with
    | nil => rfl
    | cons c tail =>
      rw [List.nil_append, List.takeWhile_cons_of_neg (by simp [h c rfl]), List.takeWhile_nil]
  | cons c cs ih =>
    rw [List.cons_append]
    by_cases hc : f c = true
    · rw [List.takeWhile_cons_of_pos hc, List.takeWhile_cons_of_pos hc, ih]
    · rw [List.takeWhile_cons_of_neg hc, List.takeWhile_cons_of_neg hc]

theorem dropWhile_append_of_head {f : Char → Bool} {tail : List Char}
    (h : ∀ c ∈ tail.head?, f c = false) (cs : List Char) :
    (cs ++ tail).dropWhile f = cs.dropWhile f ++ tail := by
  induction cs with
  | nil =>
    cases tail with
    | nil => rfl
    | cons c tail =>
      rw [List.nil_append, List.dropWhile_cons_of_neg (by simp [h c rfl])]
      rfl
  | cons c cs ih =>
    rw [List.cons_append]
    by_cases hc : f c = true
    · rw [List.dropWhile_cons_of_pos hc, List.dropWhile_cons_of_pos hc, ih]
    · rw [List.dropWhile_cons_of_neg hc, List.dropWhile_cons_of_neg hc, List.cons_append]

/-- The characters of literals are visible ones. -/
theorem Literal.visible_of_isPart {c : Char} (h : isPart c = true) :
    33 ≤ c.toNat ∧ c.toNat ≤ 126 := by
  have hranges : c.isAlphanum = (decide ('A'.val ≤ c.val ∧ c.val ≤ 'Z'.val) ||
      ('a'.val ≤ c.val && c.val ≤ 'z'.val) || ('0'.val ≤ c.val && c.val ≤ '9'.val)) := rfl
  simp only [isPart, hranges, Bool.or_eq_true, Bool.and_eq_true, decide_eq_true_eq, beq_iff_eq,
    UInt32.le_iff_toNat_le] at h
  rcases h with (((h | rfl) | rfl) | rfl) | h
  · have hcodes : 65 ≤ c.toNat ∧ c.toNat ≤ 90 ∨ 97 ≤ c.toNat ∧ c.toNat ≤ 122 ∨
        48 ≤ c.toNat ∧ c.toNat ≤ 57 := by simpa [or_assoc] using h
    omega
  · decide
  · decide
  · decide
  · obtain ⟨k, hk⟩ := Option.isSome_iff_exists.mp h
    rw [← NumberKind.sigil_of_ofSigil? hk]
    rcases k with _ | ⟨_ | _⟩ <;> decide

theorem Text.isBlank_eq_false {c : Char} (h : 33 ≤ c.toNat ∧ c.toNat ≤ 126) :
    isBlank c = false := by
  rw [Bool.eq_false_iff]
  intro hb
  simp only [isBlank, blankRuns, List.any_cons, List.any_nil, Bool.or_eq_true, Bool.and_eq_true,
    decide_eq_true_eq, Bool.or_false] at hb
  omega

namespace EndsLiteral

variable {tail : List Char}

/-- **A blank ends a literal.** -/
theorem of_head_blank (h : ∀ c ∈ tail.head?, Text.isBlank c = true) : EndsLiteral tail := by
  intro c hc
  by_contra hpart
  have hblank := h c hc
  rw [Text.isBlank_eq_false (Literal.visible_of_isPart (by simpa using hpart))] at hblank
  exact absurd hblank (by simp)

theorem of_blank (h : ∀ c ∈ tail, Text.isBlank c = true) : EndsLiteral tail :=
  of_head_blank fun c hc => h c (List.mem_of_mem_head? hc)

/-- A test that only parts of literals pass fails where a literal ends. -/
theorem head_fails {f : Char → Bool} (hf : ∀ c, f c = true → Literal.isPart c = true)
    (h : EndsLiteral tail) : ∀ c ∈ tail.head?, f c = false := by
  intro c hc
  by_contra hpass
  have hpart := hf c (by simpa using hpass)
  rw [h c hc] at hpart
  exact absurd hpart (by simp)

end EndsLiteral

namespace Literal

theorem isPart_of_isDigit {c : Char} (h : c.isDigit = true) : isPart c = true := by
  simp [isPart, Char.isAlphanum, h]

theorem isPart_of_isAlpha {c : Char} (h : (c.isUpper || c.isLower) = true) : isPart c = true := by
  have halpha : c.isAlpha = true := h
  simp [isPart, Char.isAlphanum, halpha]

theorem isPart_of_isDigitOf (base : Nat) {c : Char} (h : Text.isDigitOf base c = true) :
    isPart c = true := by
  -- a digit to any base is a digit or a letter
  have hsome : (Text.digitValue? c).isSome = true := by
    rw [Text.isDigitOf, Option.any_eq_true] at h
    obtain ⟨d, hd, -⟩ := h
    rw [hd]
    rfl
  unfold Text.digitValue? at hsome
  by_cases hd : c.isDigit = true
  · exact isPart_of_isDigit hd
  · rw [if_neg hd] at hsome
    by_cases hu : c.isUpper = true
    · exact isPart_of_isAlpha (by rw [hu, Bool.true_or])
    · rw [if_neg hu] at hsome
      by_cases hl : c.isLower = true
      · exact isPart_of_isAlpha (by rw [hl, Bool.or_true])
      · rw [if_neg hl] at hsome
        exact absurd hsome (by simp)

end Literal

/-- A decimal literal starts with nothing but a digit or the point. -/
theorem Literal.ne_of_isDecimalStart {c d : Char} (hc : isDecimalStart c = true)
    (hd : isDecimalStart d = false) : c ≠ d := by
  rintro rfl
  rw [hc] at hd
  exact absurd hd (by simp)

theorem Precision.ofMarker?_of_not_isPart {c : Char} (h : Literal.isPart c = false) :
    ofMarker? c = none := by
  unfold ofMarker?
  rw [if_neg, if_neg]
  · rintro (rfl | rfl) <;> exact absurd h (by decide)
  · rintro (rfl | rfl) <;> exact absurd h (by decide)

/-! ## A literal does not depend on what follows it -/

namespace Numeral

variable {tail : List Char}

theorem scanFraction_append (h : EndsLiteral tail) (cs : List Char) :
    scanFraction (cs ++ tail) = ((scanFraction cs).1, (scanFraction cs).2 ++ tail) := by
  have hdigit := h.head_fails (fun c => Literal.isPart_of_isDigit)
  cases cs with
  | nil =>
    cases tail with
    | nil => rfl
    | cons c tail =>
      have hc : c ≠ '.' := by
        rintro rfl
        exact absurd (h '.' rfl) (by decide)
      simp [scanFraction, hc]
  | cons c cs =>
    by_cases hc : c = '.'
    · subst hc
      simp only [List.cons_append, scanFraction, takeWhile_append_of_head hdigit,
        dropWhile_append_of_head hdigit]
    · simp [scanFraction, hc]

theorem scanSign_append (h : EndsLiteral tail) (cs : List Char) :
    scanSign (cs ++ tail) = ((scanSign cs).1, (scanSign cs).2 ++ tail) := by
  cases cs with
  | nil =>
    cases tail with
    | nil => rfl
    | cons c tail =>
      have hminus : c ≠ '-' := by
        rintro rfl
        exact absurd (h '-' rfl) (by decide)
      have hplus : c ≠ '+' := by
        rintro rfl
        exact absurd (h '+' rfl) (by decide)
      simp [scanSign, hminus, hplus]
  | cons c cs =>
    by_cases hminus : c = '-'
    · subst hminus
      rfl
    · by_cases hplus : c = '+'
      · subst hplus
        rfl
      · simp [scanSign, hminus, hplus]

theorem scanExponent_append (h : EndsLiteral tail) (cs : List Char) :
    scanExponent (cs ++ tail) = ((scanExponent cs).1, (scanExponent cs).2 ++ tail) := by
  have hdigit := h.head_fails (fun c => Literal.isPart_of_isDigit)
  cases cs with
  | nil =>
    cases tail with
    | nil => rfl
    | cons c tail => simp [scanExponent, Precision.ofMarker?_of_not_isPart (h c rfl)]
  | cons c cs =>
    rw [List.cons_append, scanExponent, scanExponent]
    cases Precision.ofMarker? c with
    | none => rfl
    | some marker =>
      simp only [scanSign_append h cs, takeWhile_append_of_head hdigit,
        dropWhile_append_of_head hdigit]

theorem scanMark_append (h : EndsLiteral tail) (cs : List Char) :
    scanMark (cs ++ tail) = ((scanMark cs).1, (scanMark cs).2 ++ tail) := by
  cases cs with
  | nil =>
    cases tail with
    | nil => rfl
    | cons c tail =>
      have hc : NumberKind.ofSigil? c = none := by
        have hpart := h c rfl
        simp only [Literal.isPart, Bool.or_eq_false_iff, Option.isSome_eq_false_iff,
          Option.isNone_iff_eq_none] at hpart
        exact hpart.2
      simp [scanMark, hc]
  | cons c cs =>
    rw [List.cons_append, scanMark, scanMark]
    cases NumberKind.ofSigil? c with
    | none => rfl
    | some k => rfl

theorem scan_append (h : EndsLiteral tail) (cs : List Char) :
    scan (cs ++ tail) = ((scan cs).1, (scan cs).2 ++ tail) := by
  have hdigit := h.head_fails (fun c => Literal.isPart_of_isDigit)
  simp only [scan, takeWhile_append_of_head hdigit, dropWhile_append_of_head hdigit,
    scanFraction_append h, scanExponent_append h, scanMark_append h]

end Numeral

namespace Literal

variable {tail : List Char}

theorem scanDigits_append (h : EndsLiteral tail) (spelling : Spelling) (base : Nat)
    (cs : List Char) : scanDigits spelling base (cs ++ tail) =
      ((scanDigits spelling base cs).1, (scanDigits spelling base cs).2 ++ tail) := by
  have hdigit := h.head_fails (fun c => isPart_of_isDigitOf base)
  rw [scanDigits, takeWhile_append_of_head hdigit, dropWhile_append_of_head hdigit]
  rfl

theorem scanBased_append (h : EndsLiteral tail) (cs : List Char) :
    scanBased (cs ++ tail) = ((scanBased cs).1, (scanBased cs).2 ++ tail) := by
  cases cs with
  | nil =>
    -- the letter of a base cannot be the first character of what follows
    have hoctal : scanBased ([] ++ tail) = scanDigits .octal 8 ([] ++ tail) := by
      cases tail with
      | nil => rfl
      | cons c tail =>
        rw [List.nil_append, scanBased, if_neg, if_neg]
        · rintro (rfl | rfl) <;> exact absurd (h _ rfl) (by decide)
        · rintro (rfl | rfl) <;> exact absurd (h _ rfl) (by decide)
    rw [hoctal, scanDigits_append h]
    rfl
  | cons c cs =>
    rw [List.cons_append, scanBased, scanBased]
    by_cases hhex : c = 'H' ∨ c = 'h'
    · rw [if_pos hhex, if_pos hhex, scanDigits_append h]
    · rw [if_neg hhex, if_neg hhex]
      by_cases hoct : c = 'O' ∨ c = 'o'
      · rw [if_pos hoct, if_pos hoct, scanDigits_append h]
      · rw [if_neg hoct, if_neg hoct, ← List.cons_append, scanDigits_append h]

/-- **What follows a literal has no part in it**, if it starts with nothing that a
literal may hold. -/
theorem scan?_append {cs rest : List Char} {l : Literal} (h : EndsLiteral tail)
    (hscan : scan? cs = some (l, rest)) : scan? (cs ++ tail) = some (l, rest ++ tail) := by
  cases cs with
  | nil => exact absurd hscan (by simp [scan?])
  | cons c cs =>
    rw [List.cons_append, scan?]
    rw [scan?] at hscan
    by_cases hamp : c = '&'
    · rw [if_pos hamp] at hscan ⊢
      rw [Option.some.injEq] at hscan
      rw [scanBased_append h, hscan]
    · rw [if_neg hamp] at hscan ⊢
      by_cases hstart : isDecimalStart c = true
      · rw [if_pos hstart] at hscan ⊢
        simp only [Option.some.injEq, Prod.mk.injEq] at hscan
        rw [← List.cons_append, Numeral.scan_append h]
        simp only [hscan.1, hscan.2]
      · rw [if_neg hstart] at hscan
        exact absurd hscan (by simp)

end Literal

/-! ## A numeral is scanned to its parts -/

namespace Numeral

/-- Parts that can stand together in one literal: digits where digits belong, and a
whole digit or a point to start with. -/
structure WellFormed (n : Numeral) : Prop where
  whole : ∀ c ∈ n.whole, c.isDigit = true
  fraction : ∀ ds ∈ n.fraction, ∀ c ∈ ds, c.isDigit = true
  exponent : ∀ e ∈ n.exponent, ∀ c ∈ e.digits, c.isDigit = true
  starts : n.whole ≠ [] ∨ n.fraction ≠ none

def fractionPart : Option (List Char) → List Char
  | some ds => '.' :: ds
  | none => []

def exponentPart : Option ExponentPart → List Char
  | some e => e.marker.marker :: signText e.sign ++ e.digits
  | none => []

def markPart : Option NumberKind → List Char
  | some k => [k.sigil]
  | none => []

theorem text_eq (n : Numeral) : n.text =
    n.whole ++ (fractionPart n.fraction ++ (exponentPart n.exponent ++ markPart n.mark)) := by
  obtain ⟨whole, fraction, exponent, mark⟩ := n
  rcases fraction with _ | _ <;> rcases exponent with _ | _ <;> rcases mark with _ | _ <;>
    simp [text, fractionPart, exponentPart, markPart]

theorem mem_fractionPart {f : Option (List Char)} {c : Char}
    (hf : ∀ ds ∈ f, ∀ c ∈ ds, c.isDigit = true) (hc : c ∈ fractionPart f) :
    c = '.' ∨ c.isDigit = true := by
  rcases f with _ | ds
  · exact absurd hc (by simp [fractionPart])
  · rw [fractionPart, List.mem_cons] at hc
    rcases hc with rfl | hds
    · exact Or.inl rfl
    · exact Or.inr (hf ds rfl c hds)

/-- Neither a mark nor an exponent starts as a mantissa goes on. -/
theorem head?_exponentPart_append (e : Option ExponentPart) (m : Option NumberKind) :
    ∀ c ∈ (exponentPart e ++ markPart m).head?, c.isDigit = false ∧ c ≠ '.' := by
  intro c hc
  rcases e with _ | ⟨_ | _, _, _⟩
  · rcases m with _ | _ | ⟨_ | _⟩ <;> simp [exponentPart, markPart] at hc <;> subst hc <;> decide
  · simp [exponentPart] at hc
    subst hc
    decide
  · simp [exponentPart] at hc
    subst hc
    decide

theorem takeWhile_digits {ds tail : List Char} (hds : ∀ c ∈ ds, c.isDigit = true)
    (htail : ∀ c ∈ tail.head?, c.isDigit = false) :
    (ds ++ tail).takeWhile Char.isDigit = ds ∧ (ds ++ tail).dropWhile Char.isDigit = tail := by
  refine ⟨?_, ?_⟩
  · rw [takeWhile_append_of_head htail, List.takeWhile_eq_self_iff.mpr hds]
  · rw [dropWhile_append_of_head htail, List.dropWhile_eq_nil_iff.mpr hds, List.nil_append]

theorem scanMark_markPart (m : Option NumberKind) : scanMark (markPart m) = (m, []) := by
  rcases m with _ | k
  · rfl
  · simp [scanMark, markPart]

theorem scanSign_signText (sign : Option Bool) {cs : List Char}
    (hcs : ∀ c ∈ cs.head?, c ≠ '-' ∧ c ≠ '+') : scanSign (signText sign ++ cs) = (sign, cs) := by
  rcases sign with _ | _ | _
  · rcases cs with _ | ⟨c, cs⟩
    · rfl
    · have hc := hcs c rfl
      simp [scanSign, signText, hc.1, hc.2]
  · rfl
  · rfl

theorem scanExponent_exponentPart (e : Option ExponentPart) (m : Option NumberKind)
    (he : ∀ f ∈ e, ∀ c ∈ f.digits, c.isDigit = true) :
    scanExponent (exponentPart e ++ markPart m) = (e, markPart m) := by
  rcases e with _ | ⟨marker, sign, digits⟩
  · rcases m with _ | _ | ⟨_ | _⟩ <;> rfl
  · have hdigits : ∀ c ∈ digits, c.isDigit = true := he _ rfl
    have hmark : ∀ c ∈ (markPart m).head?, c.isDigit = false :=
      fun c hc => (head?_exponentPart_append none m c hc).1
    have hmarker : Precision.ofMarker? marker.marker = some marker := by cases marker <;> rfl
    have hsign : ∀ c ∈ (digits ++ markPart m).head?, c ≠ '-' ∧ c ≠ '+' := by
      rcases digits with _ | ⟨d, ds⟩
      · intro c hc
        rcases m with _ | _ | ⟨_ | _⟩ <;> simp [markPart] at hc <;> subst hc <;> decide
      · intro c hc
        rw [List.cons_append, List.head?_cons, Option.mem_def, Option.some.injEq] at hc
        have hd := hdigits d (by simp)
        rw [hc] at hd
        constructor <;> rintro rfl <;> exact absurd hd (by decide)
    obtain ⟨htake, hdrop⟩ := takeWhile_digits hdigits hmark
    rw [exponentPart, List.cons_append, List.cons_append, List.append_assoc, scanExponent, hmarker]
    simp only [scanSign_signText sign hsign, htake, hdrop]

theorem scanFraction_fractionPart (f : Option (List Char)) {tail : List Char}
    (hf : ∀ ds ∈ f, ∀ c ∈ ds, c.isDigit = true)
    (htail : ∀ c ∈ tail.head?, c.isDigit = false ∧ c ≠ '.') :
    scanFraction (fractionPart f ++ tail) = (f, tail) := by
  rcases f with _ | ds
  · rcases tail with _ | ⟨c, tail⟩
    · rfl
    · simp [scanFraction, fractionPart, (htail c rfl).2]
  · obtain ⟨htake, hdrop⟩ := takeWhile_digits (hf ds rfl) fun c hc => (htail c hc).1
    rw [fractionPart, List.cons_append, scanFraction, htake, hdrop]

/-- **A numeral is scanned to its parts.** -/
theorem scan_text {n : Numeral} (h : n.WellFormed) : scan n.text = (n, []) := by
  have hrest := head?_exponentPart_append n.exponent n.mark
  have hhead : ∀ c ∈ (fractionPart n.fraction ++ (exponentPart n.exponent ++ markPart n.mark)).head?,
      c.isDigit = false := by
    rcases n.fraction with _ | ds
    · exact fun c hc => (hrest c hc).1
    · intro c hc
      simp [fractionPart] at hc
      subst hc
      decide
  obtain ⟨htake, hdrop⟩ := takeWhile_digits h.whole hhead
  rw [text_eq, scan]
  simp only [htake, hdrop, scanFraction_fractionPart n.fraction h.fraction hrest,
    scanExponent_exponentPart n.exponent n.mark h.exponent, scanMark_markPart]

/-- A numeral has the characters of literals only. -/
theorem isPart_of_mem_text {n : Numeral} (h : n.WellFormed) :
    ∀ c ∈ n.text, Literal.isPart c = true := by
  intro c hc
  rw [text_eq] at hc
  simp only [List.mem_append] at hc
  rcases hc with hwhole | hfraction | hexponent | hmark
  · exact Literal.isPart_of_isDigit (h.whole c hwhole)
  · rcases mem_fractionPart h.fraction hfraction with rfl | hdigit
    · decide
    · exact Literal.isPart_of_isDigit hdigit
  · rcases he : n.exponent with _ | ⟨marker, sign, ds⟩
    · rw [he] at hexponent
      exact absurd hexponent (by simp [exponentPart])
    · rw [he] at hexponent
      simp only [exponentPart, List.cons_append, List.mem_cons, List.mem_append] at hexponent
      rcases hexponent with rfl | hsign | hds
      · cases marker <;> decide
      · rcases sign with _ | _ | _
        · exact absurd hsign (by simp [signText])
        · rw [signText, List.mem_singleton] at hsign
          rw [hsign]
          decide
        · rw [signText, List.mem_singleton] at hsign
          rw [hsign]
          decide
      · exact Literal.isPart_of_isDigit (h.exponent _ he c hds)
  · rcases hm : n.mark with _ | k
    · rw [hm] at hmark
      exact absurd hmark (by simp [markPart])
    · rw [hm, markPart, List.mem_singleton] at hmark
      rw [hmark]
      rcases k with _ | ⟨_ | _⟩ <;> decide

/-- A numeral starts with a digit or the point. -/
theorem exists_cons_text {n : Numeral} (h : n.WellFormed) :
    ∃ c cs, n.text = c :: cs ∧ Literal.isDecimalStart c = true := by
  rw [text_eq]
  rcases hw : n.whole with _ | ⟨c, cs⟩
  · rcases hf : n.fraction with _ | ds
    · exact absurd h.starts (by simp [hw, hf])
    · exact ⟨'.', _, rfl, by decide⟩
  · have hc : c.isDigit = true := h.whole c (by simp [hw])
    exact ⟨c, _, rfl, by simp [Literal.isDecimalStart, hc]⟩

/-- **A numeral written out is one literal**, of the kind that its parts tell. -/
theorem scan?_text {n : Numeral} (h : n.WellFormed) :
    Literal.scan? n.text = some (⟨.decimal n.kind, n.text⟩, []) := by
  obtain ⟨c, cs, htext, hc⟩ := exists_cons_text h
  have hscan := scan_text h
  have hamp : c ≠ '&' := Literal.ne_of_isDecimalStart hc (by decide)
  rw [htext] at hscan ⊢
  rw [Literal.scan?, if_neg hamp, if_pos hc, hscan]
  simp only [htext]

end Numeral

end BasicNumerics
