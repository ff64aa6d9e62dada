/-
The kind of a literal and the kind of its value.

A value read from a literal is of the literal's kind, in every session, and an integer literal out
of range is a fault that no session tolerates. There is one exception. An integer literal in
decimal digits is read as a double first, and a literal past the range of doubles overflows there,
softly: a session that tolerates overflows goes on with the largest double, and what it has read
is no integer.

How large a literal must be for that is known from both sides. What is read as a double is as
near to the decimal as its last place, so from `32768` up to the last places below `2^127` the
double is there and rounding it to sixteen bits is what fails; from `2^127` on there is no double.
-/
import BasicNumerics.Proofs.Floating.OfDecimal
import BasicNumerics.Proofs.Floating.WholePart
import BasicNumerics.Proofs.Literal.KeptDigits
import BasicNumerics.Session

set_option autoImplicit false

namespace BasicNumerics

open Text Rounding

/-! ## Reading a decimal that is not negative -/

/-- **A number as near to `v` as a double is** rounds into sixteen bits if `v` is there, and out of
them if `v` is not. -/
theorem Rounding.nearestAway_mem {x v : ℚ} (h : |x - v| ≤ 2 ^ (-55 : ℤ) * |x| + 2 ^ (-127 : ℤ)) :
    (0 ≤ v → v ≤ 32767 → -32768 ≤ nearestAway x ∧ nearestAway x ≤ 32767) ∧
      (32768 ≤ v → 32767 < nearestAway x) := by
  obtain ⟨hlow, hhigh⟩ := abs_le.mp (abs_nearestAway_sub_le x)
  obtain ⟨hbelow, habove⟩ := abs_le.mp h
  norm_num at hbelow habove
  refine ⟨?_, ?_⟩
  · intro h0 hv
    have hmost : |x| ≤ 32767 + 1 / 4 := by
      rcases abs_cases x with ⟨habs, -⟩ | ⟨habs, -⟩
      · rw [habs] at habove ⊢
        linarith
      · rw [habs] at hbelow ⊢
        linarith
    obtain ⟨hneg, hpos⟩ := abs_le.mp hmost
    have hlo : ((-32769 : ℤ) : ℚ) < nearestAway x := by
      push_cast
      linarith
    have hhi : ((nearestAway x : ℤ) : ℚ) < (32768 : ℤ) := by
      push_cast
      linarith
    have hlo' : -32769 < nearestAway x := by exact_mod_cast hlo
    have hhi' : nearestAway x < 32768 := by exact_mod_cast hhi
    omega
  · intro hv
    have hpos : 0 < x := by
      by_contra hneg
      rw [abs_of_nonpos (not_lt.mp hneg)] at hbelow
      linarith
    rw [abs_of_pos hpos] at hbelow
    have hlo : ((32767 : ℤ) : ℚ) < nearestAway x := by
      push_cast
      linarith
    exact_mod_cast hlo

/-- The mantissa of any text fits a signed word of 64 bits. -/
theorem Decimal.mantissa_ofText_lt_two_pow (t : List Char) :
    0 ≤ (ofText t).mantissa ∧ (ofText t).mantissa < 2 ^ 63 := by
  obtain ⟨hlo, hhi⟩ := mantissa_ofText_lt t
  exact ⟨hlo, hhi.trans (by decide)⟩

namespace Floating

open Scratch

variable {p : Precision} {d : Decimal}

/-- The last place of a value is a small share of it. -/
theorem lastPlace_le_abs_exact {r : Floating p} (hr : r.isZero = false) :
    2 ^ ((r.exponent : ℤ) - 128 - p.manBits) ≤ 2 ^ (1 - (p.manBits : ℤ)) * |r.exact| := by
  have hlead : (2 : ℚ) ^ (p.manBits - 1) ≤ r.significand := by exact_mod_cast r.le_significand
  have hplace : (0 : ℚ) < 2 ^ ((r.exponent : ℤ) - 128 - p.manBits) := by positivity
  have hone : (2 : ℚ) ^ (1 - (p.manBits : ℤ)) * 2 ^ (p.manBits - 1) = 1 := by
    rw [← zpow_natCast, ← zpow_add₀ two_ne_zero, Nat.cast_sub (manBits_pos p)]
    norm_num
  rw [abs_exact hr, magnitude_unpack, ← mul_assoc]
  refine le_mul_of_one_le_left hplace.le ?_
  rw [← hone]
  exact mul_le_mul_of_nonneg_left hlead (by positivity)

/-- **What is read is as near as its last place,** or both are close to zero. -/
theorem abs_exact_sub_le_of_ofDecimal {r : Floating p} (hlo : -2 ^ 63 ≤ d.mantissa)
    (hhi : d.mantissa < 2 ^ 63) (h : ofDecimal d = .ok r) :
    |r.exact - d.value| ≤ 2 ^ (1 - (p.manBits : ℤ)) * |r.exact| + 2 ^ (-127 : ℤ) := by
  by_cases hm : d.mantissa = 0
  · have hr : r = zero := by
      rw [ofDecimal, if_pos hm] at h
      exact (Except.ok.inj h).symm
    rw [hr, exact_of_isZero rfl, Decimal.value, hm]
    norm_num
  · obtain ⟨w, hpack, hw⟩ := exists_holdsDecimal (p := p) hm hlo hhi
    rw [hpack] at h
    by_cases hz : r.isZero = true
    · have hsmall := hw.aligned.lt_of_pack_isZero hw.conveys h hz
      have hshare : (2 : ℚ) ^ (1 - (p.manBits : ℤ)) ≤ 1 := by
        rw [p.two_zpow_one_sub_manBits]
        linarith [p.unitShare_le]
      have hleast : (2 : ℚ) ^ (-127 : ℤ) = 2 * 2 ^ (-128 : ℤ) := by norm_num
      have hmost := mul_le_mul_of_nonneg_right hshare (by positivity : (0 : ℚ) ≤ 2 ^ (-128 : ℤ))
      rw [exact_of_isZero hz, zero_sub, abs_neg, abs_zero, mul_zero, zero_add, hleast]
      linarith
    · rw [Bool.not_eq_true] at hz
      obtain ⟨hneg, hnear⟩ := hw.aligned.abs_sub_lt_of_pack hw.conveys h hz
      have hmiss : |r.exact - d.value| < 2 ^ ((r.exponent : ℤ) - 128 - p.manBits) := by
        rwa [exact_eq_signed hz, d.value_eq_signed, hneg, hw.neg_eq, ← signed_sub, abs_signed]
      have hplace := lastPlace_le_abs_exact hz
      have hleast : (0 : ℚ) < 2 ^ (-127 : ℤ) := by positivity
      linarith

/-- **An overflow is reported** only past the range or hardly below its end. -/
theorem ofDecimal_error_of_nonneg {f : Failure (Floating p)} (hlo : 0 ≤ d.mantissa)
    (hhi : d.mantissa < 2 ^ 63) (h : ofDecimal d = .error f) :
    f = .overflow (.max false) ∧ (1 - 2 ^ (1 - (p.manBits : ℤ))) * 2 ^ 127 < d.value := by
  have hm : d.mantissa ≠ 0 := by
    intro h0
    rw [ofDecimal, if_pos h0] at h
    exact absurd h (by simp)
  obtain ⟨w, hpack, hw⟩ := exists_holdsDecimal (p := p) hm (by omega) hhi
  rw [hpack] at h
  have herror := hw.aligned.lt_of_pack_error hw.conveys h
  rwa [hw.neg_eq, decide_eq_false (not_lt.mpr hlo),
    abs_of_nonneg (Decimal.value_nonneg hlo)] at herror

/-- **An overflow is reported** wherever a decimal is past the range. -/
theorem ofDecimal_of_two_pow_le (hlo : 0 ≤ d.mantissa) (hhi : d.mantissa < 2 ^ 63)
    (h : 2 ^ 127 ≤ d.value) :
    (ofDecimal d : Outcome (Floating p) (Floating p)) = .error (.overflow (.max false)) := by
  have hm : d.mantissa ≠ 0 := by
    intro h0
    rw [Decimal.value, h0] at h
    norm_num at h
  obtain ⟨w, hpack, hw⟩ := exists_holdsDecimal (p := p) hm (by omega) hhi
  rw [hpack, hw.aligned.pack_of_le_of_conveys hw.conveys (h.trans (le_abs_self _)), hw.neg_eq,
    decide_eq_false (not_lt.mpr hlo)]

end Floating

/-! ## Integers out of literals -/

namespace Value

/-- **Digits to a base are the word of their number,** up to `65535`. -/
theorem isWordOf_ofBased {base : ℕ} {cs : List Char} (h : ∀ c ∈ cs, isDigitOf base c = true) :
    Integer.IsWordOf (numeralValue base cs) 65535 (ofBased base cs) := by
  have hall : cs.all (isDigitOf base) = true := List.all_eq_true.mpr h
  unfold ofBased basedValue?
  rw [hall, Bool.true_and]
  by_cases hlt : numeralValue base cs < 2 ^ 32
  · rw [if_pos (by simpa using hlt)]
    exact Integer.isWordOf_ofInt .unsigned _
  · rw [if_neg (by simpa using hlt)]
    refine ⟨?_, fun _ => rfl⟩
    intro _ hle
    exact absurd hle (by omega)

end Value

namespace Literal

/-- The kind of number that a literal is written as. -/
def kind (l : Literal) : NumberKind :=
  match l.spelling with
  | .decimal k => k
  | .hex => .integer
  | .octal => .integer

variable {l : Literal} {s rest : List Char}

theorem scansBased_of_scan? (h : scan? s = some (l, rest)) (hbased : ∀ k, l.spelling ≠ .decimal k) :
    ScansBased s l rest := by
  rcases scan?_eq_some_iff.mp h with ⟨taken, -, -, rfl⟩ | hscans
  · exact absurd rfl (hbased _)
  · exact hscans

/-- The digits of a literal to another base. -/
theorem ScansBased.isDigitOf (h : ScansBased s l rest) :
    (l.spelling = .hex → ∀ c ∈ l.text, Text.isDigitOf 16 c = true) ∧
      (l.spelling = .octal → ∀ c ∈ l.text, Text.isDigitOf 8 c = true) := by
  rcases h with ⟨_ | _, hrun⟩ | ⟨-, hrun⟩
  · exact ⟨fun _ => isDigitOf_of_mem_map_toUpper isDigitOf_sixteen hrun.inside, by simp⟩
  · exact ⟨by simp, fun _ => isDigitOf_of_mem_map_toUpper isDigitOf_eight hrun.inside⟩
  · exact ⟨by simp, fun _ => isDigitOf_of_mem_map_toUpper isDigitOf_eight hrun.inside⟩

end Literal

namespace Session

variable {l : Literal} {s : Session}

/-- A plain fault stops every session, and nothing is told. -/
theorem recover_ofFault (s : Session) (r : Except Fault Value) :
    s.recover (.ofFault r) = .ofExcept r := by
  rcases r with f | v
  · rcases s with ⟨_ | (_ | _), _⟩
    · rfl
    · rfl
    · rfl
  · rfl

/-- An overflow with a substitute stops every session but the tolerant one, which is told. -/
theorem recover_overflow (s : Session) (v : Value) :
    s.recover (.error (.overflow v)) =
      if s.policy = .soft false then ⟨["OVERFLOW"], .ok v⟩
      else ⟨[], .error (.ofCause .overflow)⟩ := by
  rcases s with ⟨_ | (_ | _), _⟩
  · rfl
  · rfl
  · rfl

/-- What a session takes for a failure is the substitute. -/
theorem substitute?_of_recover_error {e : Failure Value} {v : Value}
    (h : (s.recover (.error e)).result = .ok v) : e.substitute? = some v := by
  rw [recover] at h
  split at h
  · next hsub =>
    rw [hsub, Except.ok.inj h]
  · exact absurd h (by simp [Run.fail])

/-- A float or its substitute, whichever a session takes, is of one precision. -/
theorem kind_of_recover_lift {p : Precision} {o : Outcome (Floating p) (Floating p)} {v : Value}
    (h : (s.recover (Outcome.lift (.float p) o)).result = .ok v) :
    v.kind = .number (.float p) := by
  rcases o with e | x
  · have hsub := substitute?_of_recover_error h
    rw [Failure.substitute?_map, Option.map_eq_some_iff] at hsub
    obtain ⟨x, -, rfl⟩ := hsub
    rfl
  · obtain rfl := Except.ok.inj h
    rfl

theorem kind_of_recover_ofFault {o : Except Fault Integer} {v : Value}
    (h : (s.recover (.ofFault (o.map .integer))).result = .ok v) : v.kind = .number .integer := by
  rw [recover_ofFault] at h
  rcases o with f | w
  · exact absurd h (by simp [Run.ofExcept, Except.map])
  · obtain rfl := Except.ok.inj h
    rfl

/-- A literal that stands for the number `n` in a session: the word of `n` modulo `2^16` where it
is in range, and elsewhere a fault, without a message in either case. -/
structure ReadsWord (s : Session) (l : Literal) (n high : ℤ) : Prop where
  word : -32768 ≤ n → n ≤ high →
    ∃ w, s.ofLiteral l = ⟨[], .ok (.integer w)⟩ ∧ (Bytes.toNat w.toBytes : ℤ) = n % 2 ^ 16
  fault : n < -32768 ∨ high < n → s.ofLiteral l = ⟨[], .error (.ofCause .overflow)⟩

theorem readsWord_of_isWordOf (s : Session) {o : Except Fault Integer} {n high : ℤ}
    (hl : Value.ofLiteral l = .ofFault (o.map .integer)) (h : Integer.IsWordOf n high o) :
    s.ReadsWord l n high := by
  have hread : s.ofLiteral l = .ofExcept (o.map .integer) := by
    rw [ofLiteral, hl, recover_ofFault]
  refine ⟨?_, ?_⟩
  · intro hlo hhi
    obtain ⟨w, rfl, hw⟩ := h.word hlo hhi
    exact ⟨w, hread, hw⟩
  · intro hout
    obtain rfl := h.fault hout
    exact hread

/-! ## Integers in decimal digits -/

/-- What a session makes of an integer literal that stands for the decimal `d`. -/
structure ReadsDecimal (s : Session) (l : Literal) (d : Decimal) : Prop where
  /-- Where there is a double, the literal stands for the whole number nearest to it. -/
  rounded : ∀ x : Double, Floating.ofDecimal d = .ok x → s.ReadsWord l (nearestAway x.exact) 32767
  inside : d.value ≤ 32767 → ∃ w, s.ofLiteral l = ⟨[], .ok (.integer w)⟩
  outside : 32768 ≤ d.value → d.value ≤ (1 - 2 ^ (-55 : ℤ)) * 2 ^ 127 →
    s.ofLiteral l = ⟨[], .error (.ofCause .overflow)⟩
  /-- Past all doubles a tolerant session goes on with the largest of them. -/
  beyond : 2 ^ 127 ≤ d.value → s.ofLiteral l =
    if s.policy = .soft false then ⟨["OVERFLOW"], .ok (.max .double false)⟩
    else ⟨[], .error (.ofCause .overflow)⟩

/-- An integer literal that has a double is the double rounded. -/
theorem ofLiteral_of_ofDecimal_ok (hl : l.spelling = .decimal .integer) {x : Double}
    (hx : Floating.ofDecimal (.ofText l.text) = .ok x) :
    Value.ofLiteral l = .ofFault ((x.toInteger .signed).map .integer) := by
  rw [Value.ofLiteral, hl]
  simp only [hx]

/-- An integer literal past all doubles overflows as a double does. -/
theorem ofLiteral_of_ofDecimal_error (hl : l.spelling = .decimal .integer) {x : Double}
    (hx : (Floating.ofDecimal (.ofText l.text) : Outcome Double Double) = .error (.overflow x)) :
    Value.ofLiteral l = .error (.overflow (.float .double x)) := by
  rw [Value.ofLiteral, hl]
  simp only [hx]
  rfl

/-- **What a session makes of an integer literal in decimal digits.** -/
theorem readsDecimal (s : Session) (hl : l.spelling = .decimal .integer) :
    s.ReadsDecimal l (.ofText l.text) := by
  obtain ⟨hlo, hhi⟩ := Decimal.mantissa_ofText_lt_two_pow l.text
  have hrounded : ∀ x : Double, Floating.ofDecimal (.ofText l.text) = .ok x →
      s.ReadsWord l (nearestAway x.exact) 32767 := fun x hx =>
    s.readsWord_of_isWordOf (ofLiteral_of_ofDecimal_ok hl hx) (Floating.isWordOf_toInteger .signed x)
  have hnear : ∀ x : Double, Floating.ofDecimal (.ofText l.text) = .ok x →
      |x.exact - (Decimal.ofText l.text).value| ≤ 2 ^ (-55 : ℤ) * |x.exact| + 2 ^ (-127 : ℤ) :=
    fun x hx => Floating.abs_exact_sub_le_of_ofDecimal (by omega) hhi hx
  have hdouble : (Decimal.ofText l.text).value ≤ (1 - 2 ^ (-55 : ℤ)) * 2 ^ 127 →
      ∃ x : Double, Floating.ofDecimal (.ofText l.text) = .ok x := by
    intro hv
    rcases hx : (Floating.ofDecimal (.ofText l.text) : Outcome Double Double) with f | x
    · exact absurd hv (Floating.ofDecimal_error_of_nonneg hlo hhi hx).2.not_ge
    · exact ⟨x, rfl⟩
  refine ⟨hrounded, ?_, ?_, ?_⟩
  · intro hv
    obtain ⟨x, hx⟩ := hdouble (hv.trans (by norm_num))
    obtain ⟨hmin, hmax⟩ := (nearestAway_mem (hnear x hx)).1 (Decimal.value_nonneg hlo) hv
    obtain ⟨w, hw, -⟩ := (hrounded x hx).word hmin hmax
    exact ⟨w, hw⟩
  · intro hv hrange
    obtain ⟨x, hx⟩ := hdouble hrange
    exact (hrounded x hx).fault (Or.inr ((nearestAway_mem (hnear x hx)).2 hv))
  · intro hv
    have hx := Floating.ofDecimal_of_two_pow_le (p := .double) hlo hhi hv
    rw [ofLiteral, ofLiteral_of_ofDecimal_error hl hx, recover_overflow]
    rfl

/-- The integers that a session reads are integers, except past all doubles. -/
theorem kind_of_ofLiteral_integer (hl : l.spelling = .decimal .integer) {v : Value}
    (h : (s.ofLiteral l).result = .ok v) :
    v.kind = .number .integer ∨
      s.policy = .soft false ∧
        (1 - 2 ^ (-55 : ℤ)) * 2 ^ 127 < (Decimal.ofText l.text).value ∧
        s.ofLiteral l = ⟨["OVERFLOW"], .ok (.max .double false)⟩ := by
  obtain ⟨hlo, hhi⟩ := Decimal.mantissa_ofText_lt_two_pow l.text
  rcases hx : (Floating.ofDecimal (.ofText l.text) : Outcome Double Double) with f | x
  · obtain ⟨rfl, hv⟩ := Floating.ofDecimal_error_of_nonneg hlo hhi hx
    have hread : s.ofLiteral l = _ :=
      (congrArg s.recover (ofLiteral_of_ofDecimal_error hl hx)).trans (recover_overflow s _)
    by_cases hsoft : s.policy = .soft false
    · rw [if_pos hsoft] at hread
      exact Or.inr ⟨hsoft, hv, hread⟩
    · rw [hread, if_neg hsoft] at h
      exact absurd h (by simp)
  · rw [ofLiteral, ofLiteral_of_ofDecimal_ok hl hx] at h
    exact Or.inl (kind_of_recover_ofFault h)

/-! ## Every literal -/

/-- **A value is of the kind of its literal,** in every session, but for one case: an integer in
decimal digits that is past the range of doubles, or hardly below its end, which a tolerant session
reads as the largest double and tells.

To another base, and in decimal digits wherever there is a double, what is read is the word of the
number, and out of range it is a fault that stops every session without a message. In decimal
digits that is so from `32768` up to the end of the doubles; from `2^127` on it is not. -/
theorem ofLiteral_keeps_kind {text rest : List Char} (hscan : Literal.scan? text = some (l, rest))
    (s : Session) :
    (∀ v, (s.ofLiteral l).result = .ok v → v.kind = .number l.kind ∨
      l.spelling = .decimal .integer ∧ s.policy = .soft false ∧
        (1 - 2 ^ (-55 : ℤ)) * 2 ^ 127 < (Decimal.ofText l.text).value ∧
        s.ofLiteral l = ⟨["OVERFLOW"], .ok (.max .double false)⟩) ∧
    (l.spelling = .hex → s.ReadsWord l (numeralValue 16 l.text) 65535) ∧
    (l.spelling = .octal → s.ReadsWord l (numeralValue 8 l.text) 65535) ∧
    (l.spelling = .decimal .integer → s.ReadsDecimal l (.ofText l.text)) := by
  have hhex : l.spelling = .hex →
      Value.ofLiteral l = .ofFault ((Value.ofBased 16 l.text).map .integer) := by
    intro hl
    rw [Value.ofLiteral, hl]
  have hoctal : l.spelling = .octal →
      Value.ofLiteral l = .ofFault ((Value.ofBased 8 l.text).map .integer) := by
    intro hl
    rw [Value.ofLiteral, hl]
  refine ⟨?_, ?_, ?_, s.readsDecimal⟩
  · intro v h
    rcases hl : l.spelling with (_ | p) | _ | _
    · rw [Literal.kind, hl]
      rcases kind_of_ofLiteral_integer hl h with hkind | hbeyond
      · exact Or.inl hkind
      · exact Or.inr ⟨rfl, hbeyond⟩
    · rw [ofLiteral, Value.ofLiteral, hl] at h
      rw [Literal.kind, hl]
      exact Or.inl (kind_of_recover_lift h)
    · rw [ofLiteral, hhex hl] at h
      rw [Literal.kind, hl]
      exact Or.inl (kind_of_recover_ofFault h)
    · rw [ofLiteral, hoctal hl] at h
      rw [Literal.kind, hl]
      exact Or.inl (kind_of_recover_ofFault h)
  · intro hl
    have hdigits := (Literal.scansBased_of_scan? hscan (by simp [hl])).isDigitOf.1 hl
    exact s.readsWord_of_isWordOf (hhex hl) (Value.isWordOf_ofBased hdigits)
  · intro hl
    have hdigits := (Literal.scansBased_of_scan? hscan (by simp [hl])).isDigitOf.2 hl
    exact s.readsWord_of_isWordOf (hoctal hl) (Value.isWordOf_ofBased hdigits)

/-- Forty thousand with the mark of an integer is out of range, and a tolerant session stops. -/
theorem ofLiteral_keeps_kind_forty_thousand :
    let l : Literal := ⟨.decimal .integer, "40000%".toList⟩
    Literal.scan? "40000%".toList = some (l, []) ∧
      ofLiteral ⟨.soft false, false⟩ l = ⟨[], .error (.ofCause .overflow)⟩ := by
  intro l
  have hscan : Literal.scan? "40000%".toList = some (l, []) := by decide +kernel
  have hvalue : (Decimal.ofText l.text).value = 40000 := by
    have hread : Decimal.ofText l.text = ⟨40000, 0⟩ := by decide +kernel
    rw [hread]
    norm_num [Decimal.value]
  obtain ⟨-, -, -, hdecimal⟩ := ofLiteral_keeps_kind hscan ⟨.soft false, false⟩
  refine ⟨hscan, (hdecimal rfl).outside ?_ ?_⟩
  · rw [hvalue]
    norm_num
  · rw [hvalue]
    norm_num

/-- The kind is not kept by a literal past all doubles. -/
theorem not_forall_kind_ofLiteral :
    ¬ ∀ (text rest : List Char) (l : Literal) (s : Session) (v : Value),
      Literal.scan? text = some (l, rest) → (s.ofLiteral l).result = .ok v →
        v.kind = .number l.kind := by
  intro h
  have hkind := h "1E39%".toList [] ⟨.decimal .integer, "1E39%".toList⟩ ⟨.soft false, false⟩
    (.max .double false) (by decide +kernel) (by decide +kernel)
  exact absurd hkind (by decide)

end Session

end BasicNumerics
