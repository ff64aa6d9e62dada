/-
The grammar of literals, and that scanning takes the longest match.

Decimal literals are a regular language, written down here as a regular expression over
capital letters (`Numeral.grammar`). The scanner is built from parts that take what they can at
the start of a text and hand on the rest. Three facts about such a part are enough, and all
three pass from two parts to one after the other (`TakesPart.andThen`):

* what it takes is spelled by the part it gives, in capital letters;
* the case of letters makes no difference to it;
* it never gives back: what it takes of a text it also takes of every longer text, and if it
  takes a whole text it goes on into what follows.

The last is why there is no longer match. A prefix of the text that matches is taken whole, so
from the text itself at least as much is taken.
-/
import BasicNumerics.Proofs.Literal.Value
import Mathlib.Computability.RegularExpressions

set_option autoImplicit false

namespace BasicNumerics

open Text

/-! ## Capital letters -/

namespace Text

/-- What holds of the first 128 characters holds of every one of them. -/
theorem forall_ascii {P : Char → Prop} (h : ∀ k < 128, P (Char.ofNat k)) {c : Char}
    (hc : c.toNat < 128) : P c := by
  rw [← Char.ofNat_toNat c]
  exact h c.toNat hc

/-- Two tests that only the first 128 characters can pass need be compared on those only. -/
theorem iff_of_ascii {P Q : Char → Prop} (h : ∀ k < 128, P (Char.ofNat k) ↔ Q (Char.ofNat k))
    (hP : ∀ c, P c → c.toNat < 128) (hQ : ∀ c, Q c → c.toNat < 128) (c : Char) : P c ↔ Q c := by
  rcases Nat.lt_or_ge c.toNat 128 with hlt | hle
  · exact forall_ascii (P := fun c => P c ↔ Q c) h hlt
  · exact iff_of_false (fun hp => (hP c hp).not_ge hle) (fun hq => (hQ c hq).not_ge hle)

theorem lt_of_isPart {c : Char} (h : Literal.isPart c = true) : c.toNat < 128 :=
  (Literal.visible_of_isPart h).2.trans_lt (by decide)

theorem lt_of_all {cs : List Char} (h : cs.all (·.toNat < 128) = true) :
    ∀ c ∈ cs, c.toNat < 128 := by
  simpa using h

theorem toUpper_of_le {c : Char} (h : 128 ≤ c.toNat) : c.toUpper = c := by
  refine dif_neg ?_
  rintro ⟨-, hz⟩
  have hle : c.toNat ≤ 122 := by simpa [UInt32.le_iff_toNat_le] using hz
  omega

/-- A test that only the first 128 characters can pass, and those in either case, takes no
notice of case. -/
theorem apply_toUpper {α : Type} {f : Char → α}
    (h : ∀ k < 128, f (Char.ofNat k).toUpper = f (Char.ofNat k)) (c : Char) :
    f c.toUpper = f c := by
  rcases Nat.lt_or_ge c.toNat 128 with hlt | hle
  · exact forall_ascii (P := fun c => f c.toUpper = f c) h hlt
  · rw [toUpper_of_le hle]

theorem isDigit_toUpper (c : Char) : c.toUpper.isDigit = c.isDigit := by
  exact apply_toUpper (by decide +kernel) c

theorem toUpper_of_isDigit {c : Char} (h : c.isDigit = true) : c.toUpper = c := by
  rcases Nat.lt_or_ge c.toNat 128 with hlt | hle
  · revert h
    exact forall_ascii (P := fun c => c.isDigit = true → c.toUpper = c) (by decide +kernel) hlt
  · exact toUpper_of_le hle

theorem toUpper_toUpper (c : Char) : c.toUpper.toUpper = c.toUpper := by
  exact apply_toUpper (by decide +kernel) c

theorem map_toUpper_eq_self {cs : List Char} (h : ∀ c ∈ cs, c.toUpper = c) :
    cs.map Char.toUpper = cs := by
  have hsame : cs.map Char.toUpper = cs.map id := List.map_congr_left h
  rw [hsame, List.map_id]

/-- Digits have no capitals. -/
theorem map_toUpper_of_digits {ds : List Char} (h : ∀ c ∈ ds, c.isDigit = true) :
    ds.map Char.toUpper = ds :=
  map_toUpper_eq_self fun c hc => toUpper_of_isDigit (h c hc)

end Text

/-! ## Scanners that take one part -/

/-- A scanner that takes the longest part at the start of a text. `text` spells the part in
capital letters. -/
structure TakesPart {α : Type} (scan : List Char → α × List Char) (text : α → List Char) :
    Prop where
  spells : ∀ cs, cs.map Char.toUpper = text (scan cs).1 ++ (scan cs).2.map Char.toUpper
  folds : ∀ cs, scan (cs.map Char.toUpper) = ((scan cs).1, (scan cs).2.map Char.toUpper)
  /-- What stopped the scan stops it whatever follows. -/
  stops : ∀ cs tail, (scan cs).2 ≠ [] → (scan (cs ++ tail)).2 = (scan cs).2 ++ tail
  /-- A text that is taken whole is taken from every longer text. -/
  goesOn : ∀ cs tail, (scan cs).2 = [] → (scan (cs ++ tail)).2 <:+ tail

namespace TakesPart

variable {α β γ : Type} {scan : List Char → α × List Char} {text : α → List Char}
  {scan' : List Char → β × List Char} {text' : β → List Char}

theorem rest_nil (h : TakesPart scan text) : (scan []).2 = [] := by
  have hspells := h.spells []
  rw [List.map_nil, eq_comm, List.append_eq_nil_iff, List.map_eq_nil_iff] at hspells
  exact hspells.2

theorem rest_suffix (h : TakesPart scan text) (cs : List Char) : (scan cs).2 <:+ cs :=
  h.goesOn [] cs h.rest_nil

/-- **Two parts, one after the other,** are a part. -/
theorem andThen (h : TakesPart scan text) (h' : TakesPart scan' text') :
    TakesPart (fun cs => (((scan cs).1, (scan' (scan cs).2).1), (scan' (scan cs).2).2))
      (fun part => text part.1 ++ text' part.2) := by
  refine ⟨?_, ?_, ?_, ?_⟩
  · intro cs
    rw [h.spells cs, h'.spells (scan cs).2, List.append_assoc]
  · intro cs
    simp only [h.folds cs, h'.folds (scan cs).2]
  · intro cs tail hne
    have hfirst : (scan cs).2 ≠ [] := by
      intro hnil
      simp only [hnil] at hne
      exact hne h'.rest_nil
    simp only [h.stops cs tail hfirst]
    exact h'.stops _ tail hne
  · intro cs tail hnil
    by_cases hfirst : (scan cs).2 = []
    · exact (h'.rest_suffix _).trans (h.goesOn cs tail hfirst)
    · simp only [h.stops cs tail hfirst]
      exact h'.goesOn _ tail hnil

/-- Taking nothing. -/
theorem nothing : TakesPart (fun cs => ((), cs)) (fun _ => []) := by
  refine ⟨?_, ?_, ?_, ?_⟩
  · exact fun cs => rfl
  · exact fun cs => rfl
  · exact fun cs tail _ => rfl
  · rintro cs tail rfl
    exact List.suffix_rfl

/-- Taking all digits. -/
theorem digits :
    TakesPart (fun cs => (cs.takeWhile Char.isDigit, cs.dropWhile Char.isDigit)) id := by
  have hdigits : ∀ cs : List Char, (cs.takeWhile Char.isDigit).map Char.toUpper
      = cs.takeWhile Char.isDigit :=
    fun cs => map_toUpper_of_digits fun c hc => List.mem_takeWhile_imp hc
  have hfold : Char.isDigit ∘ Char.toUpper = Char.isDigit := funext isDigit_toUpper
  refine ⟨?_, ?_, ?_, ?_⟩
  · intro cs
    rw [id, ← hdigits cs, ← List.map_append, List.takeWhile_append_dropWhile]
  · intro cs
    rw [List.takeWhile_map, List.dropWhile_map, hfold, hdigits]
  · intro cs tail hne
    rw [List.dropWhile_append, if_neg (by simpa using hne)]
  · intro cs tail hnil
    rw [List.dropWhile_append, if_pos (by simpa using hnil)]
    exact List.dropWhile_suffix _

/-- A scanner that takes a part only behind a leading character of the right kind. -/
def headed (head : Char → Option β) (scan : List Char → α × List Char) (make : β → α → γ) :
    List Char → Option γ × List Char
  | [] => (none, [])
  | c :: cs =>
    match head c with
    | some b => (some (make b (scan cs).1), (scan cs).2)
    | none => (none, c :: cs)

/-- **A part behind a leading character** is a part. -/
theorem behind (h : TakesPart scan text) {head : Char → Option β} {make : β → α → γ}
    {whole : Option γ → List Char} (hfold : ∀ c, head c.toUpper = head c) (hnone : whole none = [])
    (hsome : ∀ c b, head c = some b → ∀ a, whole (some (make b a)) = c.toUpper :: text a) :
    TakesPart (headed head scan make) whole := by
  refine ⟨?_, ?_, ?_, ?_⟩
  · rintro (_ | ⟨c, cs⟩)
    · simp [headed, hnone]
    · rcases hc : head c with _ | b
      · simp [headed, hc, hnone]
      · simp [headed, hc, hsome c b hc, ← h.spells cs]
  · rintro (_ | ⟨c, cs⟩)
    · rfl
    · rcases hc : head c with _ | b
      · simp [headed, hc, hfold]
      · simp [headed, hc, hfold, h.folds cs]
  · rintro (_ | ⟨c, cs⟩) tail hne
    · exact absurd rfl hne
    · rcases hc : head c with _ | b
      · simp [headed, hc]
      · simp only [headed, hc, List.cons_append] at hne ⊢
        exact h.stops cs tail hne
  · rintro (_ | ⟨c, cs⟩) tail hnil
    · rcases tail with _ | ⟨c, cs⟩
      · exact List.suffix_rfl
      · rcases hc : head c with _ | b
        · simp [headed, hc]
        · simp only [headed, hc, List.nil_append]
          exact (h.rest_suffix cs).trans (List.suffix_cons c cs)
    · rcases hc : head c with _ | b
      · simp [headed, hc] at hnil
      · simp only [headed, hc, List.cons_append] at hnil ⊢
        exact h.goesOn cs tail hnil

end TakesPart

/-! ## The scanner of decimal literals, part by part -/

namespace Numeral

open TakesPart

variable {n : Numeral} {cs s : List Char}

def pointOf? (c : Char) : Option Unit := if c = '.' then some () else none

theorem takesPart_scanFraction : TakesPart scanFraction fractionPart := by
  have heq : scanFraction = headed pointOf?
      (fun cs => (cs.takeWhile Char.isDigit, cs.dropWhile Char.isDigit)) (fun _ ds => ds) := by
    funext cs
    rcases cs with _ | ⟨c, cs⟩
    · rfl
    · by_cases hc : c = '.'
      · subst hc
        rfl
      · simp [scanFraction, headed, pointOf?, hc]
  rw [heq]
  refine TakesPart.digits.behind (apply_toUpper (by decide +kernel)) rfl ?_
  intro c b hc ds
  have hpoint : c = '.' := by
    by_contra hne
    simp [pointOf?, hne] at hc
  subst hpoint
  rfl

/-- The sign that a character is. -/
def signOf? (c : Char) : Option Bool :=
  if c = '-' then some true else if c = '+' then some false else none

theorem takesPart_scanSign : TakesPart scanSign signText := by
  have heq : scanSign = headed signOf? (fun cs => ((), cs)) (fun b _ => b) := by
    funext cs
    rcases cs with _ | ⟨c, cs⟩
    · rfl
    · by_cases hminus : c = '-'
      · subst hminus
        rfl
      · by_cases hplus : c = '+'
        · subst hplus
          rfl
        · simp [scanSign, headed, signOf?, hminus, hplus]
  rw [heq]
  refine TakesPart.nothing.behind (apply_toUpper (by decide +kernel)) rfl ?_
  intro c b hc _
  unfold signOf? at hc
  split at hc
  · next hminus =>
    obtain rfl := Option.some.inj hc
    subst hminus
    rfl
  · split at hc
    · next hplus =>
      obtain rfl := Option.some.inj hc
      subst hplus
      rfl
    · exact absurd hc (by simp)

theorem ofMarker?_toUpper (c : Char) : Precision.ofMarker? c.toUpper = Precision.ofMarker? c := by
  exact apply_toUpper (by decide +kernel) c

theorem toUpper_of_ofMarker? {c : Char} {p : Precision} (h : Precision.ofMarker? c = some p) :
    c.toUpper = p.marker := by
  unfold Precision.ofMarker? at h
  split at h
  · next hE =>
    obtain rfl := Option.some.inj h
    rcases hE with rfl | rfl <;> decide
  · split at h
    · next hD =>
      obtain rfl := Option.some.inj h
      rcases hD with rfl | rfl <;> decide
    · exact absurd h (by simp)

theorem takesPart_scanExponent : TakesPart scanExponent exponentPart := by
  have heq : scanExponent = headed Precision.ofMarker?
      (fun cs => (((scanSign cs).1, (scanSign cs).2.takeWhile Char.isDigit),
        (scanSign cs).2.dropWhile Char.isDigit))
      (fun marker part => ⟨marker, part.1, part.2⟩) := by
    funext cs
    rcases cs with _ | ⟨c, cs⟩
    · rfl
    · rw [scanExponent, headed]
      rcases Precision.ofMarker? c with _ | marker
      · rfl
      · rfl
  rw [heq]
  refine (takesPart_scanSign.andThen TakesPart.digits).behind ofMarker?_toUpper rfl ?_
  rintro c marker hc ⟨sign, ds⟩
  rw [toUpper_of_ofMarker? hc]
  rfl

theorem takesPart_scanMark : TakesPart scanMark markPart := by
  have heq : scanMark = headed NumberKind.ofSigil? (fun cs => ((), cs)) (fun k _ => k) := by
    funext cs
    rcases cs with _ | ⟨c, cs⟩
    · rfl
    · rw [scanMark, headed]
      rcases NumberKind.ofSigil? c with _ | k
      · rfl
      · rfl
  rw [heq]
  refine TakesPart.nothing.behind (apply_toUpper (by decide +kernel)) rfl ?_
  intro c k hc _
  rw [← NumberKind.sigil_of_ofSigil? hc]
  rcases k with _ | ⟨_ | _⟩ <;> decide

/-- **A decimal literal is four parts,** one after the other. -/
theorem takesPart_scan : TakesPart scan text := by
  have hparts := ((TakesPart.digits.andThen takesPart_scanFraction).andThen
    takesPart_scanExponent).andThen takesPart_scanMark
  refine ⟨?_, ?_, ?_, ?_⟩
  · intro cs
    rw [hparts.spells cs, text_eq]
    simp only [List.append_assoc, id, scan]
  · intro cs
    have hfolds := hparts.folds cs
    simp only [Prod.mk.injEq] at hfolds
    simp only [scan, hfolds]
  · exact hparts.stops
  · exact hparts.goesOn

theorem isDigit_of_mem_scanFraction :
    ∀ ds ∈ (scanFraction cs).1, ∀ d ∈ ds, d.isDigit = true := by
  intro ds hds
  unfold scanFraction at hds
  split at hds
  · simp only [Option.mem_some_iff] at hds
    subst hds
    exact fun x hx => List.mem_takeWhile_imp hx
  · exact absurd hds (by simp)

theorem isDigit_of_mem_scanExponent :
    ∀ e ∈ (scanExponent cs).1, ∀ d ∈ e.digits, d.isDigit = true := by
  intro e he
  rcases cs with _ | ⟨d, ds⟩
  · exact absurd he (by simp [scanExponent])
  · rw [scanExponent] at he
    rcases hd : Precision.ofMarker? d with _ | marker
    · simp [hd] at he
    · simp only [hd, Option.mem_some_iff] at he
      subst he
      exact fun x hx => List.mem_takeWhile_imp hx

/-- **What is scanned is well formed,** if a decimal literal can start there. -/
theorem wellFormed_scan {c : Char} (h : Literal.isDecimalStart c = true) :
    (scan (c :: cs)).1.WellFormed := by
  refine ⟨fun d hd => List.mem_takeWhile_imp hd, isDigit_of_mem_scanFraction,
    isDigit_of_mem_scanExponent, ?_⟩
  by_cases hc : c.isDigit = true
  · left
    simp [scan, hc]
  · right
    have hpoint : c = '.' := by simpa [Literal.isDecimalStart, hc] using h
    subst hpoint
    simp [scan, scanFraction, hc]

end Numeral

/-! ## The grammar -/

namespace Grammar

/-- One of the given characters. -/
def oneOf (cs : List Char) : RegularExpression Char := (cs.map RegularExpression.char).sum

/-- A match or nothing. -/
def optional (r : RegularExpression Char) : RegularExpression Char := 1 + r

def digits : List Char := ['0', '1', '2', '3', '4', '5', '6', '7', '8', '9']

def digit : RegularExpression Char := oneOf digits

def mantissa : RegularExpression Char :=
  digit * digit.star * optional (.char '.' * digit.star) + .char '.' * digit.star

def exponent : RegularExpression Char :=
  oneOf ['E', 'D'] * optional (oneOf ['+', '-']) * digit.star

def mark : RegularExpression Char := oneOf ['!', '#', '%']

variable {cs t : List Char} {r : RegularExpression Char}

theorem mem_oneOf : t ∈ (oneOf cs).matches' ↔ ∃ c ∈ cs, t = [c] := by
  rw [oneOf]
  induction cs with
  | nil => exact iff_of_false (Language.notMem_zero t) (by simp)
  | cons c cs ih =>
    rw [List.map_cons, List.sum_cons, RegularExpression.matches'_add, Language.mem_add, ih,
      List.exists_mem_cons_iff]
    rfl

theorem mem_optional : t ∈ (optional r).matches' ↔ t = [] ∨ t ∈ r.matches' := by
  rw [optional, RegularExpression.matches'_add, Language.mem_add,
    RegularExpression.matches'_epsilon, Language.mem_one]

theorem mem_char_mul {c : Char} :
    t ∈ (.char c * r : RegularExpression Char).matches' ↔ ∃ u ∈ r.matches', t = c :: u := by
  rw [RegularExpression.matches'_mul, Language.mem_mul]
  constructor
  · rintro ⟨a, rfl, u, hu, rfl⟩
    exact ⟨u, hu, rfl⟩
  · rintro ⟨u, hu, rfl⟩
    exact ⟨[c], rfl, u, hu, rfl⟩

theorem mem_digits (c : Char) : c ∈ digits ↔ c.isDigit = true := by
  refine iff_of_ascii (P := (· ∈ digits)) (Q := (·.isDigit = true)) (by decide +kernel) ?_ ?_ c
  · exact lt_of_all (by decide)
  · exact fun c hc => lt_of_isPart (Literal.isPart_of_isDigit hc)

theorem mem_digit : t ∈ digit.matches' ↔ ∃ c, c.isDigit = true ∧ t = [c] := by
  simp only [digit, mem_oneOf, mem_digits]

/-- A row of digits, also an empty one. -/
theorem mem_digit_star : t ∈ digit.star.matches' ↔ ∀ c ∈ t, c.isDigit = true := by
  rw [RegularExpression.matches'_star, Language.mem_kstar]
  constructor
  · rintro ⟨rows, rfl, hrows⟩ c hc
    obtain ⟨row, hrow, hmem⟩ := List.mem_flatten.mp hc
    obtain ⟨d, hd, rfl⟩ := mem_digit.mp (hrows row hrow)
    rw [List.mem_singleton.mp hmem]
    exact hd
  · intro h
    refine ⟨t.map fun c => [c], by rw [← List.flatMap_def, List.flatMap_singleton'], ?_⟩
    intro row hrow
    obtain ⟨c, hc, rfl⟩ := List.mem_map.mp hrow
    exact mem_digit.mpr ⟨c, h c hc, rfl⟩

/-- A row of digits with at least one. -/
theorem mem_digit_mul_star :
    t ∈ (digit * digit.star).matches' ↔ t ≠ [] ∧ ∀ c ∈ t, c.isDigit = true := by
  rw [RegularExpression.matches'_mul, Language.mem_mul]
  constructor
  · rintro ⟨a, ha, b, hb, rfl⟩
    obtain ⟨c, hc, rfl⟩ := mem_digit.mp ha
    refine ⟨by simp, ?_⟩
    rintro d (_ | ⟨_, hd⟩)
    · exact hc
    · exact mem_digit_star.mp hb d hd
  · rintro ⟨hne, h⟩
    obtain ⟨c, cs, rfl⟩ := List.exists_cons_of_ne_nil hne
    refine ⟨[c], mem_digit.mpr ⟨c, h c (by simp), rfl⟩, cs, ?_, rfl⟩
    exact mem_digit_star.mpr fun d hd => h d (by simp [hd])

open Numeral

theorem mem_fraction : t ∈ (optional (.char '.' * digit.star)).matches' ↔
    ∃ f, (∀ ds ∈ f, ∀ c ∈ ds, c.isDigit = true) ∧ t = fractionPart f := by
  rw [mem_optional, mem_char_mul]
  constructor
  · rintro (rfl | ⟨ds, hds, rfl⟩)
    · exact ⟨none, by simp, rfl⟩
    · exact ⟨some ds, by simpa using mem_digit_star.mp hds, rfl⟩
  · rintro ⟨_ | ds, hf, rfl⟩
    · exact Or.inl rfl
    · exact Or.inr ⟨ds, mem_digit_star.mpr (hf ds rfl), rfl⟩

theorem mem_mantissa : t ∈ mantissa.matches' ↔
    ∃ whole f, (∀ c ∈ whole, c.isDigit = true) ∧ (∀ ds ∈ f, ∀ c ∈ ds, c.isDigit = true) ∧
      (whole ≠ [] ∨ f ≠ none) ∧ t = whole ++ fractionPart f := by
  rw [mantissa, RegularExpression.matches'_add, Language.mem_add, mem_char_mul,
    RegularExpression.matches'_mul, Language.mem_mul]
  constructor
  · rintro (⟨whole, hwhole, u, hu, rfl⟩ | ⟨ds, hds, rfl⟩)
    · obtain ⟨hne, hdigits⟩ := mem_digit_mul_star.mp hwhole
      obtain ⟨f, hf, rfl⟩ := mem_fraction.mp hu
      exact ⟨whole, f, hdigits, hf, Or.inl hne, rfl⟩
    · exact ⟨[], some ds, by simp, by simpa using mem_digit_star.mp hds, Or.inr (by simp), rfl⟩
  · rintro ⟨whole, f, hwhole, hf, hstarts, rfl⟩
    by_cases hne : whole = []
    · -- no whole digits, so there is a point
      subst hne
      obtain ⟨ds, rfl⟩ := Option.ne_none_iff_exists'.mp (hstarts.resolve_left (by simp))
      exact Or.inr ⟨ds, mem_digit_star.mpr (hf ds rfl), rfl⟩
    · exact Or.inl ⟨whole, mem_digit_mul_star.mpr ⟨hne, hwhole⟩, _, mem_fraction.mpr ⟨f, hf, rfl⟩,
        rfl⟩

theorem mem_sign : t ∈ (optional (oneOf ['+', '-'])).matches' ↔ ∃ sign, t = signText sign := by
  rw [mem_optional, mem_oneOf]
  constructor
  · rintro (rfl | ⟨c, hc, rfl⟩)
    · exact ⟨none, rfl⟩
    · rw [List.mem_cons, List.mem_singleton] at hc
      rcases hc with rfl | rfl
      · exact ⟨some false, rfl⟩
      · exact ⟨some true, rfl⟩
  · rintro ⟨_ | _ | _, rfl⟩
    · exact Or.inl rfl
    · exact Or.inr ⟨'+', by simp, rfl⟩
    · exact Or.inr ⟨'-', by simp, rfl⟩

theorem mem_exponent : t ∈ (optional exponent).matches' ↔
    ∃ e, (∀ f ∈ e, ∀ c ∈ f.digits, c.isDigit = true) ∧ t = exponentPart e := by
  rw [mem_optional, exponent, RegularExpression.matches'_mul, Language.mem_mul,
    RegularExpression.matches'_mul]
  constructor
  · rintro (rfl | ⟨u, hu, ds, hds, rfl⟩)
    · exact ⟨none, by simp, rfl⟩
    · obtain ⟨a, ha, b, hb, rfl⟩ := Language.mem_mul.mp hu
      obtain ⟨c, hc, rfl⟩ := mem_oneOf.mp ha
      obtain ⟨sign, rfl⟩ := mem_sign.mp hb
      have hdigits := mem_digit_star.mp hds
      rw [List.mem_cons, List.mem_singleton] at hc
      rcases hc with rfl | rfl
      · exact ⟨some ⟨.single, sign, ds⟩, by simpa using hdigits, rfl⟩
      · exact ⟨some ⟨.double, sign, ds⟩, by simpa using hdigits, rfl⟩
  · rintro ⟨_ | ⟨marker, sign, ds⟩, he, rfl⟩
    · exact Or.inl rfl
    · refine Or.inr ⟨_, Language.mem_mul.mpr ⟨[marker.marker], ?_, _, mem_sign.mpr ⟨sign, rfl⟩, rfl⟩,
        ds, mem_digit_star.mpr (he _ rfl), rfl⟩
      exact mem_oneOf.mpr ⟨marker.marker, by cases marker <;> decide, rfl⟩

theorem mem_mark : t ∈ (optional mark).matches' ↔ ∃ m, t = markPart m := by
  rw [mem_optional, mark, mem_oneOf]
  constructor
  · rintro (rfl | ⟨c, hc, rfl⟩)
    · exact ⟨none, rfl⟩
    · simp only [List.mem_cons, List.not_mem_nil, or_false] at hc
      rcases hc with rfl | rfl | rfl
      · exact ⟨some (.float .single), rfl⟩
      · exact ⟨some (.float .double), rfl⟩
      · exact ⟨some .integer, rfl⟩
  · rintro ⟨_ | k, rfl⟩
    · exact Or.inl rfl
    · exact Or.inr ⟨k.sigil, by rcases k with _ | ⟨_ | _⟩ <;> decide, rfl⟩

end Grammar

namespace Numeral

/-- The decimal literals in capital letters: with `D` for a digit, the regular expression
`(D+(\.D*)?|\.D*)([ED][+-]?D*)?[!#%]?`. -/
def grammar : RegularExpression Char :=
  Grammar.mantissa * Grammar.optional Grammar.exponent * Grammar.optional Grammar.mark

/-- **The grammar generates the texts of the numerals,** and nothing else. -/
theorem mem_grammar {t : List Char} : t ∈ grammar.matches' ↔ ∃ n : Numeral, n.WellFormed ∧ t = n.text := by
  rw [grammar, RegularExpression.matches'_mul, RegularExpression.matches'_mul, Language.mem_mul]
  constructor
  · rintro ⟨u, hu, v, hv, rfl⟩
    obtain ⟨a, ha, b, hb, rfl⟩ := Language.mem_mul.mp hu
    obtain ⟨whole, f, hwhole, hf, hstarts, rfl⟩ := Grammar.mem_mantissa.mp ha
    obtain ⟨e, he, rfl⟩ := Grammar.mem_exponent.mp hb
    obtain ⟨m, rfl⟩ := Grammar.mem_mark.mp hv
    refine ⟨⟨whole, f, e, m⟩, ⟨hwhole, hf, he, hstarts⟩, ?_⟩
    rw [text_eq]
    simp only [List.append_assoc]
  · rintro ⟨n, h, rfl⟩
    refine ⟨_, Language.mem_mul.mpr ⟨n.whole ++ fractionPart n.fraction, ?_,
      exponentPart n.exponent, ?_, rfl⟩, markPart n.mark, Grammar.mem_mark.mpr ⟨n.mark, rfl⟩, ?_⟩
    · exact Grammar.mem_mantissa.mpr ⟨n.whole, n.fraction, h.whole, h.fraction, h.starts, rfl⟩
    · exact Grammar.mem_exponent.mpr ⟨n.exponent, h.exponent, rfl⟩
    · rw [text_eq]
      simp only [List.append_assoc]

end Numeral

/-! ## The longest match -/

/-- The prefix of `s` that matches a grammar, taken without regard to case, and is as long as any
other. -/
structure LongestMatch (grammar : RegularExpression Char) (s taken : List Char) : Prop where
  isPrefix : taken <+: s
  isMatch : taken.map Char.toUpper ∈ grammar.matches'
  longest : ∀ q, q <+: s → q.map Char.toUpper ∈ grammar.matches' → q.length ≤ taken.length

theorem LongestMatch.unique {grammar : RegularExpression Char} {s q r : List Char}
    (hq : LongestMatch grammar s q) (hr : LongestMatch grammar s r) : q = r := by
  have hlength : q.length = r.length :=
    le_antisymm (hr.longest q hq.isPrefix hq.isMatch) (hq.longest r hr.isPrefix hr.isMatch)
  exact (List.prefix_of_prefix_length_le hq.isPrefix hr.isPrefix hlength.le).eq_of_length hlength

namespace Numeral

/-- A match of the grammar is scanned to its end, in capital letters or not. -/
theorem scan_of_mem_grammar {q : List Char} (h : q.map Char.toUpper ∈ grammar.matches') :
    (scan q).2 = [] := by
  obtain ⟨n, hn, htext⟩ := mem_grammar.mp h
  have hfolds := takesPart_scan.folds q
  rw [htext, scan_text hn, Prod.mk.injEq] at hfolds
  exact List.map_eq_nil_iff.mp hfolds.2.symm

/-- **Scanning takes the longest match of the grammar.** -/
theorem exists_longestMatch {c : Char} (cs : List Char) (h : Literal.isDecimalStart c = true) :
    ∃ taken, c :: cs = taken ++ (scan (c :: cs)).2 ∧
      taken.map Char.toUpper = (scan (c :: cs)).1.text ∧ LongestMatch grammar (c :: cs) taken := by
  obtain ⟨taken, htaken⟩ := takesPart_scan.rest_suffix (c :: cs)
  have htext : taken.map Char.toUpper = (scan (c :: cs)).1.text := by
    have hspells := takesPart_scan.spells (c :: cs)
    conv_lhs at hspells => rw [← htaken]
    rw [List.map_append] at hspells
    exact List.append_cancel_right hspells
  refine ⟨taken, htaken.symm, htext, ⟨_, htaken⟩, ?_, ?_⟩
  · exact mem_grammar.mpr ⟨_, wellFormed_scan h, htext⟩
  · rintro q ⟨tail, hq⟩ hmatch
    -- the match is taken whole, so the scan leaves no more than what follows the match
    have hrest := (takesPart_scan.goesOn q tail (scan_of_mem_grammar hmatch)).length_le
    rw [hq] at hrest
    have hlength := congrArg List.length (hq.trans htaken.symm)
    rw [List.length_append, List.length_append] at hlength
    omega

end Numeral

/-! ## The kind of a text -/

namespace Literal

/-- The digits of the mantissa that a text starts with, from the first that is not zero. -/
def significantDigits (t : List Char) : List Char :=
  ((t.takeWhile Decimal.isMantissaChar).filter Char.isDigit).dropWhile (· == '0')

/-- The kind that the text of a decimal literal tells, in capital letters: a mark at its end
decides; without one, a `D` or more than seven digits make a double, plain digits up to the largest
integer an integer, and all else is single. -/
def spelledKind (t : List Char) : NumberKind :=
  match t.getLast?.bind NumberKind.ofSigil? with
  | some k => k
  | none =>
    if 'D' ∈ t ∨ 7 < (significantDigits t).length then .float .double
    else if '.' ∉ t ∧ 'E' ∉ t ∧ numeralValue 10 t ≤ 32767 then .integer
    else .float .single

end Literal

namespace Numeral

variable {n : Numeral}

/-- Where a character that is no digit can stand in a numeral. -/
theorem mem_text (h : n.WellFormed) {c : Char} (hc : c.isDigit = false) : c ∈ n.text ↔
    c = '.' ∧ n.fraction ≠ none ∨
      (∃ marker sign ds, n.exponent = some ⟨marker, sign, ds⟩ ∧
        (c = marker.marker ∨ c ∈ signText sign)) ∨
      ∃ k, n.mark = some k ∧ c = k.sigil := by
  have hdigit : ∀ {ds : List Char}, (∀ d ∈ ds, d.isDigit = true) → c ∉ ds := by
    intro ds hds hmem
    rw [hds c hmem] at hc
    exact absurd hc (by simp)
  rw [text_eq, List.mem_append, List.mem_append, List.mem_append]
  refine ((or_iff_right (hdigit h.whole)).trans (or_congr ?_ (or_congr ?_ ?_)))
  · rcases hf : n.fraction with _ | ds
    · simp [fractionPart]
    · simp [fractionPart, hdigit (h.fraction ds hf)]
  · rcases he : n.exponent with _ | ⟨marker, sign, ds⟩
    · simp [exponentPart]
    · have hds : c ∉ ds := hdigit (h.exponent _ he)
      simp [exponentPart, hds]
  · rcases hm : n.mark with _ | k
    · simp [markPart]
    · simp [markPart]

theorem point_mem_text (h : n.WellFormed) : '.' ∈ n.text ↔ n.fraction ≠ none := by
  rw [mem_text h (by decide)]
  constructor
  · rintro (⟨-, hf⟩ | ⟨marker, sign, ds, -, he | he⟩ | ⟨k, -, hk⟩)
    · exact hf
    · rcases marker with _ | _ <;> exact absurd he (by decide)
    · rcases sign with _ | _ | _ <;> exact absurd he (by decide)
    · rcases k with _ | ⟨_ | _⟩ <;> exact absurd hk (by decide)
  · exact fun hf => Or.inl ⟨rfl, hf⟩

theorem marker_mem_text (h : n.WellFormed) (p : Precision) :
    p.marker ∈ n.text ↔ ∃ e ∈ n.exponent, e.marker = p := by
  rw [mem_text h (by cases p <;> decide)]
  constructor
  · rintro (⟨hp, -⟩ | ⟨marker, sign, ds, hmem, he | he⟩ | ⟨k, -, hk⟩)
    · rcases p with _ | _ <;> exact absurd hp (by decide)
    · refine ⟨_, hmem, ?_⟩
      show marker = p
      rcases p with _ | _ <;> rcases marker with _ | _ <;> revert he <;> decide
    · rcases p with _ | _ <;> rcases sign with _ | _ | _ <;> exact absurd he (by decide)
    · rcases p with _ | _ <;> rcases k with _ | ⟨_ | _⟩ <;> exact absurd hk (by decide)
  · rintro ⟨⟨marker, sign, ds⟩, he, rfl⟩
    exact Or.inr (Or.inl ⟨marker, sign, ds, he, Or.inl rfl⟩)

theorem sigil_mem_text (h : n.WellFormed) (k : NumberKind) : k.sigil ∈ n.text ↔ n.mark = some k := by
  rw [mem_text h (by rcases k with _ | ⟨_ | _⟩ <;> decide)]
  constructor
  · rintro (⟨hp, -⟩ | ⟨marker, sign, ds, -, he | he⟩ | ⟨m, hm, hk⟩)
    · rcases k with _ | ⟨_ | _⟩ <;> exact absurd hp (by decide)
    · rcases k with _ | ⟨_ | _⟩ <;> rcases marker with _ | _ <;> exact absurd he (by decide)
    · rcases k with _ | ⟨_ | _⟩ <;> rcases sign with _ | _ | _ <;> exact absurd he (by decide)
    · have hsame := congrArg NumberKind.ofSigil? hk
      rw [NumberKind.ofSigil?_sigil, NumberKind.ofSigil?_sigil] at hsame
      rw [hm, hsame]
  · exact fun hm => Or.inr (Or.inr ⟨k, hm, rfl⟩)

/-- The mark of a numeral is its last character, if that is one. -/
theorem ofSigil?_getLast? (h : n.WellFormed) : n.text.getLast?.bind NumberKind.ofSigil? = n.mark := by
  rcases hm : n.mark with _ | k
  · rw [Option.bind_eq_none_iff]
    intro c hc
    by_contra hsome
    obtain ⟨k, hk⟩ := Option.ne_none_iff_exists'.mp hsome
    have hmem := List.mem_of_getLast? hc
    rw [← NumberKind.sigil_of_ofSigil? hk, sigil_mem_text h, hm] at hmem
    exact absurd hmem (by simp)
  · rw [text_eq, hm]
    simp [markPart]

theorem significantDigits_text (h : n.WellFormed) :
    Literal.significantDigits n.text = n.digits.dropWhile (· == '0') := by
  rw [Literal.significantDigits, (mantissa_chars h).1, filter_mantissa h]

theorem spellsDouble_iff (h : n.WellFormed) :
    ('D' ∈ n.text ∨ 7 < (Literal.significantDigits n.text).length) ↔
      (n.hasDoubleMarker || decide (7 < n.significant)) = true := by
  rw [significantDigits_text h, show 'D' = Precision.double.marker from rfl, marker_mem_text h,
    Bool.or_eq_true, decide_eq_true_eq, hasDoubleMarker, Option.any_eq_true]
  simp only [Option.mem_def, decide_eq_true_eq]
  rfl

/-- Plain digits have neither a point nor an exponent letter. -/
theorem spellsPlain_iff (h : n.WellFormed) :
    ('.' ∉ n.text ∧ 'E' ∉ n.text ∧ 'D' ∉ n.text) ↔ n.fraction = none ∧ n.exponent = none := by
  rw [point_mem_text h, not_not, show 'E' = Precision.single.marker from rfl,
    show 'D' = Precision.double.marker from rfl, marker_mem_text h, marker_mem_text h]
  rcases n.exponent with _ | ⟨_ | _, sign, ds⟩ <;> simp

/-- **The parts of a numeral and its text tell one kind.** -/
theorem spelledKind_text (h : n.WellFormed) : Literal.spelledKind n.text = n.kind := by
  have hdouble := spellsDouble_iff h
  rw [Literal.spelledKind, kind, ofSigil?_getLast? h]
  rcases hm : n.mark with _ | k
  · simp only [hdouble]
    by_cases hd : (n.hasDoubleMarker || decide (7 < n.significant)) = true
    · rw [if_pos hd, if_pos hd]
    · rw [if_neg hd, if_neg hd]
      have hD : 'D' ∉ n.text := fun hmem => hd (hdouble.mp (Or.inl hmem))
      by_cases hparts : n.fraction = none ∧ n.exponent = none
      · have htext : n.text = n.whole := by
          rw [text_eq, hparts.1, hparts.2, hm]
          simp [fractionPart, exponentPart, markPart]
        obtain ⟨hpoint, hE, -⟩ := (spellsPlain_iff h).mpr hparts
        rw [htext] at hpoint hE
        simp [htext, hpoint, hE, hparts.1, hparts.2]
      · rw [if_neg, if_neg]
        · simpa using fun hf he => absurd ⟨hf, he⟩ hparts
        · rintro ⟨hpoint, hE, -⟩
          exact hparts ((spellsPlain_iff h).mp ⟨hpoint, hE, hD⟩)
  · rfl

end Numeral

/-! ## Literals of another base -/

namespace Literal

def hexDigits : List Char :=
  ['0', '1', '2', '3', '4', '5', '6', '7', '8', '9', 'A', 'B', 'C', 'D', 'E', 'F']

def octalDigits : List Char := ['0', '1', '2', '3', '4', '5', '6', '7']

/-- `ds` is the longest row of the given digits, capital letters or not, that `cs` starts with. -/
structure IsRun (digits cs ds rest : List Char) : Prop where
  split_eq : cs = ds ++ rest
  inside : ∀ c ∈ ds, c.toUpper ∈ digits
  stops : ∀ c ∈ rest.head?, c.toUpper ∉ digits

/-- The letter behind the ampersand that names a base, with its digits. -/
inductive BaseLetter : Char → Spelling → List Char → Prop
  | hex {c : Char} (h : c.toUpper = 'H') : BaseLetter c .hex hexDigits
  | octal {c : Char} (h : c.toUpper = 'O') : BaseLetter c .octal octalDigits

/-- The literals of another base at the start of a text: an ampersand, the letter of a base or no
letter, and all digits of the base that follow. -/
inductive ScansBased : List Char → Literal → List Char → Prop
  | lettered {c : Char} {spelling : Spelling} {digits cs ds rest : List Char}
      (letter : BaseLetter c spelling digits) (run : IsRun digits cs ds rest) :
      ScansBased ('&' :: c :: cs) ⟨spelling, ds.map Char.toUpper⟩ rest
  | bare {cs ds rest : List Char} (letter : ∀ c ∈ cs.head?, c.toUpper ≠ 'H' ∧ c.toUpper ≠ 'O')
      (run : IsRun octalDigits cs ds rest) :
      ScansBased ('&' :: cs) ⟨.octal, ds.map Char.toUpper⟩ rest

variable {base : ℕ} {digits cs ds rest : List Char}

/-- A test that only characters of literals pass is that of being among given capital letters and
digits, if it is so for the first 128 characters. -/
theorem iff_mem_digits (digits : List Char) {f : Char → Bool} (hpart : ∀ c, f c = true → isPart c = true)
    (hdigits : digits.all (·.toNat < 128) = true)
    (h : ∀ k < 128, f (Char.ofNat k) = true ↔ (Char.ofNat k).toUpper ∈ digits) (c : Char) :
    f c = true ↔ c.toUpper ∈ digits := by
  refine iff_of_ascii (P := (f · = true)) (Q := (·.toUpper ∈ digits)) h ?_ ?_ c
  · exact fun c hc => lt_of_isPart (hpart c hc)
  · intro c hc
    by_contra hle
    rw [toUpper_of_le (not_lt.mp hle)] at hc
    exact hle (lt_of_all hdigits c hc)

theorem isDigitOf_sixteen : ∀ c, isDigitOf 16 c = true ↔ c.toUpper ∈ hexDigits :=
  iff_mem_digits hexDigits (fun _ => isPart_of_isDigitOf 16) (by decide) (by decide +kernel)

theorem isDigitOf_eight : ∀ c, isDigitOf 8 c = true ↔ c.toUpper ∈ octalDigits :=
  iff_mem_digits octalDigits (fun _ => isPart_of_isDigitOf 8) (by decide) (by decide +kernel)

theorem letter_hex : ∀ c, (c = 'H' ∨ c = 'h') ↔ c.toUpper = 'H' := by
  intro c
  have h := iff_mem_digits ['H'] (f := fun c => decide (c = 'H' ∨ c = 'h'))
    (by simp; decide) (by decide) (by decide +kernel) c
  simpa using h

theorem letter_octal : ∀ c, (c = 'O' ∨ c = 'o') ↔ c.toUpper = 'O' := by
  intro c
  have h := iff_mem_digits ['O'] (f := fun c => decide (c = 'O' ∨ c = 'o'))
    (by simp; decide) (by decide) (by decide +kernel) c
  simpa using h

/-- **The longest row of digits is what the scanner takes.** -/
theorem isRun_iff (h : ∀ c, isDigitOf base c = true ↔ c.toUpper ∈ digits) :
    IsRun digits cs ds rest ↔
      ds = cs.takeWhile (isDigitOf base) ∧ rest = cs.dropWhile (isDigitOf base) := by
  constructor
  · rintro ⟨rfl, hinside, hstops⟩
    have hhead : ∀ c ∈ rest.head?, isDigitOf base c = false := by
      intro c hc
      rw [← Bool.not_eq_true, h]
      exact hstops c hc
    have hds : ∀ c ∈ ds, isDigitOf base c = true := fun c hc => (h c).mpr (hinside c hc)
    rw [takeWhile_append_of_head hhead, dropWhile_append_of_head hhead,
      List.takeWhile_eq_self_iff.mpr hds, List.dropWhile_eq_nil_iff.mpr hds]
    exact ⟨rfl, rfl⟩
  · rintro ⟨rfl, rfl⟩
    refine ⟨List.takeWhile_append_dropWhile.symm, ?_, ?_⟩
    · exact fun c hc => (h c).mp (List.mem_takeWhile_imp hc)
    · intro c hc
      rw [← h, Bool.not_eq_true]
      have hnot := List.head?_dropWhile_not (isDigitOf base) cs
      rw [Option.mem_def.mp hc] at hnot
      simpa using hnot

/-- **Behind an ampersand** the scanner takes a literal of another base, whatever follows. -/
theorem scanBased_iff {l : Literal} :
    scanBased cs = (l, rest) ↔ ScansBased ('&' :: cs) l rest := by
  constructor
  · intro h
    rcases cs with _ | ⟨c, cs⟩
    · obtain ⟨rfl, rfl⟩ := Prod.mk.inj h
      exact .bare (by simp) ((isRun_iff isDigitOf_eight).mpr ⟨rfl, rfl⟩)
    · rw [scanBased] at h
      by_cases hhex : c = 'H' ∨ c = 'h'
      · rw [if_pos hhex] at h
        obtain ⟨rfl, rfl⟩ := Prod.mk.inj h
        exact .lettered (.hex ((letter_hex c).mp hhex)) ((isRun_iff isDigitOf_sixteen).mpr ⟨rfl, rfl⟩)
      · rw [if_neg hhex] at h
        by_cases hoct : c = 'O' ∨ c = 'o'
        · rw [if_pos hoct] at h
          obtain ⟨rfl, rfl⟩ := Prod.mk.inj h
          exact .lettered (.octal ((letter_octal c).mp hoct))
            ((isRun_iff isDigitOf_eight).mpr ⟨rfl, rfl⟩)
        · rw [if_neg hoct] at h
          obtain ⟨rfl, rfl⟩ := Prod.mk.inj h
          rw [letter_hex] at hhex
          rw [letter_octal] at hoct
          exact .bare (by simpa using ⟨hhex, hoct⟩) ((isRun_iff isDigitOf_eight).mpr ⟨rfl, rfl⟩)
  · intro h
    rcases h with ⟨hletter, hrun⟩ | ⟨hletter, hrun⟩
    · rcases hletter with hhex | hoct
      · obtain ⟨rfl, rfl⟩ := (isRun_iff isDigitOf_sixteen).mp hrun
        rw [scanBased, if_pos ((letter_hex _).mpr hhex)]
        rfl
      · have hhex := hoct.trans_ne (show 'O' ≠ 'H' by decide)
        obtain ⟨rfl, rfl⟩ := (isRun_iff isDigitOf_eight).mp hrun
        rw [scanBased, if_neg (by rwa [letter_hex]), if_pos ((letter_octal _).mpr hoct)]
        rfl
    · obtain ⟨rfl, rfl⟩ := (isRun_iff isDigitOf_eight).mp hrun
      rcases cs with _ | ⟨c, cs⟩
      · rfl
      · obtain ⟨hhex, hoct⟩ := hletter c rfl
        rw [scanBased, if_neg (by rwa [letter_hex]), if_neg (by rwa [letter_octal])]
        rfl

/-- Digits in capital letters are digits. -/
theorem isDigitOf_of_mem_map_toUpper (h : ∀ c, isDigitOf base c = true ↔ c.toUpper ∈ digits)
    (hds : ∀ c ∈ ds, c.toUpper ∈ digits) : ∀ c ∈ ds.map Char.toUpper, isDigitOf base c = true := by
  intro c hc
  obtain ⟨d, hd, rfl⟩ := List.mem_map.mp hc
  rw [h, toUpper_toUpper]
  exact hds d hd

/-- All digits in capital letters are taken again. -/
theorem scanDigits_map_toUpper (spelling : Spelling)
    (h : ∀ c, isDigitOf base c = true ↔ c.toUpper ∈ digits) (hds : ∀ c ∈ ds, c.toUpper ∈ digits) :
    scanDigits spelling base (ds.map Char.toUpper) = (⟨spelling, ds.map Char.toUpper⟩, []) := by
  have hall := isDigitOf_of_mem_map_toUpper h hds
  have hupper : (ds.map Char.toUpper).map Char.toUpper = ds.map Char.toUpper := by
    rw [List.map_map]
    exact List.map_congr_left fun c _ => toUpper_toUpper c
  rw [scanDigits, List.takeWhile_eq_self_iff.mpr hall, List.dropWhile_eq_nil_iff.mpr hall, hupper]

theorem scan?_render_of_based {s : List Char} {l : Literal} (h : ScansBased s l rest) :
    scan? l.render = some (l, []) := by
  rcases h with ⟨hletter, hrun⟩ | ⟨-, hrun⟩
  · rcases hletter with _ | _
    · exact congrArg some (scanDigits_map_toUpper .hex isDigitOf_sixteen hrun.inside)
    · exact congrArg some (scanDigits_map_toUpper .octal isDigitOf_eight hrun.inside)
  · exact congrArg some (scanDigits_map_toUpper .octal isDigitOf_eight hrun.inside)

/-! ## Scanning takes the longest literal -/

/-- A decimal literal at the start of a text: the longest match of the grammar in capital letters,
of the kind that these tell. -/
def ScansDecimal (s : List Char) (l : Literal) (rest : List Char) : Prop :=
  ∃ taken, s = taken ++ rest ∧ LongestMatch Numeral.grammar s taken ∧
    l = ⟨.decimal (spelledKind (taken.map Char.toUpper)), taken.map Char.toUpper⟩

variable {c : Char} {s : List Char} {l : Literal}

theorem scan?_of_isDecimalStart (h : isDecimalStart c = true) :
    scan? (c :: cs) = some (⟨.decimal (Numeral.scan (c :: cs)).1.kind, (Numeral.scan (c :: cs)).1.text⟩,
      (Numeral.scan (c :: cs)).2) := by
  rw [scan?, if_neg (ne_of_isDecimalStart h (by decide)), if_pos h]

/-- A decimal literal starts with a digit or the point. -/
theorem ScansDecimal.exists_cons (h : ScansDecimal s l rest) :
    ∃ c cs, s = c :: cs ∧ isDecimalStart c = true := by
  obtain ⟨taken, rfl, hmatch, -⟩ := h
  obtain ⟨n, hn, htext⟩ := Numeral.mem_grammar.mp hmatch.isMatch
  obtain ⟨d, ds, hd, hstart⟩ := Numeral.exists_cons_text hn
  rw [hd] at htext
  obtain ⟨c, cs, rfl, rfl, -⟩ := List.map_eq_cons_iff.mp htext
  refine ⟨c, cs ++ rest, rfl, ?_⟩
  rw [← apply_toUpper (f := isDecimalStart) (by decide +kernel) c]
  exact hstart

/-- **A decimal literal is scanned exactly where one stands.** -/
theorem scan?_iff_scansDecimal (h : isDecimalStart c = true) :
    scan? (c :: cs) = some (l, rest) ↔ ScansDecimal (c :: cs) l rest := by
  obtain ⟨taken, hsplit, htext, hlongest⟩ := Numeral.exists_longestMatch cs h
  have hkind := Numeral.spelledKind_text (n := (Numeral.scan (c :: cs)).1) (Numeral.wellFormed_scan h)
  rw [scan?_of_isDecimalStart h, Option.some.injEq, Prod.mk.injEq]
  constructor
  · rintro ⟨rfl, rfl⟩
    exact ⟨taken, hsplit, hlongest, by rw [htext, hkind]⟩
  · rintro ⟨taken', hsplit', hlongest', rfl⟩
    obtain rfl := hlongest.unique hlongest'
    refine ⟨by rw [htext, hkind], ?_⟩
    exact List.append_cancel_left (hsplit.symm.trans hsplit')

theorem scan?_render_of_decimal (h : ScansDecimal s l rest) : scan? l.render = some (l, []) := by
  obtain ⟨taken, -, hmatch, rfl⟩ := h
  obtain ⟨n, hn, htext⟩ := Numeral.mem_grammar.mp hmatch.isMatch
  rw [htext, Numeral.spelledKind_text hn]
  exact Numeral.scan?_text hn

/-- **A literal is scanned exactly where one stands.** -/
theorem scan?_eq_some_iff :
    scan? s = some (l, rest) ↔ ScansDecimal s l rest ∨ ScansBased s l rest := by
  rcases s with _ | ⟨c, cs⟩
  · refine iff_of_false (by simp [scan?]) ?_
    rintro (hdecimal | hbased)
    · obtain ⟨c, cs, hcons, -⟩ := hdecimal.exists_cons
      exact absurd hcons (by simp)
    · cases hbased
  · by_cases hamp : c = '&'
    · subst hamp
      rw [scan?, if_pos rfl, Option.some.injEq, scanBased_iff]
      refine (or_iff_right ?_).symm
      rintro hdecimal
      obtain ⟨d, ds, hcons, hstart⟩ := hdecimal.exists_cons
      obtain rfl := (List.cons.inj hcons).1
      exact absurd hstart (by decide)
    · have hbased : ¬ ScansBased (c :: cs) l rest := by
        rintro (_ | _)
        · exact hamp rfl
        · exact hamp rfl
      rw [or_iff_left hbased]
      by_cases hstart : isDecimalStart c = true
      · exact scan?_iff_scansDecimal hstart
      · refine iff_of_false (by simp [scan?, hamp, hstart]) ?_
        rintro hdecimal
        obtain ⟨d, ds, hcons, hd⟩ := hdecimal.exists_cons
        obtain rfl := (List.cons.inj hcons).1
        exact hstart hd

/-- An exponent may be bare, and a mark ends the literal in front of a digit. -/
example : scan? ['0', '1', '.', 'e', '-', '#', '7'] =
    some (⟨.decimal (.float .double), ['0', '1', '.', 'E', '-', '#']⟩, ['7']) := by
  decide +kernel

end Literal

end BasicNumerics
