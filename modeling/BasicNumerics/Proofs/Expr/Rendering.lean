/-
Lexemes written out, and that scanning undoes writing.

Six sorts of lexemes compete for the first character of a text, and all but the quoted
string take as many characters as they can. A blank ends every one of them: it is no part
of a literal, of a word or of an operator of two characters (`EndsLexeme`). So a lexeme
with a blank behind it, or with nothing, is scanned as itself whatever comes further on
(`ScansAs`), and this is proved sort by sort. Along a line the step repeats, and it makes
no difference how many blanks stand between two lexemes, nor which.

The lexemes that can be written are exactly those that scanning gives, so every line that
is scanned at all has a normal form with single blanks.
-/
import BasicNumerics.Proofs.Literal.Grammar
import BasicNumerics.Proofs.Session.Typed

set_option autoImplicit false

namespace BasicNumerics

open Text

/-! ## Letters and digits -/

namespace Text

variable {c : Char}

theorem isPart_of_isAlphanum (h : c.isAlphanum = true) : Literal.isPart c = true := by
  simp [Literal.isPart, h]

/-- What holds of the letters and digits among the first 128 characters holds of all. -/
theorem forall_alphanum {P : Char → Prop}
    (h : ∀ k < 128, (Char.ofNat k).isAlphanum = true → P (Char.ofNat k))
    (hc : c.isAlphanum = true) : P c := by
  have hlt := lt_of_isPart (isPart_of_isAlphanum hc)
  exact forall_ascii (P := fun c => c.isAlphanum = true → P c) h hlt hc

theorem isAlpha_of_isUpper (h : c.isUpper = true) : c.isAlpha = true := by
  show (c.isUpper || c.isLower) = true
  rw [h, Bool.true_or]

theorem isAlphanum_of_isAlpha (h : c.isAlpha = true) : c.isAlphanum = true := by
  simp [Char.isAlphanum, h]

theorem isAlphanum_of_upper (h : c.isUpper = true ∨ c.isDigit = true) : c.isAlphanum = true := by
  rcases h with hu | hd
  · exact isAlphanum_of_isAlpha (isAlpha_of_isUpper hu)
  · simp [Char.isAlphanum, hd]

theorem toUpper_of_upper (h : c.isUpper = true ∨ c.isDigit = true) : c.toUpper = c :=
  forall_alphanum (P := fun c => c.isUpper = true ∨ c.isDigit = true → c.toUpper = c)
    (by decide +kernel) (isAlphanum_of_upper h) h

theorem isUpper_toUpper (h : c.isAlpha = true) : c.toUpper.isUpper = true :=
  forall_alphanum (P := fun c => c.isAlpha = true → c.toUpper.isUpper = true)
    (by decide +kernel) (isAlphanum_of_isAlpha h) h

theorem upper_toUpper (h : c.isAlphanum = true) :
    c.toUpper.isUpper = true ∨ c.toUpper.isDigit = true := by
  rw [Char.isAlphanum, Bool.or_eq_true] at h
  rcases h with halpha | hdigit
  · exact Or.inl (isUpper_toUpper halpha)
  · rw [toUpper_of_isDigit hdigit]
    exact Or.inr hdigit

theorem isDigit_of_isAlpha (h : c.isAlpha = true) : c.isDigit = false :=
  forall_alphanum (P := fun c => c.isAlpha = true → c.isDigit = false)
    (by decide +kernel) (isAlphanum_of_isAlpha h) h

end Text

/-! ## The text of a lexeme -/

/-- A literal that is scanned from some text is scanned from its own. -/
theorem Literal.scan?_render {l : Literal} {s rest : List Char} (h : scan? s = some (l, rest)) :
    scan? l.render = some (l, []) := by
  rcases scan?_eq_some_iff.mp h with hdecimal | hbased
  · exact scan?_render_of_decimal hdecimal
  · exact scan?_render_of_based hbased

def Relation.symbol : Relation → List Char
  | equal => ['=']
  | notEqual => ['<', '>']
  | less => ['<']
  | lessEqual => ['<', '=']
  | greater => ['>']
  | greaterEqual => ['>', '=']

def Connective.keyword : Connective → List Char
  | and => ['A', 'N', 'D']
  | or => ['O', 'R']
  | xor => ['X', 'O', 'R']
  | eqv => ['E', 'Q', 'V']
  | imp => ['I', 'M', 'P']

def Operator.spelling : Operator → List Char
  | power => ['^']
  | multiply => ['*']
  | divide => ['/']
  | divideInt => ['\\']
  | modulus => ['M', 'O', 'D']
  | plus => ['+']
  | minus => ['-']
  | relation r => r.symbol
  | logical k => k.keyword

namespace Lexeme

def render : Lexeme → List Char
  | literal l => l.render
  | text cs => '"' :: (cs ++ ['"'])
  | word cs => cs
  | operator op => op.spelling
  | not => ['N', 'O', 'T']
  | leftParen => ['(']
  | rightParen => [')']

/-- A capital letter and then capital letters and digits, not the name of an operator. -/
structure IsPlainWord (cs : List Char) : Prop where
  starts : ∃ c ∈ cs.head?, c.isUpper = true
  inside : ∀ c ∈ cs, c.isUpper = true ∨ c.isDigit = true
  plain : ∀ entry ∈ wordOperators, cs ≠ entry.1

/-- The lexemes that have a text: literals that are scanned from some text, strings
without a quote, plain words, and all operators and parentheses. -/
def Writable : Lexeme → Prop
  | literal l => ∃ s rest, Literal.scan? s = some (l, rest)
  | text cs => '"' ∉ cs
  | word cs => IsPlainWord cs
  | operator _ | not | leftParen | rightParen => True

/-! ## What ends a lexeme -/

/-- The text is empty or starts with a blank. -/
def EndsLexeme (tail : List Char) : Prop := ∀ c ∈ tail.head?, isBlank c = true

/-- The text is scanned as the one lexeme, whatever stands behind a blank. -/
def ScansAs (cs : List Char) (t : Lexeme) : Prop :=
  ∀ tail, EndsLexeme tail → scanAll (cs ++ tail) = (scanAll tail).map (t :: ·)

variable {c : Char} {cs ds tail : List Char} {t : Lexeme}

theorem endsLexeme_nil : EndsLexeme [] := by
  simp [EndsLexeme]

theorem endsLexeme_append {gap : List Char} (hne : gap ≠ []) (hgap : ∀ c ∈ gap, isBlank c = true)
    (tail : List Char) : EndsLexeme (gap ++ tail) := by
  intro c hc
  rw [List.head?_append_of_ne_nil _ hne] at hc
  exact hgap c (List.mem_of_mem_head? hc)

theorem EndsLexeme.endsLiteral (h : EndsLexeme tail) : EndsLiteral tail :=
  EndsLiteral.of_head_blank h

/-- A lexeme that is taken from the start of every text with an end behind it. -/
theorem scansAs_of_next (hc : isBlank c = false)
    (h : ∀ tail, EndsLexeme tail → next c (ds ++ tail) = .ok (t, tail)) : ScansAs (c :: ds) t :=
  fun tail htail => scanAll_cons_of_next hc (h tail htail)

/-! ## Literals and strings -/

theorem scansAs_literal {l : Literal} (h : (literal l).Writable) :
    ScansAs l.render (literal l) := by
  obtain ⟨s, rest, hscan⟩ := h
  intro tail htail
  exact scanAll_literal_append (Literal.scan?_render hscan) htail.endsLiteral

theorem scansAs_text (h : '"' ∉ cs) : ScansAs ('"' :: (cs ++ ['"'])) (text cs) := by
  apply scansAs_of_next (by decide)
  intro tail _
  have hcs : ∀ d ∈ cs, decide (d ≠ '"') = true := by
    intro d hd
    rw [decide_eq_true_eq]
    rintro rfl
    exact h hd
  have hnext : next '"' (cs ++ '"' :: tail) =
      .ok (text ((cs ++ '"' :: tail).takeWhile (· ≠ '"')),
        ((cs ++ '"' :: tail).dropWhile (· ≠ '"')).drop 1) := rfl
  -- the string ends at the first quote, and that is the one written behind it
  rw [List.append_assoc, List.singleton_append, hnext, List.takeWhile_append_of_pos hcs,
    List.dropWhile_append_of_pos hcs]
  simp

/-! ## Words, and the operators among them -/

/-- A letter starts neither a literal nor a string, and no symbol. -/
theorem next_of_isAlpha (h : c.isAlpha = true) (cs : List Char) :
    next c cs = .ok (ofWord ((c :: cs.takeWhile Char.isAlphanum).map Char.toUpper),
      cs.dropWhile Char.isAlphanum) := by
  have hne : ∀ d : Char, d.isAlpha = false → c ≠ d := by
    rintro d hd rfl
    rw [h] at hd
    exact absurd hd (by simp)
  have hscan : Literal.scan? (c :: cs) = none := by
    simp [Literal.scan?, Literal.isDecimalStart, isDigit_of_isAlpha h, hne '&' (by decide),
      hne '.' (by decide)]
  rw [next, hscan]
  simp only [if_neg (hne '"' (by decide)), if_pos h]

/-- A word in capital letters is what it stands for, the name of an operator or itself. -/
theorem scansAs_ofWord (hc : c.isUpper = true)
    (hds : ∀ d ∈ ds, d.isUpper = true ∨ d.isDigit = true) :
    ScansAs (c :: ds) (ofWord (c :: ds)) := by
  have halpha := isAlpha_of_isUpper hc
  have hvisible := Literal.visible_of_isPart (Literal.isPart_of_isAlpha halpha)
  apply scansAs_of_next (isBlank_eq_false hvisible)
  intro tail htail
  -- a blank is neither a letter nor a digit, so the word ends in front of it
  have hstop := htail.endsLiteral.head_fails fun _ => isPart_of_isAlphanum
  have hall : ∀ d ∈ ds, d.isAlphanum = true := fun d hd => isAlphanum_of_upper (hds d hd)
  have hupper : (c :: ds).map Char.toUpper = c :: ds := by
    apply map_toUpper_eq_self
    rintro d (_ | ⟨_, hd⟩)
    · exact toUpper_of_upper (Or.inl hc)
    · exact toUpper_of_upper (hds d hd)
  rw [next_of_isAlpha halpha, takeWhile_append_of_head hstop, dropWhile_append_of_head hstop,
    List.takeWhile_eq_self_iff.mpr hall, List.dropWhile_eq_nil_iff.mpr hall, hupper,
    List.nil_append]

theorem ofWord_eq_word (h : ∀ entry ∈ wordOperators, cs ≠ entry.1) : ofWord cs = word cs := by
  have hnone : wordOperators.lookup cs = none := by
    rw [List.lookup_eq_none_iff]
    intro entry hentry
    rw [bne_iff_ne]
    exact h entry hentry
  rw [ofWord, hnone, Option.getD_none]

theorem scansAs_word (h : IsPlainWord cs) : ScansAs cs (word cs) := by
  obtain ⟨c, hhead, hc⟩ := h.starts
  obtain ⟨ds, rfl⟩ := List.head?_eq_some_iff.mp hhead
  have hword := scansAs_ofWord hc fun d hd => h.inside d (List.mem_cons_of_mem c hd)
  rwa [ofWord_eq_word h.plain] at hword

theorem scansAs_keyword (hc : c.isUpper = true) (hds : ds.all Char.isUpper = true) :
    ScansAs (c :: ds) (ofWord (c :: ds)) := by
  rw [List.all_eq_true] at hds
  exact scansAs_ofWord hc fun d hd => Or.inl (hds d hd)

theorem scansAs_connective (k : Connective) : ScansAs k.keyword (operator (.logical k)) := by
  cases k with
  | and => exact scansAs_keyword rfl rfl
  | or => exact scansAs_keyword rfl rfl
  | xor => exact scansAs_keyword rfl rfl
  | eqv => exact scansAs_keyword rfl rfl
  | imp => exact scansAs_keyword rfl rfl

/-! ## Symbols -/

theorem EndsLexeme.head_ne {d : Char} (h : EndsLexeme (d :: tail)) (hc : isBlank c = false) :
    d ≠ c := by
  rintro rfl
  rw [h d rfl] at hc
  exact absurd hc (by simp)

/-- In front of a blank, a relation of one character is not the start of one of two. -/
theorem symbol?_of_endsLexeme (h : EndsLexeme tail) :
    symbol? ('=' :: tail) = some (operator (.relation .equal), tail) ∧
      symbol? ('<' :: tail) = some (operator (.relation .less), tail) ∧
      symbol? ('>' :: tail) = some (operator (.relation .greater), tail) := by
  cases tail with
  | nil => exact ⟨rfl, rfl, rfl⟩
  | cons d tail =>
    have hequal := h.head_ne (c := '=') (by decide)
    have hless := h.head_ne (c := '<') (by decide)
    have hgreater := h.head_ne (c := '>') (by decide)
    simp [symbol?, hequal, hless, hgreater]

/-- The characters of relations start no lexeme of another sort. -/
theorem next_of_symbol? {found : Lexeme × List Char} (hc : c ∈ ['=', '<', '>'])
    (h : symbol? (c :: cs) = some found) : next c cs = .ok found := by
  simp only [List.mem_cons, List.not_mem_nil, or_false] at hc
  rcases hc with rfl | rfl | rfl <;> simp [next, Literal.scan?, Literal.isDecimalStart, h]

theorem scansAs_of_symbol? (hc : c ∈ ['=', '<', '>']) (hblank : isBlank c = false)
    (h : ∀ tail, EndsLexeme tail → symbol? (c :: tail) = some (t, tail)) : ScansAs [c] t := by
  apply scansAs_of_next hblank
  intro tail htail
  exact next_of_symbol? hc (h tail htail)

theorem scansAs_relation (r : Relation) : ScansAs r.symbol (operator (.relation r)) := by
  cases r with
  | equal => exact scansAs_of_symbol? (by decide) rfl fun _ h => (symbol?_of_endsLexeme h).1
  | less => exact scansAs_of_symbol? (by decide) rfl fun _ h => (symbol?_of_endsLexeme h).2.1
  | greater => exact scansAs_of_symbol? (by decide) rfl fun _ h => (symbol?_of_endsLexeme h).2.2
  | notEqual => exact scansAs_of_next rfl fun _ _ => rfl
  | lessEqual => exact scansAs_of_next rfl fun _ _ => rfl
  | greaterEqual => exact scansAs_of_next rfl fun _ _ => rfl

theorem scansAs_operator (op : Operator) : ScansAs op.spelling (operator op) := by
  cases op with
  | modulus => exact scansAs_keyword rfl rfl
  | relation r => exact scansAs_relation r
  | logical k => exact scansAs_connective k
  | power => exact scansAs_of_next rfl fun _ _ => rfl
  | multiply => exact scansAs_of_next rfl fun _ _ => rfl
  | divide => exact scansAs_of_next rfl fun _ _ => rfl
  | divideInt => exact scansAs_of_next rfl fun _ _ => rfl
  | plus => exact scansAs_of_next rfl fun _ _ => rfl
  | minus => exact scansAs_of_next rfl fun _ _ => rfl

/-! ## Lines -/

/-- **One lexeme:** written out, with a blank behind it or nothing, it is scanned as itself. -/
theorem scansAs_render (t : Lexeme) (h : t.Writable) : ScansAs t.render t := by
  cases t with
  | literal l => exact scansAs_literal h
  | text cs => exact scansAs_text h
  | word cs => exact scansAs_word h
  | operator op => exact scansAs_operator op
  | not => exact scansAs_keyword rfl rfl
  | leftParen => exact scansAs_of_next rfl fun _ _ => rfl
  | rightParen => exact scansAs_of_next rfl fun _ _ => rfl

/-- The texts in order, with one blank or more between each two. -/
inductive Spaced : List (List Char) → List Char → Prop
  | nil : Spaced [] []
  | single (w : List Char) : Spaced [w] w
  | cons {w w' cs : List Char} {ws : List (List Char)} (gap : List Char) (hne : gap ≠ [])
      (hgap : gap.all isBlank = true) (hrest : Spaced (w' :: ws) cs) :
      Spaced (w :: w' :: ws) (w ++ (gap ++ cs))

theorem spaced_intercalate (ws : List (List Char)) : Spaced ws ([' '].intercalate ws) := by
  induction ws with
  | nil => exact .nil
  | cons w ws ih =>
    cases ws with
    | nil =>
      rw [List.intercalate_singleton]
      exact .single w
    | cons w' ws =>
      rw [List.intercalate_cons_cons, List.append_assoc]
      exact .cons [' '] (by simp) rfl ih

/-- **Along a line** each lexeme is scanned as itself, the blanks are dropped. -/
theorem scanAll_of_spaced {ts : List Lexeme} (h : ∀ t ∈ ts, t.Writable)
    (hspaced : Spaced (ts.map render) cs) : scanAll cs = .ok ts := by
  -- the text generalizes, since what stands behind the first gap is another line
  induction ts generalizing cs with
  | nil =>
    cases hspaced
    rw [scanAll]
  | cons t ts ih =>
    have hstep := scansAs_render t (h t (by simp))
    have hts : ∀ t' ∈ ts, t'.Writable := fun t' ht' => h t' (List.mem_cons_of_mem t ht')
    cases ts with
    | nil =>
      cases hspaced
      have hlast := hstep [] endsLexeme_nil
      rw [List.append_nil, scanAll] at hlast
      exact hlast
    | cons t' ts =>
      cases hspaced with
      | cons gap hne hgap hrest =>
        rw [List.all_eq_true] at hgap
        rw [hstep _ (endsLexeme_append hne hgap _), scanAll_blanks_append hgap, ih hts hrest]
        rfl

/-- **Scanning undoes writing.** Lexemes that are written one after the other, with a blank
between each two, are scanned again as the same lexemes; so they are with any run of blanks in
the place of each of these. -/
theorem scanAll_render {ts : List Lexeme} (h : ∀ t ∈ ts, t.Writable) :
    scanAll ([' '].intercalate (ts.map render)) = .ok ts ∧
      ∀ cs, Spaced (ts.map render) cs → scanAll cs = .ok ts := by
  refine ⟨?_, ?_⟩
  · exact scanAll_of_spaced h (spaced_intercalate _)
  · intro cs hspaced
    exact scanAll_of_spaced h hspaced

/-- An exponent with a sign and no digits in front of a minus, an octal literal without
digits in front of a word, a string that holds a blank and a symbol, two relations that
would be one if they stood together, and blanks of three sorts. -/
theorem scanAll_render_crowded :
    scanAll "1E-\t- &O\n\u3000E5 \"7 <\"  < = NOT".toList =
      .ok [literal ⟨.decimal (.float .single), ['1', 'E', '-']⟩, operator .minus,
        literal ⟨.octal, []⟩, word ['E', '5'], text ['7', ' ', '<'], operator (.relation .less),
        operator (.relation .equal), not] := by
  refine (scanAll_render ?_).2 _ ?_
  · simp only [List.forall_mem_cons, List.not_mem_nil, IsEmpty.forall_iff, implies_true, and_true]
    refine ⟨⟨['1', 'E', '-'], [], by decide⟩, trivial, ⟨['&'], [], by decide⟩, ?_, ?_,
      trivial, trivial, trivial⟩
    · exact ⟨⟨'E', rfl, rfl⟩, by simp, by decide⟩
    · simp [Writable]
  · refine .cons ['\t'] (by simp) rfl ?_
    refine .cons [' '] (by simp) rfl ?_
    refine .cons ['\n', '\u3000'] (by simp) rfl ?_
    refine .cons [' '] (by simp) rfl ?_
    refine .cons [' ', ' '] (by simp) rfl ?_
    refine .cons [' '] (by simp) rfl ?_
    refine .cons [' '] (by simp) rfl ?_
    exact .single _

/-! ## Every line has a normal form -/

theorem writable_ofWord (hstarts : ∃ c ∈ cs.head?, c.isUpper = true)
    (hinside : ∀ c ∈ cs, c.isUpper = true ∨ c.isDigit = true) : (ofWord cs).Writable := by
  by_cases hplain : ∀ entry ∈ wordOperators, cs ≠ entry.1
  · rw [ofWord_eq_word hplain]
    exact ⟨hstarts, hinside, hplain⟩
  · push Not at hplain
    obtain ⟨entry, hentry, rfl⟩ := hplain
    -- no name is in the table twice, so each is looked up as its own operator
    have hall : ∀ entry ∈ wordOperators, ofWord entry.1 = entry.2 := by decide
    have hoperators : ∀ entry ∈ wordOperators, entry.2.Writable := by
      simp [wordOperators, Writable]
    rw [hall entry hentry]
    exact hoperators entry hentry

theorem writable_of_symbol? {rest : List Char} (h : symbol? cs = some (t, rest)) : t.Writable := by
  unfold symbol? at h
  split at h <;> cases h <;> trivial

/-- **What is scanned can be written.** -/
theorem writable_of_next {rest : List Char} (h : next c cs = .ok (t, rest)) : t.Writable := by
  unfold next at h
  split at h
  · next l tail hscan =>
    cases h
    exact ⟨c :: cs, rest, hscan⟩
  · split at h
    · cases h
      intro hquote
      simpa using List.mem_takeWhile_imp hquote
    · split at h
      · next halpha =>
        cases h
        apply writable_ofWord
        · exact ⟨c.toUpper, rfl, isUpper_toUpper halpha⟩
        · intro d hd
          obtain ⟨e, he, rfl⟩ := List.mem_map.mp hd
          apply upper_toUpper
          rcases List.mem_cons.mp he with rfl | he
          · exact isAlphanum_of_isAlpha halpha
          · exact List.mem_takeWhile_imp he
      · split at h
        · next found hsymbol =>
          cases h
          exact writable_of_symbol? hsymbol
        · cases h

theorem writable_of_scanAll {ts : List Lexeme} (h : scanAll cs = .ok ts) :
    ∀ t ∈ ts, t.Writable := by
  fun_induction scanAll cs generalizing ts with
  | case1 =>
    cases h
    simp
  | case2 c cs hblank ih => exact ih h
  | case3 c cs hblank f hnext => cases h
  | case4 c cs hblank t rest hnext hlen ih =>
    rcases hrest : scanAll rest with f | ts'
    · rw [hrest] at h
      cases h
    · rw [hrest] at h
      cases h
      rw [List.forall_mem_cons]
      exact ⟨writable_of_next hnext, ih hrest⟩

/-- **Every line that is scanned has a normal form:** its lexemes written out, with one blank
between each two. -/
theorem scanAll_intercalate_of_scanAll {ts : List Lexeme} (h : scanAll cs = .ok ts) :
    scanAll ([' '].intercalate (ts.map render)) = .ok ts :=
  scanAll_of_spaced (writable_of_scanAll h) (spaced_intercalate _)

end Lexeme

end BasicNumerics
