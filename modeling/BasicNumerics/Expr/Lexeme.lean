/-
The words of an expression.

A line is cut into literals, quoted strings, words, operators and parentheses.
Blanks separate them and are dropped; the first character of a lexeme tells its
sort, and every sort takes as many characters as it can.
-/
import BasicNumerics.Literal
import BasicNumerics.Text.Blank
import BasicNumerics.Value.Operator

set_option autoImplicit false

namespace BasicNumerics

/-- A word of an expression. -/
inductive Lexeme where
  | literal (l : Literal)
  | text (cs : List Char)
  | word (cs : List Char)
  | operator (op : Operator)
  | not
  | leftParen
  | rightParen
deriving DecidableEq, Repr

namespace Lexeme

/-! ## Sorts of lexemes -/

def wordOperators : List (List Char × Lexeme) :=
  [("MOD".toList, operator .modulus), ("NOT".toList, not),
    ("AND".toList, operator (.logical .and)), ("OR".toList, operator (.logical .or)),
    ("XOR".toList, operator (.logical .xor)), ("EQV".toList, operator (.logical .eqv)),
    ("IMP".toList, operator (.logical .imp))]

/-- The lexeme of a word in upper case. -/
def ofWord (cs : List Char) : Lexeme := (wordOperators.lookup cs).getD (word cs)

/-- The operator or parenthesis a text starts with, and what follows it. Two
characters that make an operator are taken together. -/
def symbol? : List Char → Option (Lexeme × List Char)
  | '<' :: '=' :: cs | '=' :: '<' :: cs => some (operator (.relation .lessEqual), cs)
  | '>' :: '=' :: cs | '=' :: '>' :: cs => some (operator (.relation .greaterEqual), cs)
  | '<' :: '>' :: cs | '>' :: '<' :: cs => some (operator (.relation .notEqual), cs)
  | '<' :: cs => some (operator (.relation .less), cs)
  | '>' :: cs => some (operator (.relation .greater), cs)
  | '=' :: cs => some (operator (.relation .equal), cs)
  | '^' :: cs => some (operator .power, cs)
  | '*' :: cs => some (operator .multiply, cs)
  | '/' :: cs => some (operator .divide, cs)
  | '\\' :: cs => some (operator .divideInt, cs)
  | '+' :: cs => some (operator .plus, cs)
  | '-' :: cs => some (operator .minus, cs)
  | '(' :: cs => some (leftParen, cs)
  | ')' :: cs => some (rightParen, cs)
  | _ => none

/-- The lexeme that starts with `c`, which is not blank, and what follows it. A
quoted string ends at the next quote or with the line. -/
def next (c : Char) (cs : List Char) : Except Fault (Lexeme × List Char) :=
  match Literal.scan? (c :: cs) with
  | some (l, rest) => .ok (literal l, rest)
  | none =>
    if c = '"' then .ok (text (cs.takeWhile (· ≠ '"')), (cs.dropWhile (· ≠ '"')).drop 1)
    else if c.isAlpha then
      .ok (ofWord ((c :: cs.takeWhile Char.isAlphanum).map Char.toUpper),
        cs.dropWhile Char.isAlphanum)
    else
      match symbol? (c :: cs) with
      | some found => .ok found
      | none => .error (.badSyntax "UNEXPECTED CHARACTER")

/-! ## Whole lines -/

theorem length_symbol? {c : Char} {cs rest : List Char} {t : Lexeme}
    (h : symbol? (c :: cs) = some (t, rest)) : rest.length ≤ cs.length := by
  unfold symbol? at h
  split at h <;> simp_all

/-- **A lexeme is not empty:** what follows it is shorter than the text. -/
theorem length_next {c : Char} {cs rest : List Char} {t : Lexeme}
    (h : next c cs = .ok (t, rest)) : rest.length ≤ cs.length := by
  unfold next at h
  split at h
  · next l tail hs =>
    simp only [Except.ok.injEq, Prod.mk.injEq] at h
    rw [← h.2]
    exact Literal.length_scan? hs
  · split at h
    · simp only [Except.ok.injEq, Prod.mk.injEq] at h
      rw [← h.2, List.length_drop]
      exact Nat.le_trans (Nat.sub_le _ _) (length_dropWhile_le _ _)
    · split at h
      · simp only [Except.ok.injEq, Prod.mk.injEq] at h
        rw [← h.2]
        exact length_dropWhile_le _ _
      · split at h
        · next found hs =>
          simp only [Except.ok.injEq] at h
          subst h
          exact length_symbol? hs
        · exact absurd h (by simp)

/-- The lexemes of a line. -/
def scanAll : List Char → Except Fault (List Lexeme)
  | [] => .ok []
  | c :: cs =>
    if Text.isBlank c then scanAll cs
    else
      match h : next c cs with
      | .error f => .error f
      | .ok (t, rest) =>
        have : rest.length < cs.length + 1 := Nat.lt_succ_of_le (length_next h)
        (scanAll rest).map (t :: ·)
termination_by cs => cs.length

end Lexeme

end BasicNumerics
