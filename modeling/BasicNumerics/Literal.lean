/-
Numeric literals.

A decimal literal has whole digits, perhaps a point with more digits, perhaps an
exponent, and perhaps a mark that names its kind; without a mark the kind follows
from how it is written. A literal that starts with an ampersand is hexadecimal or
octal. Scanning takes the longest literal at the start of a text; every literal
scanned is in upper case. The value of a decimal literal is a mantissa of at most
18 digits and a power of ten.
-/
import BasicNumerics.Decimal
import BasicNumerics.Kind
import BasicNumerics.Text.Digits

set_option autoImplicit false

namespace BasicNumerics

attribute [local instance (high)] instPowNat

open Text

/-! ## Decimal literals by parts -/

/-- The exponent of a decimal literal: the letter names a precision, the sign is
`true` for minus, and there may be no digits. -/
structure ExponentPart where
  marker : Precision
  sign : Option Bool
  digits : List Char
deriving DecidableEq, Repr

structure Numeral where
  whole : List Char
  fraction : Option (List Char)
  exponent : Option ExponentPart
  mark : Option NumberKind
deriving DecidableEq, Repr

/-- The precision an exponent letter names, in either case. -/
def Precision.ofMarker? (c : Char) : Option Precision :=
  if c = 'E' ∨ c = 'e' then some .single
  else if c = 'D' ∨ c = 'd' then some .double
  else none

namespace Numeral

/-- The sign in front of an exponent, `true` for minus, and what follows. -/
def scanSign : List Char → Option Bool × List Char
  | '-' :: cs => (some true, cs)
  | '+' :: cs => (some false, cs)
  | cs => (none, cs)

/-- The point and its digits, if the text starts with one, and what follows. -/
def scanFraction : List Char → Option (List Char) × List Char
  | '.' :: cs => (some (cs.takeWhile Char.isDigit), cs.dropWhile Char.isDigit)
  | cs => (none, cs)

/-- The exponent, if the text starts with one, and what follows. -/
def scanExponent : List Char → Option ExponentPart × List Char
  | [] => (none, [])
  | c :: cs =>
    match Precision.ofMarker? c with
    | some marker =>
      let (sign, rest) := scanSign cs
      (some ⟨marker, sign, rest.takeWhile Char.isDigit⟩, rest.dropWhile Char.isDigit)
    | none => (none, c :: cs)

/-- The type mark, if the text starts with one, and what follows. -/
def scanMark : List Char → Option NumberKind × List Char
  | [] => (none, [])
  | c :: cs =>
    match NumberKind.ofSigil? c with
    | some k => (some k, cs)
    | none => (none, c :: cs)

/-- The longest decimal literal at the start of a text, by parts, and what
follows it. -/
def scan (cs : List Char) : Numeral × List Char :=
  let (fraction, rest) := scanFraction (cs.dropWhile Char.isDigit)
  let (exponent, rest) := scanExponent rest
  let (mark, rest) := scanMark rest
  (⟨cs.takeWhile Char.isDigit, fraction, exponent, mark⟩, rest)

def signText : Option Bool → List Char
  | some true => ['-']
  | some false => ['+']
  | none => []

/-- The literal as text, in upper case. -/
def text (n : Numeral) : List Char :=
  n.whole
    ++ (match n.fraction with
        | some ds => '.' :: ds
        | none => [])
    ++ (match n.exponent with
        | some e => e.marker.marker :: signText e.sign ++ e.digits
        | none => [])
    ++ (match n.mark with
        | some k => [k.sigil]
        | none => [])

/-- How many digits of the mantissa count: all from the first one that is not
zero. A count in 32 bits is the same in every text of fewer than `2^31 - 8`
characters (`Literal.walk_eq_scan?`). -/
def significant (n : Numeral) : Nat :=
  ((n.whole ++ n.fraction.getD []).dropWhile (· == '0')).length

/-- Whether the exponent letter asks for double precision. -/
def hasDoubleMarker (n : Numeral) : Bool := n.exponent.any (·.marker = .double)

/-- The kind of a literal. A mark decides. Without one, a double exponent or more
than seven digits make a double; plain digits within the sixteen-bit range make an
integer; all else is single. -/
def kind (n : Numeral) : NumberKind :=
  match n.mark with
  | some k => k
  | none =>
    if n.hasDoubleMarker || 7 < n.significant then .float .double
    else if n.fraction.isNone && n.exponent.isNone && numeralValue 10 n.whole ≤ 32767 then
      .integer
    else .float .single

end Numeral

/-! ## Literals -/

inductive Spelling where
  | decimal (k : NumberKind)
  | hex
  | octal
deriving DecidableEq, Repr

/-- A literal: its text without the ampersand and letter of another base. -/
structure Literal where
  spelling : Spelling
  text : List Char
deriving DecidableEq, Repr

namespace Literal

def render (l : Literal) : List Char :=
  match l.spelling with
  | .decimal _ => l.text
  | .hex => '&' :: 'H' :: l.text
  | .octal => '&' :: 'O' :: l.text

/-- The digits to a base in upper case, and what follows them. -/
def scanDigits (spelling : Spelling) (base : Nat) (cs : List Char) : Literal × List Char :=
  (⟨spelling, (cs.takeWhile (isDigitOf base)).map Char.toUpper⟩, cs.dropWhile (isDigitOf base))

/-- What follows an ampersand: hexadecimal after the letter H, octal after the
letter O or none. -/
def scanBased : List Char → Literal × List Char
  | [] => scanDigits .octal 8 []
  | c :: cs =>
    if c = 'H' ∨ c = 'h' then scanDigits .hex 16 cs
    else if c = 'O' ∨ c = 'o' then scanDigits .octal 8 cs
    else scanDigits .octal 8 (c :: cs)

/-- Whether a decimal literal can start with the character. -/
def isDecimalStart (c : Char) : Bool := c.isDigit || c == '.'

/-- The longest literal at the start of a text and what follows it, if one starts
there. -/
def scan? : List Char → Option (Literal × List Char)
  | [] => none
  | c :: cs =>
    if c = '&' then some (scanBased cs)
    else if isDecimalStart c then
      let (n, rest) := Numeral.scan (c :: cs)
      some (⟨.decimal n.kind, n.text⟩, rest)
    else none

end Literal

/-! ## The value of a text -/

/-- A mantissa being read: the digits so far, the power of ten they stand at, how
many count, and whether the point has been passed. -/
structure MantissaReader where
  mantissa : Nat := 0
  exponent : Int := 0
  significant : Nat := 0
  pastPoint : Bool := false
deriving DecidableEq, Repr

namespace MantissaReader

/-- Digits kept of a mantissa, counted from the first that is not zero. -/
def limit : Nat := 18

/-- Takes one more digit. Past the limit a digit only moves the power of ten, and
only in front of the point. -/
def push (r : MantissaReader) (d : Nat) : MantissaReader :=
  if r.significant < limit then
    { r with
      mantissa := r.mantissa * 10 + d
      exponent := if r.pastPoint then r.exponent - 1 else r.exponent
      -- zeros in front do not count, on either side of the point
      significant := if 0 < r.mantissa ∨ 0 < d then r.significant + 1 else r.significant }
  else if r.pastPoint then r
  else { r with exponent := r.exponent + 1 }

/-- Takes one more character, a digit or the point. -/
def step (r : MantissaReader) (c : Char) : MantissaReader :=
  if c = '.' then { r with pastPoint := true } else r.push (digitValue c)

end MantissaReader

namespace Decimal

def isMantissaChar (c : Char) : Bool := c.isDigit || c == '.'

/-- The size of an exponent. Digits are ignored once it is past all use. -/
def exponentSize (cs : List Char) : Nat :=
  cs.foldl (fun n c => if n < 10000 then n * 10 + digitValue c else n) 0

/-- The exponent a text starts with, zero if it starts with none. -/
def exponentOf (cs : List Char) : Int :=
  match (Numeral.scanExponent cs).1 with
  | none => 0
  | some e => if e.sign = some true then -(exponentSize e.digits : Int) else exponentSize e.digits

/-- The decimal number at the start of a text; what cannot belong to it ends it. -/
def ofText (cs : List Char) : Decimal :=
  let r := (cs.takeWhile isMantissaChar).foldl MantissaReader.step {}
  ⟨r.mantissa, r.exponent + exponentOf (cs.dropWhile isMantissaChar)⟩

end Decimal

/-- The number that digits denote to a base, if all are digits and it fits 32
bits. -/
def basedValue? (base : Nat) (cs : List Char) : Option Nat :=
  if cs.all (isDigitOf base) && numeralValue base cs < 2 ^ (32 : Nat) then
    some (numeralValue base cs)
  else none

/-! ## Scanning makes progress -/

theorem length_dropWhile_le (f : Char → Bool) (cs : List Char) :
    (cs.dropWhile f).length ≤ cs.length :=
  (List.dropWhile_sublist f).length_le

namespace Numeral

theorem length_scanFraction (cs : List Char) : (scanFraction cs).2.length ≤ cs.length := by
  unfold scanFraction
  split
  · next cs => exact Nat.le_succ_of_le (length_dropWhile_le _ _)
  · exact Nat.le_refl _

theorem length_scanSign (cs : List Char) : (scanSign cs).2.length ≤ cs.length := by
  unfold scanSign
  split <;> simp

theorem length_scanExponent (cs : List Char) : (scanExponent cs).2.length ≤ cs.length := by
  unfold scanExponent
  split
  · exact Nat.le_refl _
  · next c cs =>
    split
    · exact Nat.le_succ_of_le
        (Nat.le_trans (length_dropWhile_le _ _) (length_scanSign cs))
    · exact Nat.le_refl _

theorem length_scanMark (cs : List Char) : (scanMark cs).2.length ≤ cs.length := by
  unfold scanMark
  split
  · exact Nat.le_refl _
  · split <;> simp

/-- **A decimal literal is not empty:** what follows it is shorter than the text. -/
theorem length_scan (c : Char) (cs : List Char) (h : Literal.isDecimalStart c = true) :
    (scan (c :: cs)).2.length ≤ cs.length := by
  have hmark := length_scanMark (scanExponent (scanFraction ((c :: cs).dropWhile Char.isDigit)).2).2
  have hexp := length_scanExponent (scanFraction ((c :: cs).dropWhile Char.isDigit)).2
  have hfrac : (scanFraction ((c :: cs).dropWhile Char.isDigit)).2.length ≤ cs.length := by
    by_cases hd : c.isDigit = true
    · rw [List.dropWhile_cons_of_pos hd]
      exact Nat.le_trans (length_scanFraction _) (length_dropWhile_le _ _)
    · have hc : c = '.' := by simpa [Literal.isDecimalStart, hd] using h
      subst hc
      exact length_dropWhile_le _ _
  exact Nat.le_trans hmark (Nat.le_trans hexp hfrac)

end Numeral

namespace Literal

/-- **A literal is not empty.** -/
theorem length_scan? {c : Char} {cs : List Char} {l : Literal} {rest : List Char}
    (h : scan? (c :: cs) = some (l, rest)) : rest.length ≤ cs.length := by
  rw [scan?] at h
  split at h
  · have hb : (scanBased cs).2.length ≤ cs.length := by
      unfold scanBased scanDigits
      split
      · simp
      · next d ds =>
        split
        · exact Nat.le_succ_of_le (length_dropWhile_le _ _)
        · split
          · exact Nat.le_succ_of_le (length_dropWhile_le _ _)
          · exact length_dropWhile_le _ _
    rw [Option.some.injEq] at h
    rw [h] at hb
    exact hb
  · split at h
    · next hs =>
      have hn := Numeral.length_scan c cs hs
      simp only [Option.some.injEq, Prod.mk.injEq] at h
      rw [h.2] at hn
      exact hn
    · exact absurd h (by simp)

end Literal

end BasicNumerics
