/-
The general text of a number.

An integer is its digits. A floating-point value is shown by the digits of its
precision without trailing zeros: in fixed notation as long as these digits, and
the zeros between them and the point, stay within the precision, and in scientific
notation otherwise.
-/
import BasicNumerics.Floating.Decimal
import BasicNumerics.Integer
import BasicNumerics.Printing.Style

set_option autoImplicit false

namespace BasicNumerics

open Text

def Integer.text (style : Style) (n : Integer) : List Char :=
  style.signText n.isNegative ++ style.wholeText (decimal (n.toInt .signed).natAbs)

/-- A numeral without its trailing zeros, one digit always kept, and how many were
dropped. -/
def stripZeros (digits : List Char) : List Char × Nat :=
  let kept := (digits.reverse.dropWhile (· == '0')).reverse
  let kept := if kept.isEmpty then digits.take 1 else kept
  (kept, digits.length - kept.length)

def Bytes.byteText (b : UInt8) : List Char := padLeft 2 (numeral 16 b.toNat)

/-- Bytes in hexadecimal, separated by blanks. -/
def Bytes.text (bytes : List UInt8) : List Char :=
  List.intercalate [' '] (bytes.map Bytes.byteText)

namespace Floating

variable {p : Precision}

/-- Digits to be shown, and the power of ten of the first one. -/
structure Shown where
  digits : List Char
  first : Int
deriving DecidableEq, Repr

/-- The digits of a decimal number that are to be shown. -/
def Shown.ofDecimal (d : Decimal) : Shown :=
  let (digits, dropped) := stripZeros (decimal d.mantissa.natAbs)
  ⟨digits, d.exponent + dropped + digits.length - 1⟩

namespace Shown

/-- Whether fixed notation would show more places than the precision has. -/
def isScientific (p : Precision) (s : Shown) : Bool :=
  (p.digits : Int) - 1 < s.first || (p.digits : Int) + 1 < s.digits.length - s.first

/-- One digit, a point before any others, and the power of ten. -/
def scientific (marker : Char) (s : Shown) : List Char :=
  s.digits.take 1
    ++ (if 1 < s.digits.length then '.' :: s.digits.drop 1 else [])
    ++ exponentText marker s.first

/-- Whether fixed notation has a point: there are digits past the units. -/
def hasPoint (s : Shown) : Bool := s.first < (s.digits.length : Int) - 1

/-- The digits with the point in its place, zeros filling the places between them
and the point. -/
def fixed (style : Style) (s : Shown) : List Char :=
  if s.first < 0 then '.' :: List.replicate (-s.first - 1).toNat '0' ++ s.digits
  else if s.hasPoint then
    style.wholeText (s.digits.take (s.first.toNat + 1)) ++ '.' :: s.digits.drop (s.first.toNat + 1)
  else style.wholeText (padRight (s.first.toNat + 1) s.digits)

/-- Whether a reader could take fixed notation for another kind: a single without
a point, a double with no more digits than a single has. -/
def needsMark (p : Precision) (s : Shown) : Bool :=
  match p with
  | .single => !s.hasPoint
  | .double => s.digits.length ≤ 7

/-- The text of the magnitude. Scientific notation takes neither a forced point
nor a mark. -/
def text (p : Precision) (style : Style) (s : Shown) : List Char :=
  if s.isScientific p then s.scientific p.marker
  else
    s.fixed style
      ++ (if style.forceDot && !s.hasPoint then ['.'] else [])
      ++ (if style.typeSign && s.needsMark p then [p.sigil] else [])

end Shown

def text (style : Style) (x : Floating p) : List Char :=
  let d := x.toDecimal none
  style.signText (d.mantissa < 0) ++ (Shown.ofDecimal d).text p style

/-- The value with its type mark and its buffer, for a log. -/
def logText (x : Floating p) : List Char :=
  x.text .write ++ [p.sigil, ' ', '['] ++ Bytes.text x.toBytes ++ [']']

end Floating

def Integer.hexText (n : Integer) : List Char := numeral 16 n.word.toNat

def Integer.octalText (n : Integer) : List Char := numeral 8 n.word.toNat

end BasicNumerics
