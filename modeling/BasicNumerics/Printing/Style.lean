/-
How numbers are laid out.

Four switches govern the text of a number, and three settings of them have names:
one for output on the screen, one for data meant to be read back, one for program
listings.
-/
import BasicNumerics.Text.Digits

set_option autoImplicit false

namespace BasicNumerics

structure Style where
  /-- A blank in place of a plus sign. -/
  leadingSpace : Bool := false
  /-- A type mark on numbers whose kind the digits do not tell. -/
  typeSign : Bool := false
  /-- A decimal point even where no decimals follow. -/
  forceDot : Bool := false
  /-- A comma between groups of three whole digits. -/
  groupDigits : Bool := false
deriving DecidableEq, Repr

namespace Style

/-- Numbers on the screen. -/
def print : Style := { leadingSpace := true }

/-- Numbers in data. -/
def write : Style := {}

/-- Numbers in a program listing. -/
def list : Style := { typeSign := true }

def signText (s : Style) (neg : Bool) : List Char :=
  if neg then ['-'] else if s.leadingSpace then [' '] else []

def wholeText (s : Style) (digits : List Char) : List Char :=
  if s.groupDigits then Text.groupThousands digits else digits

/-- The point, where decimals follow or the style asks for one. -/
def pointText (s : Style) (decimals : Bool) : List Char :=
  if decimals || s.forceDot then ['.'] else []

end Style

/-- A power of ten: its letter, its sign, and at least two digits. -/
def exponentText (marker : Char) (e : Int) : List Char :=
  marker :: (if e < 0 then '-' else '+') :: Text.padLeft 2 (Text.decimal e.natAbs)

end BasicNumerics
