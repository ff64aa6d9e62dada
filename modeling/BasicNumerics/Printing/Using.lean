/-
Numbers laid out to a given picture.

A picture gives the number of decimals, or the digits before and after the point
of scientific notation. Fixed notation starts from the digits the precision shows
and rounds them once more, halves away from zero; a number that rounds to zero has
no sign. Scientific notation asks the value for as many digits as the picture has.
-/
import BasicNumerics.Value.Basic

set_option autoImplicit false

namespace BasicNumerics

open Text

/-! ## Rounding a row of digits -/

namespace Text

/-- The next row of digits, the last digit first: nines turn to zeros up to the first digit that
has a next one, and past all of them a one is put. -/
def incrementLast : List Char → List Char
  | [] => ['1']
  | c :: cs => if c = '9' then '0' :: incrementLast cs else Char.ofNat (c.toNat + 1) :: cs

/-- The row that denotes one more. -/
def increment (cs : List Char) : List Char := (incrementLast cs.reverse).reverse

/-- The digits of a row times `10^shift`, rounded to a whole number: the first digit that is
dropped decides. -/
def shiftRound (cs : List Char) (shift : Int) : List Char :=
  if 0 ≤ shift then cs ++ List.replicate shift.toNat '0'
  -- with a zero between the point and the first digit there is nothing to round up
  else if cs.length < (-shift).toNat then ['0']
  else
    let kept := cs.take (cs.length - (-shift).toNat)
    let dropped := cs.drop (cs.length - (-shift).toNat)
    let rounded := if dropped.head?.any ('5' ≤ ·) then increment kept else kept
    if rounded.isEmpty then ['0'] else rounded

/-- A row without zeros in front, but for a last one. -/
def dropLeadingZeros (cs : List Char) : List Char :=
  match cs.dropWhile (· == '0') with
  | [] => ['0']
  | d :: ds => d :: ds

end Text

/-! ## Pictures -/

namespace Decimal

/-- Fixed notation with the given number of decimals; a whole digit is always
shown. -/
def fixedText (style : Style) (places : Nat) (d : Decimal) : List Char :=
  let scaled := padLeft (places + 1) (shiftRound (decimal d.mantissa.natAbs) (d.exponent + places))
  let whole := scaled.take (scaled.length - places)
  -- what rounds to zero has no minus
  style.signText (d.mantissa < 0 && scaled.any (· != '0'))
    ++ style.wholeText (dropLeadingZeros whole)
    ++ style.pointText (0 < places)
    ++ scaled.drop (scaled.length - places)

/-- Scientific notation with the given digits before and after the point. The
mantissa is padded with zeros where it has fewer digits, and a zero is shown with
the power zero. The counts are not bounded here; machine words hold them and the
powers for pictures of fewer than `2^31 - 106` digits
(`Floating.powers_of_scientificText`). -/
def scientificText (style : Style) (marker : Char) (whole places : Nat) (d : Decimal) :
    List Char :=
  let count := Nat.max (whole + places) 1
  let digits := decimal d.mantissa.natAbs
  let shown := padRight count digits
  let last := d.exponent - (count - digits.length : Nat)
  style.signText (d.mantissa < 0)
    ++ style.wholeText (shown.take whole)
    ++ style.pointText (0 < places)
    ++ shown.drop whole
    ++ exponentText marker (if d.mantissa = 0 then 0 else last + (count - whole : Nat))

end Decimal

/-- A floating-point number laid out with the digits the picture has. -/
def Floating.scientificText {p : Precision} (style : Style) (whole places : Nat)
    (x : Floating p) : List Char :=
  (x.toDecimal (some (Nat.max (whole + places) 1))).scientificText style p.marker whole places

namespace Value

def fixedText (style : Style) (places : Nat) : Value → Except Fault (List Char)
  | integer n => .ok ((⟨n.toInt .signed, 0⟩ : Decimal).fixedText style places)
  | float _ x => .ok ((x.toDecimal none).fixedText style places)
  | string _ => typeMismatch

/-- A number with the given digits before and after the point of scientific
notation. Integers are laid out as singles. -/
def scientificText (style : Style) (whole places : Nat) : Value → Except Fault (List Char)
  | integer n => .ok ((n.toFloating .single).scientificText style whole places)
  | float _ x => .ok (x.scientificText style whole places)
  | string _ => typeMismatch

end Value

end BasicNumerics
