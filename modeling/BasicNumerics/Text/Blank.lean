/-
Blank characters.

Blanks separate the parts of a line and surround a typed number. They are the
characters with the Unicode property White_Space, 25 in all.
-/

set_option autoImplicit false

namespace BasicNumerics.Text

/-- The runs of blank characters, by first and last code point. -/
def blankRuns : List (Nat × Nat) :=
  [(0x09, 0x0d), (0x20, 0x20), (0x85, 0x85), (0xa0, 0xa0), (0x1680, 0x1680), (0x2000, 0x200a),
    (0x2028, 0x2029), (0x202f, 0x202f), (0x205f, 0x205f), (0x3000, 0x3000)]

def isBlank (c : Char) : Bool :=
  blankRuns.any fun (first, last) => first ≤ c.toNat && c.toNat ≤ last

def trimStart (cs : List Char) : List Char := cs.dropWhile isBlank

/-- The text without the blanks at either end. -/
def trim (cs : List Char) : List Char := (trimStart (trimStart cs).reverse).reverse

/-- There are 25 blank characters. -/
example : (blankRuns.map fun (first, last) => last + 1 - first).sum = 25 := by decide

end BasicNumerics.Text
