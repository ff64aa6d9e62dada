/-
Decimal numbers: a whole mantissa and a power of ten.
-/

set_option autoImplicit false

namespace BasicNumerics

/-- The number `mantissa · 10^exponent`. -/
structure Decimal where
  mantissa : Int
  exponent : Int
deriving DecidableEq, Repr

end BasicNumerics
