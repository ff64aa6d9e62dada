/-
Numeric functions.

Each takes one number. The conversions and the functions on signs and whole parts
keep to the number formats of the language; the others are computed in the 64-bit
interchange format and answer in single precision, unless double-precision
functions are switched on and the argument is double.
-/
import BasicNumerics.Value.Operator

set_option autoImplicit false

namespace BasicNumerics

inductive Function where
  | abs
  | sgn
  | int
  | fix
  | cint
  | csng
  | cdbl
  | sqr
  | exp
  | log
  | sin
  | cos
  | tan
  | atn
deriving DecidableEq, Repr

namespace Function

def all : List Function :=
  [abs, sgn, int, fix, cint, csng, cdbl, sqr, exp, log, sin, cos, tan, atn]

/-- The name of a function in a program. -/
def name : Function → String
  | abs => "ABS"
  | sgn => "SGN"
  | int => "INT"
  | fix => "FIX"
  | cint => "CINT"
  | csng => "CSNG"
  | cdbl => "CDBL"
  | sqr => "SQR"
  | exp => "EXP"
  | log => "LOG"
  | sin => "SIN"
  | cos => "COS"
  | tan => "TAN"
  | atn => "ATN"

/-- The function of a name, if there is one. -/
def named? (name : String) : Option Function := all.find? (·.name = name)

def arity (_ : Function) : Nat := 1

/-- What is wrong with a name that no function has. -/
def unknown : Fault := .badSyntax "UNKNOWN FUNCTION"

end Function

namespace Value

/-- The magnitude; the lowest integer has none and becomes a single. -/
def abs : Value → Calc
  | integer n => .ok (wordOr (n.toInt .signed).natAbs n.abs)
  | float p x => .ok (float p x.abs)
  | string _ => .ofFault typeMismatch

def sgn : Value → Calc
  | integer n => .ofFault ((Integer.ofInt .signed n.sign).map integer)
  | float _ x => .ofFault ((Integer.ofInt .signed x.sign).map integer)
  | string _ => .ofFault typeMismatch

/-- A function that changes floating-point numbers and leaves integers alone. -/
def onFloats (f : (p : Precision) → Floating p → Floating p) : Value → Calc
  | integer n => .ok (integer n)
  | float p x => .ok (float p (f p x))
  | string _ => .ofFault typeMismatch

/-- The precision in which a computed function answers. -/
def answerPrecision (doubleMath : Bool) : Value → Precision
  | float .double _ => if doubleMath then .double else .single
  | _ => .single

/-- A function computed in the 64-bit interchange format, on arguments that
`defined` admits. -/
def computed (f : Binary64 → Binary64) (defined : Binary64 → Bool) (doubleMath : Bool)
    (v : Value) : Calc :=
  match v.toBinary64 with
  | .error e => .error (.fault e)
  | .ok x =>
    if defined x then ofBinary64 (answerPrecision doubleMath v) (f x)
    else .error (.fault (.ofCause .illegalFunctionCall))

end Value

namespace Function

/-- What a function does. The root takes no negative number, and the logarithm
none that is not positive. -/
def apply (doubleMath : Bool) : Function → Value → Calc
  | abs => Value.abs
  | sgn => Value.sgn
  | int => Value.onFloats fun _ => Floating.floor
  | fix => Value.onFloats fun _ => Floating.trunc
  | cint => Value.toKind (.number .integer)
  | csng => Value.toKind (.number (.float .single))
  | cdbl => Value.toKind (.number (.float .double))
  | sqr => Value.computed Binary64.sqrt (fun x => !x.isNegative) doubleMath
  | exp => Value.computed Binary64.exp (fun _ => true) doubleMath
  | log => Value.computed Binary64.log (fun x => !x.isNegative && !x.isZero) doubleMath
  | sin => Value.computed Binary64.sin (fun _ => true) doubleMath
  | cos => Value.computed Binary64.cos (fun _ => true) doubleMath
  | tan => Value.computed Binary64.tan (fun _ => true) doubleMath
  | atn => Value.computed Binary64.atan (fun _ => true) doubleMath

def call (doubleMath : Bool) (name : String) (v : Value) : Calc :=
  match named? name with
  | some f => f.apply doubleMath v
  | none => .error (.fault unknown)

/-- **A function answers to its name.** -/
@[simp] theorem named?_name (f : Function) : named? f.name = some f := by
  cases f <;> decide

end Function

end BasicNumerics
