/-
Values.

A value is an integer, a floating-point number or a string. Numbers convert to
every kind of number; a conversion out of range fails, and strings convert to
nothing but themselves.
-/
import BasicNumerics.Floating.Binary64
import BasicNumerics.Floating.Convert
import BasicNumerics.Kind
import BasicNumerics.Literal
import BasicNumerics.Printing.General

set_option autoImplicit false

namespace BasicNumerics

/-- A value of the language. -/
inductive Value where
  | integer (n : Integer)
  | float (p : Precision) (x : Floating p)
  | string (s : String)
deriving DecidableEq, Repr

/-- What an operation on values gives. -/
abbrev Calc : Type := Outcome Value Value

/-- The failure of every numeric operation on a string. -/
def typeMismatch {α : Type} : Except Fault α := .error (.ofCause .typeMismatch)

namespace Value

instance : Inhabited Value := ⟨.integer .zero⟩

def kind : Value → Kind
  | integer _ => .number .integer
  | float p _ => .number (.float p)
  | string _ => .string

/-- Whether a number is zero, or a string empty. -/
def isZero : Value → Bool
  | integer n => n.isZero
  | float _ x => x.isZero
  | string s => s.isEmpty

def ofBool (b : Bool) : Value := integer (.ofBool b)

/-- The largest magnitude of a precision, as a value. -/
def max (p : Precision) (neg : Bool) : Value := float p (.max neg)

/-! ## Conversions -/

/-- The nearest integer, halves away from zero. -/
def toInteger (r : Reading) : Value → Except Fault Integer
  | integer n => .ok n
  | float _ x => x.toInteger r
  | string _ => typeMismatch

/-- The value in single precision; a double is rounded. -/
def toSingle : Value → Outcome Single Single
  | integer n => .ok (n.toFloating .single)
  | float .single x => .ok x
  | float .double x => x.convert .single
  | string _ => .ofFault typeMismatch

/-- The value in double precision, which holds every number. -/
def toDouble : Value → Except Fault Double
  | integer n => .ok (n.toFloating .double)
  | float .single x => .ok x.widen
  | float .double x => .ok x
  | string _ => typeMismatch

/-- The value as a floating-point number; integers become single. -/
def toFloat : Value → Except Fault Value
  | integer n => .ok (float .single (n.toFloating .single))
  | float p x => .ok (float p x)
  | string _ => typeMismatch

def toBinary64 : Value → Except Fault Binary64
  | integer n => .ok (n.toFloating .single).toBinary64
  | float _ x => .ok x.toBinary64
  | string _ => typeMismatch

/-- The value nearest to a pattern, in the given precision. -/
def ofBinary64 (p : Precision) (b : Binary64) : Calc :=
  Outcome.lift (float p) (Floating.ofBinary64 b)

def toKind (k : Kind) (v : Value) : Calc :=
  match k with
  | .number .integer => .ofFault ((v.toInteger .signed).map integer)
  | .number (.float .single) => Outcome.lift (float .single) v.toSingle
  | .number (.float .double) => .ofFault (v.toDouble.map (float .double))
  | .string =>
    match v with
    | string s => .ok (string s)
    | _ => .ofFault typeMismatch

/-! ## Buffers -/

/-- The value of a kind that bytes hold; a string takes each byte as a
character. -/
def ofBytes (k : Kind) (bytes : List UInt8) : Except Fault Value :=
  match k with
  | .number .integer => (Integer.ofBytes bytes).map integer
  | .number (.float p) => (Floating.ofBytes bytes).map (float p)
  | .string => .ok (string (String.ofList (bytes.map fun b => Char.ofNat b.toNat)))

/-- The bytes of a value; of a character only the low byte is kept. -/
def toBytes : Value → List UInt8
  | integer n => n.toBytes
  | float _ x => x.toBytes
  | string s => s.toList.map fun c => UInt8.ofNat c.toNat

/-! ## Text -/

def text (style : Style) : Value → String
  | integer n => String.ofList (n.text style)
  | float _ x => String.ofList (x.text style)
  | string s => s

/-! ## Literals -/

/-- The integer that digits denote to a base, in the unsigned range. -/
def ofBased (base : Nat) (digits : List Char) : Except Fault Integer :=
  match basedValue? base digits with
  | some n => Integer.ofInt .unsigned n
  | none => .error (.ofCause .overflow)

/-- The value of a literal. An integer is read as a double first, so one far out
of range fails as a double does. -/
def ofLiteral (l : Literal) : Calc :=
  match l.spelling with
  | .decimal (.float p) => Outcome.lift (float p) (Floating.ofDecimal (.ofText l.text))
  | .decimal .integer =>
    match (Floating.ofDecimal (.ofText l.text) : Outcome Double Double) with
    | .ok x => .ofFault ((x.toInteger .signed).map integer)
    -- the substitute of an integer out of every range is a double
    | .error e => .error (e.map (float .double))
  | .hex => .ofFault ((ofBased 16 l.text).map integer)
  | .octal => .ofFault ((ofBased 8 l.text).map integer)

end Value

end BasicNumerics
