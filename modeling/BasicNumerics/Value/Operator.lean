/-
Operators on values.

Two numbers meet in the higher of their kinds. Sums, differences and products of
integers that leave the sixteen-bit range go on as exact singles, so they never
fail; integer division and the logical operators work on integers whatever the
operands are. Comparisons answer with the two truth words. Strings can be compared
and joined, and nothing else.
-/
import BasicNumerics.Value.Basic

set_option autoImplicit false

namespace BasicNumerics

/-! ## The operators -/

inductive Relation where
  | equal
  | notEqual
  | less
  | lessEqual
  | greater
  | greaterEqual
deriving DecidableEq, Repr

/-- Whether two operands in the given order satisfy the comparison. -/
def Relation.holds : Relation → Ordering → Bool
  | equal, o => o == .eq
  | notEqual, o => o != .eq
  | less, o => o == .lt
  | lessEqual, o => o != .gt
  | greater, o => o == .gt
  | greaterEqual, o => o != .lt

inductive Connective where
  | and
  | or
  | xor
  | eqv
  | imp
deriving DecidableEq, Repr

def Connective.onWords : Connective → Integer → Integer → Integer
  | and => Integer.and
  | or => Integer.or
  | xor => Integer.xor
  | eqv => Integer.eqv
  | imp => Integer.imp

inductive Operator where
  | power
  | multiply
  | divide
  | divideInt
  | modulus
  | plus
  | minus
  | relation (r : Relation)
  | logical (c : Connective)
deriving DecidableEq, Repr

/-- How tightly an operator binds; higher is tighter. -/
def Operator.precedence : Operator → Nat
  | power => 13
  | multiply | divide => 11
  | divideInt => 10
  | modulus => 9
  | plus | minus => 8
  | relation _ => 7
  | logical .and => 5
  | logical .or => 4
  | logical .xor => 3
  | logical .eqv => 2
  | logical .imp => 1

/-! ## Two operands of one kind -/

/-- Two operands in the kind where they meet. -/
inductive Pair where
  | integers (n m : Integer)
  | floats (p : Precision) (x y : Floating p)
  | strings (s t : String)
deriving DecidableEq, Repr

/-- Brings two operands to the higher of their kinds, which holds both exactly. -/
def Pair.promote : Value → Value → Except Fault Pair
  | .integer n, .integer m => .ok (.integers n m)
  | .integer n, .float p y => .ok (.floats p (n.toFloating p) y)
  | .float p x, .integer m => .ok (.floats p x (m.toFloating p))
  | .float .single x, .float .single y => .ok (.floats .single x y)
  | .float .single x, .float .double y => .ok (.floats .double x.widen y)
  | .float .double x, .float .single y => .ok (.floats .double x y.widen)
  | .float .double x, .float .double y => .ok (.floats .double x y)
  | .string s, .string t => .ok (.strings s t)
  | _, _ => typeMismatch

namespace Value

/-! ## Arithmetic -/

def maxStringLength : Nat := 255

def join (s t : String) : Calc :=
  if maxStringLength < s.length + t.length then .error (.fault (.ofCause .stringTooLong))
  else .ok (string (s ++ t))

/-- The word of an operation on integers, or its exact result as a single where no
word holds it. -/
def wordOr (exact : Int) : Except Fault Integer → Value
  | .ok n => integer n
  | .error _ => float .single (.ofInt exact)

/-- An operation given on each kind: on words with the exact result beside it, on
floating-point numbers, and on strings. -/
def arithmetic (onWords : Integer → Integer → Except Fault Integer) (exact : Int → Int → Int)
    (onFloats : (p : Precision) → Floating p → Floating p → Outcome (Floating p) (Floating p))
    (onStrings : String → String → Calc) (l r : Value) : Calc :=
  match Pair.promote l r with
  | .error f => .error (.fault f)
  | .ok (.integers n m) =>
    .ok (wordOr (exact (n.toInt .signed) (m.toInt .signed)) (onWords n m))
  | .ok (.floats p x y) => Outcome.lift (float p) (onFloats p x y)
  | .ok (.strings s t) => onStrings s t

/-- The failure of an operation that strings do not have. -/
def noStrings (_ _ : String) : Calc := .ofFault typeMismatch

/-- The sum of numbers, or two strings joined. -/
def sum : Value → Value → Calc :=
  arithmetic Integer.add (· + ·) (fun _ => Floating.add) join

def subtract : Value → Value → Calc :=
  arithmetic Integer.sub (· - ·) (fun _ => Floating.sub) noStrings

def multiply : Value → Value → Calc :=
  arithmetic Integer.mul (· * ·) (fun _ => Floating.mul) noStrings

/-- The quotient, at least single. -/
def divide (l r : Value) : Calc :=
  match Pair.promote l r with
  | .error f => .error (.fault f)
  -- integers are divided as singles, so that a fraction is kept
  | .ok (.integers n m) =>
    Outcome.lift (float .single) ((n.toFloating .single).div (m.toFloating .single))
  | .ok (.floats p x y) => Outcome.lift (float p) (x.div y)
  | .ok (.strings s t) => noStrings s t

/-- An operation on two operands taken as integers. The left operand is converted
first, so its failure comes first. -/
def onIntegers (r : Reading) (op : Integer → Integer → Calc) (lhs rhs : Value) : Calc :=
  match lhs.toInteger r with
  | .error f => .error (.fault f)
  | .ok n =>
    match rhs.toInteger r with
    | .error f => .error (.fault f)
    | .ok m => op n m

/-- A division of integers as an operation on values. -/
def integerDivision (op : Integer → Integer → Outcome Single Integer) (n m : Integer) : Calc :=
  match op n m with
  | .ok k => .ok (integer k)
  | .error e => .error (e.map (float .single))

/-- The quotient of the nearest integers, cut towards zero. -/
def divideInt : Value → Value → Calc := onIntegers .signed (integerDivision Integer.div)

def modulus : Value → Value → Calc := onIntegers .signed (integerDivision Integer.mod)

/-- The opposite number; the lowest integer has none and becomes a single. -/
def negate : Value → Calc
  | integer n => .ok (wordOr (-n.toInt .signed) n.negate)
  | float p x => .ok (float p x.negate)
  | string _ => .ofFault typeMismatch

/-! ## Powers -/

/-- A power by way of the 64-bit interchange format. -/
def powerAny (p : Precision) (x y : Binary64) : Calc :=
  if x.isZero && y.isNegative then .error (.divisionByZero (max p false))
  else if x.isNegative && !y.isWhole then .error (.fault (.ofCause .illegalFunctionCall))
  else ofBinary64 p (x.pow y)

/-- The power. An integer exponent multiplies out, in the precision of the base;
any other exponent goes through the 64-bit interchange format, in the higher
precision of the two. -/
def power : Value → Value → Calc
  | integer n, integer m =>
    Outcome.lift (float .single) ((n.toFloating .single).pow (m.toInt .signed))
  | float p x, integer m => Outcome.lift (float p) (x.pow (m.toInt .signed))
  | integer n, float q y => powerAny q (n.toFloating .single).toBinary64 y.toBinary64
  | float p x, float q y => powerAny (p.max q) x.toBinary64 y.toBinary64
  | _, _ => .ofFault typeMismatch

/-! ## Comparison and logic -/

def compare (l r : Value) : Except Fault Ordering :=
  match Pair.promote l r with
  | .error f => .error f
  | .ok (.integers n m) => .ok (n.compare m)
  | .ok (.floats _ x y) => .ok (x.compare y)
  | .ok (.strings s t) => .ok (Ord.compare s t)

/-- Whether a comparison holds, as a truth word. -/
def relate (rel : Relation) (l r : Value) : Calc :=
  match l.compare r with
  | .error f => .error (.fault f)
  | .ok o => .ok (ofBool (rel.holds o))

/-- A connective on the bits of the nearest integers, taken from the unsigned
range. -/
def connect (c : Connective) : Value → Value → Calc :=
  onIntegers .unsigned fun n m => .ok (integer (c.onWords n m))

def not (v : Value) : Calc := .ofFault ((v.toInteger .unsigned).map fun n => integer n.not)

end Value

def Operator.apply : Operator → Value → Value → Calc
  | power => Value.power
  | multiply => Value.multiply
  | divide => Value.divide
  | divideInt => Value.divideInt
  | modulus => Value.modulus
  | plus => Value.sum
  | minus => Value.subtract
  | relation r => Value.relate r
  | logical c => Value.connect c

end BasicNumerics
