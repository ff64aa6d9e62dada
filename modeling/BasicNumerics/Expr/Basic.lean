/-
Expressions and their evaluation.

Operands are evaluated from left to right and an operator after both. A line that
is not a well-formed expression is an expression all the same: it computes as far
as it makes sense and then stops at the fault of its form, so what it tells the
user on the way is told.
-/
import BasicNumerics.Session

set_option autoImplicit false

namespace BasicNumerics

/-- An expression. -/
inductive Expr where
  | literal (l : Literal)
  | text (cs : List Char)
  | negate (e : Expr)
  | not (e : Expr)
  | binary (op : Operator) (l r : Expr)
  | call (f : Function) (e : Expr)
  /-- Where an operand should stand and none does. -/
  | invalid (f : Fault)
  /-- An expression after which the line goes wrong. -/
  | unfinished (e : Expr) (f : Fault)
deriving DecidableEq, Repr

/-- The value of an expression in a session. -/
def Expr.eval (s : Session) : Expr → Run Value
  | literal l => s.ofLiteral l
  | text cs => pure (.string (String.ofList cs))
  | negate e => do
    let v ← e.eval s
    s.negate v
  | not e => do
    let v ← e.eval s
    s.not v
  | binary op l r => do
    let x ← l.eval s
    let y ← r.eval s
    s.apply op x y
  | call f e => do
    let v ← e.eval s
    s.applyFunction f v
  | invalid f => .fail f
  | unfinished e f => do
    let _ ← e.eval s
    .fail f

end BasicNumerics
