/-
Evaluating a line while it is read.

No tree is built: an operand is computed when it has been read, and an operator when its
right operand has been. `readExpression` reads an operand and then, as long as an operator
follows that binds at least as tightly as it was asked for, that operator and an expression
that binds tighter. A sign or NOT is an operand that asks for an expression of its own
strength, and a parenthesis is one that asks for any.

Each of the three readers says, in the type of what it leaves of the line, that it has taken
something off it (`readOperators` may take nothing). That is why they end.
-/
import BasicNumerics.Expr.Lexeme
import BasicNumerics.Session

set_option autoImplicit false

namespace BasicNumerics

/-- The strength that a sign asks for: only powers bind as tightly. -/
def signStrength : Nat := 12

/-- The strength that NOT asks for: that of comparisons. -/
def notStrength : Nat := 7

/-- The line after a right parenthesis, which must be there. -/
def Lexeme.expectRight (ts : List Lexeme) : Run { rest : List Lexeme // rest.length < ts.length } :=
  match ts with
  | .rightParen :: rest => .done ⟨rest, Nat.lt_succ_self _⟩
  | _ => .fail (.badSyntax "EXPECTED RIGHT PARENTHESIS")

/-- The line after a left parenthesis, which must be there. -/
def Lexeme.expectLeft (ts : List Lexeme) : Run { rest : List Lexeme // rest.length < ts.length } :=
  match ts with
  | .leftParen :: rest => .done ⟨rest, Nat.lt_succ_self _⟩
  | _ => .fail (.badSyntax "EXPECTED LEFT PARENTHESIS")

namespace Session

mutual

/-- An operand, and the operators after it that bind at least as tightly as `strength`. -/
def readExpression (s : Session) (strength : Nat) (ts : List Lexeme) :
    Run (Value × { rest : List Lexeme // rest.length < ts.length }) := do
  let (v, rest) ← s.readOperand ts
  let (v, last) ← s.readOperators strength v rest.1
  return (v, ⟨last.1, Nat.lt_of_le_of_lt last.2 rest.2⟩)
termination_by (ts.length, 1)

/-- The operators after the operand `v` that bind at least as tightly as `strength`. Those
of one strength group to the left: the right operand of each binds tighter. -/
def readOperators (s : Session) (strength : Nat) (v : Value) (ts : List Lexeme) :
    Run (Value × { rest : List Lexeme // rest.length ≤ ts.length }) :=
  match ts with
  | .operator op :: ts => do
    if op.precedence < strength then
      return (v, ⟨.operator op :: ts, Nat.le_refl _⟩)
    else
      let (w, rest) ← s.readExpression (op.precedence + 1) ts
      let v ← s.apply op v w
      let (v, last) ← s.readOperators strength v rest.1
      return (v, ⟨last.1, Nat.le_trans last.2 (Nat.le_succ_of_le (Nat.le_of_lt rest.2))⟩)
  | ts => return (v, ⟨ts, Nat.le_refl _⟩)
termination_by (ts.length, 0)

/-- A literal, a text, a parenthesis, a sign or NOT with what it applies to, or a call. -/
def readOperand (s : Session) (ts : List Lexeme) :
    Run (Value × { rest : List Lexeme // rest.length < ts.length }) :=
  match ts with
  | .leftParen :: ts => do
    let (v, rest) ← s.readExpression 0 ts
    let last ← Lexeme.expectRight rest.1
    return (v, ⟨last.1, Nat.lt_succ_of_lt (Nat.lt_trans last.2 rest.2)⟩)
  | .literal l :: ts => do
    let v ← s.ofLiteral l
    return (v, ⟨ts, Nat.lt_succ_self _⟩)
  | .text cs :: ts => return (.string (String.ofList cs), ⟨ts, Nat.lt_succ_self _⟩)
  | .operator .minus :: ts => do
    let (v, rest) ← s.readExpression signStrength ts
    let v ← s.negate v
    return (v, ⟨rest.1, Nat.lt_succ_of_lt rest.2⟩)
  | .operator .plus :: ts => do
    let (v, rest) ← s.readExpression signStrength ts
    return (v, ⟨rest.1, Nat.lt_succ_of_lt rest.2⟩)
  | .not :: ts => do
    let (v, rest) ← s.readExpression notStrength ts
    let v ← s.not v
    return (v, ⟨rest.1, Nat.lt_succ_of_lt rest.2⟩)
  | .word cs :: ts =>
    match Function.named? (String.ofList cs) with
    | none => .fail Function.unknown
    | some f => do
      let first ← Lexeme.expectLeft ts
      let (v, rest) ← s.readExpression 0 first.1
      let last ← Lexeme.expectRight rest.1
      let v ← s.applyFunction f v
      return (v, ⟨last.1,
        Nat.lt_succ_of_lt (Nat.lt_trans last.2 (Nat.lt_trans rest.2 first.2))⟩)
  | _ => .fail (.badSyntax "EXPECTED EXPRESSION")
termination_by (ts.length, 0)

end

/-- The value of an expression at the start of a line, and what is left of the line. -/
def expression (s : Session) (strength : Nat) (ts : List Lexeme) : Run (Value × List Lexeme) := do
  let (v, rest) ← s.readExpression strength ts
  return (v, rest.1)

/-- The value of a line that holds one expression. A character that starts no lexeme stops
it before anything is computed, and a lexeme that is left over after everything is. -/
def evaluate (s : Session) (line : String) : Run Value :=
  match Lexeme.scanAll line.toList with
  | .error f => .fail f
  | .ok ts => do
    let (v, rest) ← s.expression 0 ts
    if rest.isEmpty then return v else .fail (.badSyntax "UNEXPECTED TOKEN")

end Session

end BasicNumerics
