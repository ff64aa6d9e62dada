/-
The expression that a line of lexemes means.

A line is evaluated while it is read, and no tree is built. The reader here gives the tree
whose value that is. It keeps a stack of frames, each an expression with a hole: an operator
that waits for its right operand, a prefix operator or an open parenthesis. Every
frame has a level, and an operator that binds no tighter than the level of the top
frame completes that frame first. An open parenthesis has the lowest level, so only
its closing completes it. Each lexeme is looked at once.
-/
import BasicNumerics.Expr.Basic
import BasicNumerics.Expr.Lexeme

set_option autoImplicit false

namespace BasicNumerics

/-! ## Frames -/

/-- An expression with a hole. -/
inductive Frame where
  | binary (l : Expr) (op : Operator)
  | negate
  | plus
  | not
  | paren
  | call (f : Function)
deriving DecidableEq, Repr

namespace Frame

/-- The least precedence of an operator that belongs to the expression in the
hole. Operators of one precedence group to the left, a sign binds tighter than all
but powers, and NOT looser than comparisons. -/
def level : Frame → Nat
  | binary _ op => op.precedence + 1
  | negate => 12
  | plus => 12
  | not => 7
  | paren => 0
  | call _ => 0

def plug (e : Expr) : Frame → Expr
  | binary l op => .binary op l e
  | negate => .negate e
  | plus => e
  | not => .not e
  | paren => e
  | call f => .call f e

end Frame

/-- Fills the hole of every frame, innermost first. -/
def plugAll (frames : List Frame) (e : Expr) : Expr := frames.foldl (fun e f => f.plug e) e

/-- Completes the frames above the given precedence. -/
def reduce (precedence : Nat) : List Frame → Expr → List Frame × Expr
  | [], e => ([], e)
  | f :: fs, e => if precedence < f.level then reduce precedence fs (f.plug e) else (f :: fs, e)

/-! ## Reading -/

/-- How far a line has been read. -/
inductive Reader where
  /-- An operand must follow. -/
  | operand (frames : List Frame)
  /-- The parenthesis of a function must follow. -/
  | argument (f : Function) (frames : List Frame)
  /-- An operand has been read; an operator may follow. -/
  | operator (frames : List Frame) (e : Expr)
  /-- The line has gone wrong; the rest of it is not looked at. -/
  | stopped (e : Expr)
deriving DecidableEq, Repr

namespace Reader

/-- The line goes wrong where an operand should stand. -/
def missing (frames : List Frame) (note : String) : Reader :=
  .stopped (plugAll frames (.invalid (.badSyntax note)))

/-- What a lexeme does where an operand must follow. -/
def readOperand (frames : List Frame) : Lexeme → Reader
  | .literal l => .operator frames (.literal l)
  | .text cs => .operator frames (.text cs)
  | .leftParen => .operand (.paren :: frames)
  | .operator .minus => .operand (.negate :: frames)
  | .operator .plus => .operand (.plus :: frames)
  | .not => .operand (.not :: frames)
  | .word cs =>
    match Function.named? (String.ofList cs) with
    | some f => .argument f frames
    | none => .stopped (plugAll frames (.invalid Function.unknown))
  | .operator _ => missing frames "EXPECTED EXPRESSION"
  | .rightParen => missing frames "EXPECTED EXPRESSION"

/-- The expression of a line that ends, or goes wrong, after an operand. Inside a
parenthesis the closing is missing; outside, `leftover` says whether something is
left that should not be. -/
def close (frames : List Frame) (e : Expr) (leftover : Bool) : Expr :=
  match reduce 0 frames e with
  | ([], e) => if leftover then .unfinished e (.badSyntax "UNEXPECTED TOKEN") else e
  -- a parenthesis is open: the fault comes after its content is computed
  | (frames, e) => plugAll frames (.unfinished e (.badSyntax "EXPECTED RIGHT PARENTHESIS"))

/-- What a lexeme does after an operand. -/
def readOperator (frames : List Frame) (e : Expr) : Lexeme → Reader
  | .operator op =>
    let (frames, e) := reduce op.precedence frames e
    .operand (.binary e op :: frames)
  | .rightParen =>
    match reduce 0 frames e with
    | (f :: frames, e) => .operator frames (f.plug e)
    | ([], _) => .stopped (close frames e true)
  -- an operand or NOT cannot follow an operand
  | _ => .stopped (close frames e true)

def step : Reader → Lexeme → Reader
  | operand frames, t => readOperand frames t
  | argument f frames, .leftParen => .operand (.call f :: frames)
  | argument _ frames, _ => missing frames "EXPECTED LEFT PARENTHESIS"
  | operator frames e, t => readOperator frames e t
  | stopped e, _ => stopped e

def finish : Reader → Expr
  | operand frames => plugAll frames (.invalid (.badSyntax "EXPECTED EXPRESSION"))
  | argument _ frames => plugAll frames (.invalid (.badSyntax "EXPECTED LEFT PARENTHESIS"))
  | operator frames e => close frames e false
  | stopped e => e

end Reader

def Expr.ofLexemes (ts : List Lexeme) : Expr := (ts.foldl Reader.step (.operand [])).finish

end BasicNumerics
