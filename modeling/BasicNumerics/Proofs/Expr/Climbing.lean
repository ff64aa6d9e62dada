/-
A line is evaluated as the tree that it means.

The evaluator has no tree and no stack of its own: what is pending is in the calls that have
not returned. `within` writes those calls down, one for each frame of the reader's stack. A
frame computes its left operand where it is entered, goes on with what is in its hole, and
where a value comes back from there it is finished and further operators are looked for.

So the reader at any point of a line has an evaluation still to be done (`Reader.pending`),
and one lexeme moves both alike (`follows_step`), unless the line goes wrong there. By
induction along the line the evaluator gives what the tree of the line gives
(`Session.wholeLine_expression`), values, faults and messages alike, for every line and not
only for those that are well formed.
-/
import BasicNumerics.Expr.Evaluate
import BasicNumerics.Expr.Parse
import Mathlib.Tactic.Common

set_option autoImplicit false

namespace BasicNumerics

theorem Run.bind_eq {α β : Type} (r : Run α) (k : α → Run β) : r >>= k = r.andThen k := rfl

theorem Run.andThen_done {α : Type} (r : Run α) : r.andThen .done = r := by
  obtain ⟨messages, result⟩ := r
  cases result with
  | error f => rfl
  | ok x => simp [Run.andThen, Run.done]

/-! ## The readers without their bounds -/

namespace Lexeme

/-- The line after a right parenthesis. -/
def afterRight (ts : List Lexeme) : Run (List Lexeme) :=
  (expectRight ts).andThen fun rest => .done rest.1

def afterLeft (ts : List Lexeme) : Run (List Lexeme) :=
  (expectLeft ts).andThen fun rest => .done rest.1

@[simp] theorem afterRight_cons (ts : List Lexeme) :
    afterRight (rightParen :: ts) = .done ts := rfl

@[simp] theorem afterLeft_cons (ts : List Lexeme) : afterLeft (leftParen :: ts) = .done ts := rfl

theorem afterRight_of_head {ts : List Lexeme} (h : rightParen ∉ ts.head?) :
    afterRight ts = .fail (.badSyntax "EXPECTED RIGHT PARENTHESIS") := by
  unfold afterRight expectRight
  split
  · next rest => exact absurd rfl h
  · rfl

theorem afterLeft_of_head {ts : List Lexeme} (h : leftParen ∉ ts.head?) :
    afterLeft ts = .fail (.badSyntax "EXPECTED LEFT PARENTHESIS") := by
  unfold afterLeft expectLeft
  split
  · next rest => exact absurd rfl h
  · rfl

end Lexeme

namespace Session

open Lexeme

variable (s : Session)

def operand (ts : List Lexeme) : Run (Value × List Lexeme) :=
  (s.readOperand ts).andThen fun r => .done (r.1, r.2.1)

/-- The operators that follow an operand, and what is left after them. -/
def operators (strength : Nat) (v : Value) (ts : List Lexeme) : Run (Value × List Lexeme) :=
  (s.readOperators strength v ts).andThen fun r => .done (r.1, r.2.1)

/-- What comes in parentheses after the name of a function. -/
def argument (f : Function) (ts : List Lexeme) : Run (Value × List Lexeme) :=
  (afterLeft ts).andThen fun ts => (s.expression 0 ts).andThen fun r =>
    (afterRight r.2).andThen fun ts => (s.applyFunction f r.1).andThen fun v => .done (v, ts)

theorem expression_eq (strength : Nat) (ts : List Lexeme) :
    s.expression strength ts = (s.operand ts).andThen fun r => s.operators strength r.1 r.2 := by
  unfold expression operand operators
  rw [readExpression]
  simp only [Run.bind_eq, Run.andThen_assoc, Run.done_andThen, pure]

theorem operators_operator (strength : Nat) (v : Value) (op : Operator) (ts : List Lexeme) :
    s.operators strength v (.operator op :: ts) =
      if op.precedence < strength then .done (v, .operator op :: ts)
      else (s.expression (op.precedence + 1) ts).andThen fun r =>
        (s.apply op v r.1).andThen fun x => s.operators strength x r.2 := by
  unfold operators expression
  rw [readOperators]
  split
  · rfl
  · simp only [Run.bind_eq, Run.andThen_assoc, Run.done_andThen, pure]

/-- Nothing but an operator goes on with an expression. -/
theorem operators_of_head {strength : Nat} {v : Value} {ts : List Lexeme}
    (h : ∀ op, .operator op ∉ ts.head?) : s.operators strength v ts = .done (v, ts) := by
  unfold operators
  rw [readOperators]
  · rfl
  · intro op rest hts
    rw [hts] at h
    exact h op rfl

end Session

/-! ## Pending frames as pending calls -/

/-- What a frame computes, if `inner` is what is computed in its hole. -/
def Frame.fill (s : Session) (inner : Run (Value × List Lexeme)) : Frame → Run (Value × List Lexeme)
  | binary l op => (l.eval s).andThen fun x => inner.andThen fun r =>
      (s.apply op x r.1).andThen fun v => .done (v, r.2)
  | negate => inner.andThen fun r => (s.negate r.1).andThen fun v => .done (v, r.2)
  | plus => inner
  | not => inner.andThen fun r => (s.not r.1).andThen fun v => .done (v, r.2)
  | paren => inner.andThen fun r => (Lexeme.afterRight r.2).andThen fun ts => .done (r.1, ts)
  | call f => inner.andThen fun r => (Lexeme.afterRight r.2).andThen fun ts =>
      (s.applyFunction f r.1).andThen fun v => .done (v, ts)

/-- The computation of a stack of frames, if `k` is the innermost one, which is told how
tightly the operators that it may take have to bind. -/
def within (s : Session) : List Frame → (Nat → Run (Value × List Lexeme)) →
    Run (Value × List Lexeme)
  | [], k => k 0
  | f :: fs, k => within s fs fun strength =>
      (f.fill s (k f.level)).andThen fun r => s.operators strength r.1 r.2

/-- What the innermost computation is told: the level of the frame around it. -/
def innerLevel : List Frame → Nat
  | [] => 0
  | f :: _ => f.level

section Within

variable {s : Session} {f : Frame} {fs : List Frame} {e : Expr} {ts : List Lexeme}

theorem within_congr {k k' : Nat → Run (Value × List Lexeme)}
    (h : k (innerLevel fs) = k' (innerLevel fs)) : within s fs k = within s fs k' := by
  rcases fs with _ | ⟨f, fs⟩
  · exact h
  · simp only [innerLevel] at h
    simp only [within, h]

/-- **The value in the hole of a frame that no parenthesis holds open** makes the value of the
frame. -/
theorem fill_of_level_pos (h : 0 < f.level) :
    f.fill s ((e.eval s).andThen fun v => .done (v, ts)) =
      ((f.plug e).eval s).andThen fun v => .done (v, ts) := by
  cases f with
  | paren => exact absurd h (by simp [Frame.level])
  | call f => exact absurd h (by simp [Frame.level])
  | binary l op => simp [Frame.fill, Frame.plug, Expr.eval, Run.bind_eq, Run.andThen_assoc]
  | negate => simp [Frame.fill, Frame.plug, Expr.eval, Run.bind_eq, Run.andThen_assoc]
  | not => simp [Frame.fill, Frame.plug, Expr.eval, Run.bind_eq, Run.andThen_assoc]
  | plus => rfl

/-- A parenthesis makes its value where it is closed. -/
theorem fill_of_closed (h : f.level = 0) :
    f.fill s ((e.eval s).andThen fun v => .done (v, .rightParen :: ts)) =
      ((f.plug e).eval s).andThen fun v => .done (v, ts) := by
  cases f with
  | paren => simp [Frame.fill, Frame.plug, Run.andThen_assoc]
  | call f => simp [Frame.fill, Frame.plug, Expr.eval, Run.bind_eq, Run.andThen_assoc]
  | binary l op => exact absurd h (by simp [Frame.level])
  | negate => exact absurd h (by simp [Frame.level])
  | not => exact absurd h (by simp [Frame.level])
  | plus => exact absurd h (by simp [Frame.level])

/-- Frames are completed before the lexeme that ends them is looked at again. -/
theorem within_reduce {n : Nat} (h : ∀ strength v, n < strength →
      s.operators strength v ts = .done (v, ts)) (fs : List Frame) (e : Expr) :
    (within s fs fun strength => (e.eval s).andThen fun v => s.operators strength v ts) =
      within s (reduce n fs e).1 fun strength =>
        ((reduce n fs e).2.eval s).andThen fun v => s.operators strength v ts := by
  induction fs generalizing e with
  | nil => rfl
  | cons f fs ih =>
    unfold reduce
    by_cases hlt : n < f.level
    · rw [if_pos hlt, ← ih]
      simp only [within, h _ _ hlt]
      rw [fill_of_level_pos (Nat.zero_lt_of_lt hlt)]
      simp only [Run.andThen_assoc, Run.done_andThen]
    · rw [if_neg hlt]

theorem innerLevel_reduce (n : Nat) (fs : List Frame) (e : Expr) :
    innerLevel (reduce n fs e).1 ≤ n := by
  induction fs generalizing e with
  | nil => exact Nat.zero_le n
  | cons f fs ih =>
    unfold reduce
    by_cases hlt : n < f.level
    · rw [if_pos hlt]
      exact ih _
    · rw [if_neg hlt]
      exact Nat.not_lt.mp hlt

/-! ## Faults of form

A run that never has a value is the same run whatever it should go on with. -/

/-- `r` ends in a fault, and `r'` is that run where another value was wanted. -/
def Halts {α β : Type} (r : Run α) (r' : Run β) : Prop := ∀ k : α → Run β, r.andThen k = r'

theorem Halts.andThen {α β : Type} {r : Run α} {r' : Run β} (h : Halts r r') (k : β → Run β) :
    r'.andThen k = r' := by
  calc r'.andThen k = (r.andThen fun _ => r').andThen k := by rw [h]
    _ = r.andThen fun _ => r'.andThen k := Run.andThen_assoc _ _ _
    _ = r' := h _

/-- A frame whose hole ends in a fault ends there, after its left operand. -/
theorem fill_of_halts {inner : Run (Value × List Lexeme)} (h : Halts (e.eval s) inner) :
    Halts ((f.plug e).eval s) (f.fill s inner) := by
  intro after
  cases f with
  | binary l op =>
    simp only [Frame.plug, Frame.fill, Expr.eval, Run.bind_eq, Run.andThen_assoc, h.andThen]
    exact congrArg _ (funext fun x => h _)
  | negate | not | call f =>
    simp only [Frame.plug, Frame.fill, Expr.eval, Run.bind_eq, Run.andThen_assoc, h.andThen]
    exact h _
  | plus => exact h _
  | paren =>
    simp only [Frame.plug, Frame.fill, h.andThen]
    exact h _

/-- **Where the innermost computation ends in a fault, so does the whole,** and the same fault
stands in the hole of the tree. -/
theorem within_of_halts {k : Nat → Run (Value × List Lexeme)}
    (h : ∀ strength, Halts (e.eval s) (k strength)) :
    Halts ((plugAll fs e).eval s) (within s fs k) := by
  induction fs generalizing e k with
  | nil => exact h 0
  | cons f fs ih =>
    apply ih
    intro strength
    have hfill := fill_of_halts (f := f) (h f.level)
    rw [hfill.andThen]
    exact hfill

/-- A parenthesis that is not closed is a fault, once its content is computed. -/
theorem fill_of_open (h : f.level = 0) (hts : .rightParen ∉ ts.head?) :
    Halts ((f.plug (.unfinished e (.badSyntax "EXPECTED RIGHT PARENTHESIS"))).eval s)
      (f.fill s ((e.eval s).andThen fun v => .done (v, ts))) := by
  intro after
  cases f with
  | paren | call f =>
    simp only [Frame.plug, Frame.fill, Expr.eval, Run.bind_eq, Run.andThen_assoc, Run.done_andThen,
      Run.fail_andThen, Lexeme.afterRight_of_head hts]
  | binary l op => exact absurd h (Nat.succ_ne_zero _)
  | negate | not | plus => exact absurd h (by decide)

end Within

/-! ## Where an operand starts -/

/-- The frame that a lexeme opens where an operand must follow. -/
def Frame.opened? : Lexeme → Option Frame
  | .leftParen => some .paren
  | .operator .minus => some .negate
  | .operator .plus => some .plus
  | .not => some .not
  | _ => none

namespace Session

open Lexeme

variable (s : Session) (ts : List Lexeme)

/-- What opens a frame asks for an expression of the frame's level. -/
theorem operand_of_opened? {t : Lexeme} {f : Frame} (h : Frame.opened? t = some f) :
    s.operand (t :: ts) = f.fill s (s.expression f.level ts) := by
  unfold Frame.opened? at h
  unfold operand expression
  split at h
  case h_5 => exact absurd h (by simp)
  all_goals
    obtain rfl := Option.some.inj h
    rw [readOperand]
    simp only [Run.bind_eq, Run.andThen_assoc, Run.done_andThen, pure, Frame.fill, Frame.level,
      afterRight, signStrength, notStrength]

theorem operand_literal (l : Literal) :
    s.operand (.literal l :: ts) = (s.ofLiteral l).andThen fun v => .done (v, ts) := by
  unfold operand
  rw [readOperand]
  simp only [Run.bind_eq, Run.andThen_assoc, Run.done_andThen, pure]

theorem operand_text (cs : List Char) :
    s.operand (.text cs :: ts) = .done (.string (String.ofList cs), ts) := by
  unfold operand
  rw [readOperand]
  rfl

theorem operand_nil : s.operand [] = .fail (.badSyntax "EXPECTED EXPRESSION") := by
  unfold operand
  rw [readOperand] <;> simp

theorem operand_rightParen :
    s.operand (.rightParen :: ts) = .fail (.badSyntax "EXPECTED EXPRESSION") := by
  unfold operand
  rw [readOperand] <;> simp

theorem operand_operator {op : Operator} (hminus : op ≠ .minus) (hplus : op ≠ .plus) :
    s.operand (.operator op :: ts) = .fail (.badSyntax "EXPECTED EXPRESSION") := by
  unfold operand
  rw [readOperand] <;> simp [hminus, hplus]

theorem operand_word {cs : List Char} {f : Function}
    (h : Function.named? (String.ofList cs) = some f) :
    s.operand (.word cs :: ts) = s.argument f ts := by
  unfold operand
  rw [readOperand, h]
  simp only [Run.bind_eq, Run.andThen_assoc, Run.done_andThen, pure, argument, expression,
    afterLeft, afterRight]

theorem operand_unknown {cs : List Char} (h : Function.named? (String.ofList cs) = none) :
    s.operand (.word cs :: ts) = .fail Function.unknown := by
  unfold operand
  rw [readOperand, h]
  rfl

theorem argument_leftParen (f : Function) :
    s.argument f (.leftParen :: ts) =
      (Frame.call f).fill s (s.expression (Frame.call f).level ts) := by
  simp only [argument, afterLeft_cons, Run.done_andThen, Frame.fill, Frame.level]

end Session

/-! ## The reader and the evaluator at one point of a line -/

/-- The value of a line, if nothing is left of it. -/
def wholeLine (r : Value × List Lexeme) : Run Value :=
  if r.2.isEmpty then .done r.1 else .fail (.badSyntax "UNEXPECTED TOKEN")

/-- What the evaluator still computes where the reader stands in a line. -/
def Reader.pending (s : Session) : Reader → List Lexeme → Run (Value × List Lexeme)
  | operand fs, ts => within s fs fun strength => s.expression strength ts
  | argument f fs, ts =>
    within s fs fun strength => (s.argument f ts).andThen fun r => s.operators strength r.1 r.2
  | operator fs e, ts =>
    within s fs fun strength => (e.eval s).andThen fun v => s.operators strength v ts
  | stopped e, _ => (e.eval s).andThen fun v => .done (v, [])

/-- Where the reader goes on, the evaluator still computes the same; where it stops, the rest
of the evaluation is the value of the tree that the reader has made. -/
def Follows (s : Session) (r : Reader) (ts : List Lexeme) : Reader → List Lexeme → Prop
  | .stopped e, _ => (r.pending s ts).andThen wholeLine = e.eval s
  | r', ts' => r.pending s ts = r'.pending s ts'

section Steps

variable {s : Session} {fs : List Frame} {e : Expr} {ts : List Lexeme}

/-- A line that has gone wrong has the value of the tree with the fault in it. -/
theorem Halts.wholeLine_eq {r : Run Value} {r' : Run (Value × List Lexeme)} (h : Halts r r') :
    r'.andThen wholeLine = r := by
  calc r'.andThen wholeLine
      = (r.andThen fun v => .done (v, [])).andThen wholeLine := by rw [h]
    _ = r.andThen fun v => .done v := by
        simp only [Run.andThen_assoc, Run.done_andThen]
        rfl
    _ = r := Run.andThen_done r

/-- The line goes wrong where an operand should stand. -/
theorem wholeLine_of_missing {k : Nat → Run (Value × List Lexeme)} {g : Fault}
    (h : ∀ strength, k strength = .fail g) :
    (within s fs k).andThen wholeLine = (plugAll fs (.invalid g)).eval s := by
  apply Halts.wholeLine_eq
  apply within_of_halts
  intro strength after
  rw [h, Expr.eval, Run.fail_andThen]

/-- **The end of a line, or what cannot go on with it,** after an operand. -/
theorem wholeLine_close (hop : ∀ op, .operator op ∉ ts.head?)
    (hright : .rightParen ∈ ts.head? → (reduce 0 fs e).1 = []) :
    ((Reader.operator fs e).pending s ts).andThen wholeLine =
      (Reader.close fs e (!ts.isEmpty)).eval s := by
  have hstop : ∀ strength v, s.operators strength v ts = .done (v, ts) := by
    intro strength v
    exact s.operators_of_head hop
  have hlevel := innerLevel_reduce 0 fs e
  simp only [Reader.pending, Reader.close]
  rw [within_reduce (n := 0) fun strength v _ => hstop strength v]
  rcases hreduce : reduce 0 fs e with ⟨_ | ⟨f, frames⟩, e'⟩
  · -- nothing is open
    simp only [within, hstop, Run.andThen_assoc, Run.done_andThen, wholeLine]
    rcases ts with _ | ⟨t, ts⟩
    · exact Run.andThen_done _
    · rfl
  · rw [hreduce] at hlevel hright
    apply Halts.wholeLine_eq
    refine @within_of_halts s frames _ _ ?_
    intro strength
    simp only [hstop]
    have hopen := fill_of_open (s := s) (e := e') (Nat.le_zero.mp hlevel)
      fun hmem => absurd (hright hmem) (List.cons_ne_nil f frames)
    rw [hopen.andThen]
    exact hopen

theorem follows_opened {t : Lexeme} {f : Frame} (h : Frame.opened? t = some f) :
    Follows s (.operand fs) (t :: ts) (.operand (f :: fs)) ts := by
  simp only [Follows, Reader.pending, within, s.expression_eq, s.operand_of_opened? ts h]

/-- What a lexeme does where an operand must follow. -/
theorem follows_readOperand (t : Lexeme) :
    Follows s (.operand fs) (t :: ts) (Reader.readOperand fs t) ts := by
  have hmissing : s.operand (t :: ts) = .fail (.badSyntax "EXPECTED EXPRESSION") →
      Follows s (.operand fs) (t :: ts) (Reader.missing fs "EXPECTED EXPRESSION") ts := by
    intro h
    exact wholeLine_of_missing fun strength => by rw [s.expression_eq, h, Run.fail_andThen]
  cases t with
  | leftParen | not => exact follows_opened rfl
  | literal l =>
    simp only [Follows, Reader.pending, Reader.readOperand, s.expression_eq, s.operand_literal,
      Run.andThen_assoc, Run.done_andThen, Expr.eval]
  | text cs =>
    simp only [Follows, Reader.pending, Reader.readOperand, s.expression_eq, s.operand_text,
      Run.done_andThen, Expr.eval, pure]
  | operator op =>
    by_cases hminus : op = .minus
    · rw [hminus]
      exact follows_opened rfl
    by_cases hplus : op = .plus
    · rw [hplus]
      exact follows_opened rfl
    · have hread : Reader.readOperand fs (.operator op) =
          Reader.missing fs "EXPECTED EXPRESSION" := by
        simp [Reader.readOperand]
      rw [hread]
      exact hmissing (s.operand_operator ts hminus hplus)
  | word cs =>
    rcases hname : Function.named? (String.ofList cs) with _ | f
    · simp only [Reader.readOperand, hname]
      exact wholeLine_of_missing fun strength => by
        rw [s.expression_eq, s.operand_unknown ts hname, Run.fail_andThen]
    · simp only [Follows, Reader.pending, Reader.readOperand, hname, s.expression_eq,
        s.operand_word ts hname]
  | rightParen => exact hmissing (s.operand_rightParen ts)

/-- What a lexeme does after the name of a function. -/
theorem follows_argument (f : Function) (t : Lexeme) :
    Follows s (.argument f fs) (t :: ts) (Reader.step (.argument f fs) t) ts := by
  by_cases hleft : t = .leftParen
  · rw [hleft]
    simp only [Follows, Reader.pending, Reader.step, within, s.argument_leftParen]
  · have hstep : Reader.step (.argument f fs) t =
        Reader.missing fs "EXPECTED LEFT PARENTHESIS" := by
      simp [Reader.step]
    rw [hstep]
    exact wholeLine_of_missing fun strength => by
      rw [Session.argument, Lexeme.afterLeft_of_head (by simp [hleft]), Run.fail_andThen,
        Run.fail_andThen]

/-- An operator completes what binds tighter, and waits for its right operand. -/
theorem follows_operator (op : Operator) :
    Follows s (.operator fs e) (.operator op :: ts)
      (Reader.readOperator fs e (.operator op)) ts := by
  have hlevel := innerLevel_reduce op.precedence fs e
  have hstop : ∀ strength v, op.precedence < strength →
      s.operators strength v (.operator op :: ts) = .done (v, .operator op :: ts) := by
    intro strength v hlt
    rw [s.operators_operator, if_pos hlt]
  simp only [Follows, Reader.pending, Reader.readOperator]
  rw [within_reduce hstop]
  -- the frame around asks for no more than the operator, so the evaluator takes it
  apply within_congr
  simp only [s.operators_operator, if_neg (Nat.not_lt.mpr hlevel), Frame.fill, Frame.level,
    Run.andThen_assoc, Run.done_andThen]

theorem follows_rightParen :
    Follows s (.operator fs e) (.rightParen :: ts) (Reader.readOperator fs e .rightParen) ts := by
  have hop : ∀ op, Lexeme.operator op ∉ (Lexeme.rightParen :: ts).head? := by
    intro op hmem
    simp at hmem
  have hlevel := innerLevel_reduce 0 fs e
  rcases hreduce : reduce 0 fs e with ⟨_ | ⟨f, frames⟩, e'⟩
  · -- nothing is open that it could close
    simp only [Reader.readOperator, hreduce]
    exact wholeLine_close hop fun _ => by rw [hreduce]
  · rw [hreduce] at hlevel
    have hstop : ∀ strength v, s.operators strength v (.rightParen :: ts) =
        .done (v, .rightParen :: ts) := by
      intro strength v
      exact s.operators_of_head hop
    simp only [Follows, Reader.readOperator, hreduce, Reader.pending]
    rw [within_reduce (n := 0) fun strength v _ => hstop strength v, hreduce]
    simp only [within, hstop, fill_of_closed (Nat.le_zero.mp hlevel), Run.andThen_assoc,
      Run.done_andThen]

/-- What a lexeme does after an operand. -/
theorem follows_readOperator (t : Lexeme) :
    Follows s (.operator fs e) (t :: ts) (Reader.readOperator fs e t) ts := by
  cases t with
  | operator op => exact follows_operator op
  | rightParen => exact follows_rightParen
  | literal _ | text _ | word _ | not | leftParen => exact wholeLine_close (by simp) (by simp)

end Steps

/-! ## Whole lines -/

variable {s : Session}

/-- **One lexeme moves the reader and the evaluator alike.** -/
theorem follows_step (r : Reader) (t : Lexeme) (ts : List Lexeme) :
    Follows s r (t :: ts) (r.step t) ts := by
  cases r with
  | operand fs => exact follows_readOperand t
  | argument f fs => exact follows_argument f t
  | operator fs e => exact follows_readOperator t
  | stopped e =>
    simp only [Reader.step, Follows, Reader.pending, Run.andThen_assoc, Run.done_andThen]
    exact Run.andThen_done _

/-- At the end of the line the evaluator does what the tree does. -/
theorem wholeLine_pending_nil (r : Reader) :
    (r.pending s []).andThen wholeLine = r.finish.eval s := by
  cases r with
  | operand fs =>
    exact wholeLine_of_missing fun strength => by
      rw [s.expression_eq, s.operand_nil, Run.fail_andThen]
  | argument f fs =>
    exact wholeLine_of_missing fun strength => by
      rw [Session.argument, Lexeme.afterLeft_of_head (by simp), Run.fail_andThen, Run.fail_andThen]
  | operator fs e => exact wholeLine_close (by simp) (by simp)
  | stopped e =>
    simp only [Reader.pending, Run.andThen_assoc, Run.done_andThen]
    exact Run.andThen_done _

theorem foldl_step_stopped (ts : List Lexeme) (e : Expr) :
    ts.foldl Reader.step (.stopped e) = .stopped e := by
  induction ts with
  | nil => rfl
  | cons t ts ih => exact ih

/-- By induction along the line, from wherever the reader stands. -/
theorem wholeLine_pending (r : Reader) (ts : List Lexeme) :
    (r.pending s ts).andThen wholeLine = ((ts.foldl Reader.step r).finish).eval s := by
  induction ts generalizing r with
  | nil => exact wholeLine_pending_nil r
  | cons t ts ih =>
    have hstep := follows_step (s := s) r t ts
    rw [List.foldl_cons]
    cases hr : r.step t with
    | stopped e =>
      rw [hr] at hstep
      rw [foldl_step_stopped]
      exact hstep
    | operand _ | argument _ _ | operator _ _ =>
      rw [hr] at hstep
      rw [show r.pending s (t :: ts) = _ from hstep]
      exact ih _

/-- Where the reader comes to the end after an operand, nothing has been left on the way. -/
theorem pending_of_foldl {r : Reader} {ts : List Lexeme} {fs : List Frame} {e : Expr}
    (h : ts.foldl Reader.step r = .operator fs e) :
    r.pending s ts = (Reader.operator fs e).pending s [] := by
  induction ts generalizing r with
  | nil =>
    rw [List.foldl_nil] at h
    rw [h]
  | cons t ts ih =>
    have hstep := follows_step (s := s) r t ts
    rw [List.foldl_cons] at h
    cases hr : r.step t with
    | stopped e' =>
      rw [hr, foldl_step_stopped] at h
      exact absurd h (by simp)
    | operand _ | argument _ _ | operator _ _ =>
      rw [hr] at hstep h
      rw [show r.pending s (t :: ts) = _ from hstep]
      exact ih h

/-- **The evaluator computes the tree of the line,** which it never builds: the same value or
the same fault, and the same messages in the same order, for every list of lexemes. -/
theorem Session.wholeLine_expression (s : Session) (ts : List Lexeme) :
    (s.expression 0 ts).andThen wholeLine = (Expr.ofLexemes ts).eval s :=
  wholeLine_pending (.operand []) ts

theorem Session.evaluate_of_scanAll (s : Session) {line : String} {ts : List Lexeme}
    (h : Lexeme.scanAll line.toList = .ok ts) : s.evaluate line = (Expr.ofLexemes ts).eval s := by
  rw [← s.wholeLine_expression]
  simp only [evaluate, h]
  rfl

/-- It takes the whole line, unless an operation fails, where the reader comes to the end after
an operand and nothing is open. -/
theorem Session.expression_of_foldl (s : Session) {ts : List Lexeme} {fs : List Frame} {e : Expr}
    (h : ts.foldl Reader.step (.operand []) = .operator fs e) (hopen : (reduce 0 fs e).1 = []) :
    s.expression 0 ts = (((reduce 0 fs e).2).eval s).andThen fun v => .done (v, []) := by
  have hstop : ∀ strength v, s.operators strength v [] = .done (v, []) := by
    intro strength v
    exact s.operators_of_head (by simp)
  have hend := pending_of_foldl (s := s) h
  simp only [Reader.pending] at hend
  rw [within_reduce (n := 0) fun strength v _ => hstop strength v, hopen] at hend
  simp only [within, hstop] at hend
  exact hend

end BasicNumerics
