/-
Tolerance: what a soft session and a strict one have in common.

Evaluation reaches the session in one place, the decision `recover`, and puts the
decisions together with `andThen` alone. So a relation between runs that `andThen`
respects, and that holds between the decisions of two sessions, holds between their
evaluations of every line (`evaluate_related`). Two relations are run through that:
equality, for a suspended session beside a strict one, and `StopsWhereTold`, for a
soft session beside a strict one. The second says that the strict run is the soft run
cut off at the first thing the user is told.
-/
import BasicNumerics.Proofs.Expr.Climbing
import Mathlib.Tactic.Common

set_option autoImplicit false

namespace BasicNumerics

/-! ## Relations that runs respect -/

namespace Run

variable {α β : Type}

/-- A relation between runs of values that every way of building a run respects. -/
structure Congruence (Q : Run Value → Run Value → Prop) : Prop where
  done : ∀ v, Q (.done v) (.done v)
  fail : ∀ f, Q (.fail f) (.fail f)
  andThen : ∀ {r r' : Run Value} {k k' : Value → Run Value},
    Q r r' → (∀ v, Q (k v) (k' v)) → Q (r.andThen k) (r'.andThen k')

theorem congruence_eq : Congruence Eq where
  done _ := rfl
  fail _ := rfl
  andThen := by
    rintro r _ k k' rfl hk
    rw [show k = k' from funext hk]

/-- **The second run is the first, cut off at what is told.** Either nothing is told
and the two runs are one, or the second stops, in silence, at the fault that the first
told the user about before anything else. -/
inductive StopsWhereTold : Run α → Run α → Prop
  | quiet (result : Except Fault α) : StopsWhereTold ⟨[], result⟩ ⟨[], result⟩
  | told (f : Fault) (later : List String) (result : Except Fault α) :
      StopsWhereTold ⟨f.message :: later, result⟩ ⟨[], .error f⟩

namespace StopsWhereTold

variable {r r' : Run α}

theorem messages_eq_nil (h : StopsWhereTold r r') : r'.messages = [] := by
  cases h <;> rfl

theorem result_eq (h : StopsWhereTold r r') (hr : r.messages = []) : r.result = r'.result := by
  cases h with
  | quiet _ => rfl
  | told f later _ => exact absurd hr (List.cons_ne_nil _ _)

theorem stops {m : String} {ms : List String} (h : StopsWhereTold r r')
    (hr : r.messages = m :: ms) : ∃ f, r'.result = .error f ∧ f.message = m := by
  cases h with
  | quiet _ => exact absurd hr.symm (List.cons_ne_nil _ _)
  | told f later _ => exact ⟨f, rfl, (List.cons.inj hr).1⟩

theorem andThen {k k' : α → Run β} (h : StopsWhereTold r r')
    (hk : ∀ x, StopsWhereTold (k x) (k' x)) : StopsWhereTold (r.andThen k) (r'.andThen k') := by
  cases h with
  | quiet result =>
    cases result with
    | error f => exact quiet _
    | ok x => simpa [Run.andThen] using hk x
  | told f later result =>
    -- the first run may go on and tell more, but what it told first stays first
    cases result with
    | error _ => exact told f later _
    | ok x => exact told f (later ++ (k x).messages) _

end StopsWhereTold

theorem congruence_stopsWhereTold : Congruence StopsWhereTold where
  done v := .quiet (.ok v)
  fail f := .quiet (.error f)
  andThen := StopsWhereTold.andThen

end Run

/-! ## Two sessions on one line -/

section Related

variable {s s' : Session} {Q : Run Value → Run Value → Prop}

/-- Evaluation sees a session through its decisions and its precision only. -/
theorem Expr.eval_related (hQ : Run.Congruence Q) (hrec : ∀ o, Q (s.recover o) (s'.recover o))
    (hd : s.doubleMath = s'.doubleMath) (e : Expr) : Q (e.eval s) (e.eval s') := by
  induction e with
  | literal l => exact hrec _
  | text cs => exact hQ.done _
  | negate e ih => exact hQ.andThen ih fun v => hrec _
  | not e ih => exact hQ.andThen ih fun v => hrec _
  | binary op l r ihl ihr =>
    -- left operand, right operand, operator: the order in which either session decides
    exact hQ.andThen ihl fun x => hQ.andThen ihr fun y => hrec _
  | call f e ih =>
    refine hQ.andThen ih fun v => ?_
    unfold Session.applyFunction
    rw [hd]
    exact hrec _
  | invalid f => exact hQ.fail f
  | unfinished e f ih => exact hQ.andThen ih fun _ => hQ.fail f

theorem Session.evaluate_related (hQ : Run.Congruence Q) (hrec : ∀ o, Q (s.recover o) (s'.recover o))
    (hd : s.doubleMath = s'.doubleMath) (line : String) :
    Q (s.evaluate line) (s'.evaluate line) := by
  cases hscan : Lexeme.scanAll line.toList with
  | error f =>
    simp only [Session.evaluate, hscan]
    exact hQ.fail f
  | ok ts =>
    rw [s.evaluate_of_scanAll hscan, s'.evaluate_of_scanAll hscan]
    exact Expr.eval_related hQ hrec hd _

end Related

namespace Session

theorem recover_suspended (doubleMath : Bool) (o : Calc) :
    recover ⟨.soft true, doubleMath⟩ o = recover ⟨.strict, doubleMath⟩ o := by
  cases o <;> rfl

/-- A soft failure is where the two decisions part: one tells it, the other stops at
it. A fault has no substitute and stops both. -/
theorem recover_stopsWhereTold (doubleMath : Bool) (o : Calc) :
    Run.StopsWhereTold (recover ⟨.soft false, doubleMath⟩ o)
      (recover ⟨.strict, doubleMath⟩ o) := by
  cases o with
  | ok v => exact .quiet _
  | error e =>
    cases e with
    | overflow x => exact .told _ [] _
    | divisionByZero x => exact .told _ [] _
    | fault f => exact .quiet _

/-- **A strict session is a soft one up to the first soft failure.** On every line and
under either setting, a strict session tells nothing. If the soft session tells nothing
either, both end alike; if it tells something, the strict session stops at a fault whose
text is what was told first. A suspended session is a strict one in every respect. -/
theorem evaluate_strict_of_soft (doubleMath : Bool) (line : String) :
    ((evaluate ⟨.soft false, doubleMath⟩ line).messages = [] →
        (evaluate ⟨.soft false, doubleMath⟩ line).result =
          (evaluate ⟨.strict, doubleMath⟩ line).result) ∧
      (∀ m ms, (evaluate ⟨.soft false, doubleMath⟩ line).messages = m :: ms →
        ∃ f, (evaluate ⟨.strict, doubleMath⟩ line).result = .error f ∧ f.message = m) ∧
      evaluate ⟨.soft true, doubleMath⟩ line = evaluate ⟨.strict, doubleMath⟩ line ∧
      (evaluate ⟨.strict, doubleMath⟩ line).messages = [] := by
  have hcut : Run.StopsWhereTold (evaluate ⟨.soft false, doubleMath⟩ line)
      (evaluate ⟨.strict, doubleMath⟩ line) :=
    evaluate_related Run.congruence_stopsWhereTold (recover_stopsWhereTold doubleMath) rfl line
  have heq : evaluate ⟨.soft true, doubleMath⟩ line = evaluate ⟨.strict, doubleMath⟩ line :=
    evaluate_related Run.congruence_eq (recover_suspended doubleMath) rfl line
  exact ⟨hcut.result_eq, fun m ms => hcut.stops, heq, hcut.messages_eq_nil⟩

/-- A line on which two things are told: the strict session stops at the first. -/
theorem evaluate_strict_of_soft_twice_told :
    (evaluate ⟨.soft false, false⟩ "1/0-1E38*10").messages = ["DIVISION BY ZERO", "OVERFLOW"] ∧
      ∃ f, (evaluate ⟨.strict, false⟩ "1/0-1E38*10").result = .error f ∧
        f.message = "DIVISION BY ZERO" := by
  have htold : (evaluate ⟨.soft false, false⟩ "1/0-1E38*10").messages =
      ["DIVISION BY ZERO", "OVERFLOW"] := by
    have hscan : Lexeme.scanAll "1/0-1E38*10".toList = .ok
        [.literal ⟨.decimal .integer, ['1']⟩, .operator .divide,
          .literal ⟨.decimal .integer, ['0']⟩, .operator .minus,
          .literal ⟨.decimal (.float .single), ['1', 'E', '3', '8']⟩, .operator .multiply,
          .literal ⟨.decimal .integer, ['1', '0']⟩] := by decide +kernel
    rw [evaluate_of_scanAll _ hscan]
    decide +kernel
  exact ⟨htold, (evaluate_strict_of_soft false _).2.1 _ _ htold⟩

end Session

end BasicNumerics
