/-
Precedence: a chain is evaluated as the tree that the chain means.

The evaluator computes the tree that the reader makes (`Session.wholeLine_expression`), so what
is left is that the reader makes of every chain the tree that the chain means.

The reader decides from left to right, with a stack of pending frames, what a chain
means from right to left and by splitting. The bridge is `complete`: the tree that the
frames on the stack and the links still to be read will make, each frame taking the
longest run of operators at or above its level. Prefixes put a frame on the stack,
operators complete frames and put one on, and none of these steps changes what
`complete` says. A parenthesis is a frame of level zero, which no operator completes, so
the stack below it is out of reach until it is closed.
-/
import BasicNumerics.Proofs.Expr.Chain
import BasicNumerics.Proofs.Expr.Climbing
import Mathlib.Data.List.TakeWhile

set_option autoImplicit false

namespace BasicNumerics

/-! ## What pending frames make of a chain -/

/-- The links that go into the hole of a frame, if the hole starts them. -/
def Frame.run (f : Frame) (links : Links) : Links :=
  links.takeWhile fun x => f.level ≤ x.1.precedence

/-- The links that are left for the frames below. -/
def Frame.left (f : Frame) (links : Links) : Links :=
  links.dropWhile fun x => f.level ≤ x.1.precedence

namespace Frame

variable {f : Frame} {links : Links} {y : Operator × Expr}

theorem run_append_left (f : Frame) (links : Links) : f.run links ++ f.left links = links :=
  List.takeWhile_append_dropWhile

theorem level_le_of_mem_run (h : y ∈ f.run links) : f.level ≤ y.1.precedence := by
  have hy := List.mem_takeWhile_imp h
  rwa [decide_eq_true_eq] at hy

theorem lt_level_of_mem_head?_left (h : y ∈ (f.left links).head?) : y.1.precedence < f.level := by
  have hnot := List.head?_dropWhile_not (fun x => decide (f.level ≤ x.1.precedence)) links
  unfold left at h
  rw [Option.mem_def] at h
  rw [h] at hnot
  simpa using hnot

/-- What a frame takes of a list, all of whose first part it takes. -/
theorem run_append {first : Links} (h : ∀ x ∈ first, f.level ≤ x.1.precedence) (rest : Links) :
    f.run (first ++ rest) = first ++ f.run rest := by
  unfold run
  rw [List.takeWhile_append_of_pos]
  intro x hx
  rw [decide_eq_true_eq]
  exact h x hx

theorem left_append {first : Links} (h : ∀ x ∈ first, f.level ≤ x.1.precedence) (rest : Links) :
    f.left (first ++ rest) = f.left rest := by
  unfold left
  rw [List.dropWhile_append_of_pos]
  intro x hx
  rw [decide_eq_true_eq]
  exact h x hx

theorem mem_head?_of_mem_head?_run (h : y ∈ (f.run links).head?) : y ∈ links.head? := by
  unfold run at h
  rw [List.head?_takeWhile, Option.mem_def, Option.filter_eq_some_iff] at h
  exact h.1

end Frame

/-- The tree that pending frames, innermost first, make of an operand and the links
after it. -/
def complete : List Frame → Expr → Links → Expr
  | [], e, links => splitLoosest e links
  | f :: fs, e, links => complete fs (f.plug (splitLoosest e (f.run links))) (f.left links)

@[simp] theorem complete_nil (fs : List Frame) (e : Expr) : complete fs e [] = plugAll fs e := by
  induction fs generalizing e with
  | nil => simp [complete, plugAll]
  | cons f fs ih =>
    simp only [complete, Frame.run, Frame.left, List.takeWhile_nil, List.dropWhile_nil,
      splitLoosest_nil]
    exact ih _

/-- A frame above the operator that comes next is complete. -/
theorem complete_cons_of_lt {f : Frame} {op : Operator} (h : op.precedence < f.level)
    (fs : List Frame) (e x : Expr) (links : Links) :
    complete (f :: fs) e ((op, x) :: links) = complete fs (f.plug e) ((op, x) :: links) := by
  have hf : ¬ f.level ≤ op.precedence := Nat.not_le.mpr h
  simp [complete, Frame.run, Frame.left, hf]

/-- **An operator and the frame it becomes make the same tree**, on a stack whose top it
has not completed. -/
theorem complete_binary {fs : List Frame} {op : Operator}
    (h : innerLevel fs ≤ op.precedence) (l x : Expr) (links : Links) :
    complete (.binary l op :: fs) x links = complete fs l ((op, x) :: links) := by
  set f := Frame.binary l op with hf
  have hlevel : f.level = op.precedence + 1 := rfl
  have hrun : ∀ y ∈ f.run links, op.precedence < y.1.precedence := by
    intro y hy
    have hle := Frame.level_le_of_mem_run hy
    omega
  have htier : ∀ y ∈ f.run links, y.1.tier < op.tier := by
    intro y hy
    exact (Operator.tier_lt_iff _ _).mpr (hrun y hy)
  have hleft : ∀ y ∈ (f.left links).head?, op.tier ≤ y.1.tier := by
    intro y hy
    have hlt := Frame.lt_level_of_mem_head?_left hy
    rw [← Nat.not_lt, Operator.tier_lt_iff]
    omega
  rcases fs with _ | ⟨g, fs⟩
  · -- nothing else is pending
    have hsplit := splitLoosest_cons l x op (f.run links) (f.left links) htier hleft
    rw [Frame.run_append_left] at hsplit
    exact hsplit.symm
  · -- the frame below takes the operator too, and with it all that the operator takes
    have hg : ∀ y ∈ (op, x) :: f.run links, g.level ≤ y.1.precedence := by
      intro y hy
      rcases List.mem_cons.mp hy with rfl | hy
      · exact h
      · exact h.trans (hrun y hy).le
    have hgrun : g.run ((op, x) :: links) = (op, x) :: (f.run links ++ g.run (f.left links)) := by
      have hrw := Frame.run_append hg (f.left links)
      rwa [List.cons_append, Frame.run_append_left] at hrw
    have hgleft : g.left ((op, x) :: links) = g.left (f.left links) := by
      have hrw := Frame.left_append hg (f.left links)
      rwa [List.cons_append, Frame.run_append_left] at hrw
    -- `g` ends somewhere in what the operator leaves; up to there the split is the same
    have hsplit := splitLoosest_cons l x op (f.run links) (g.run (f.left links)) htier
      fun y hy => hleft y (Frame.mem_head?_of_mem_head?_run hy)
    simp only [complete]
    rw [hgrun, hgleft, hsplit]
    rfl

/-- Completing the frames that an operator completes does not change the tree. -/
theorem complete_reduce (op : Operator) (x : Expr) (links : Links) (fs : List Frame) (e : Expr) :
    complete fs e ((op, x) :: links) =
      complete (reduce op.precedence fs e).1 (reduce op.precedence fs e).2
        ((op, x) :: links) := by
  induction fs generalizing e with
  | nil => rfl
  | cons f fs ih =>
    unfold reduce
    by_cases hlt : op.precedence < f.level
    · rw [if_pos hlt, complete_cons_of_lt hlt]
      exact ih _
    · rw [if_neg hlt]

/-! ## Prefixes -/

/-- The frame that a prefix puts on the stack. -/
def PrefixOp.frame : PrefixOp → Frame
  | minus => .negate
  | plus => .plus
  | not => .not

theorem PrefixOp.takes_eq (q : PrefixOp) (op : Operator) :
    q.takes op = decide (q.frame.level ≤ op.precedence) := by
  rcases q with _ | _ | _ <;>
    rcases op with _ | _ | _ | _ | _ | _ | _ | _ | ⟨_ | _ | _ | _ | _⟩ <;> rfl

/-- **A prefix and its frame take the same run.** -/
theorem complete_frame (q : PrefixOp) (fs : List Frame) (chain : Expr × Links) :
    complete (q.frame :: fs) chain.1 chain.2 =
      complete fs (q.capture chain).1 (q.capture chain).2 := by
  have hplug : ∀ e, q.frame.plug e = q.wrap e := by
    intro e
    rcases q with _ | _ | _ <;> rfl
  simp only [complete, PrefixOp.capture, PrefixOp.takes_eq, hplug]
  rfl

/-- The frames of prefixes, the last of which is on top of the stack. -/
theorem complete_frames (qs : List PrefixOp) (fs : List Frame) (chain : Expr × Links) :
    complete ((qs.map PrefixOp.frame).reverse ++ fs) chain.1 chain.2 =
      complete fs (qs.foldr PrefixOp.capture chain).1 (qs.foldr PrefixOp.capture chain).2 := by
  induction qs generalizing fs with
  | nil => rfl
  | cons q qs ih =>
    rw [List.map_cons, List.reverse_cons, List.append_assoc, List.singleton_append, ih,
      complete_frame, List.foldr_cons]

theorem foldl_step_prefixes (qs : List PrefixOp) (fs : List Frame) :
    (qs.map PrefixOp.lexeme).foldl Reader.step (.operand fs) =
      .operand ((qs.map PrefixOp.frame).reverse ++ fs) := by
  induction qs generalizing fs with
  | nil => rfl
  | cons q qs ih =>
    have hstep : Reader.step (.operand fs) q.lexeme = .operand (q.frame :: fs) := by
      rcases q with _ | _ | _ <;> rfl
    rw [List.map_cons, List.foldl_cons, hstep, ih]
    simp

/-! ## Closed stacks

A stack is closed if nothing is on it, or a parenthesis on top. What is pending is what
lies above the last closed part. -/

/-- The frames that wait for an operator or for the end, and not for a parenthesis. -/
def Pending (fs : List Frame) : Prop := ∀ f ∈ fs, 0 < f.level

/-- No operator completes a frame of this stack. -/
def Closed (fs : List Frame) : Prop := ∀ f ∈ fs.head?, f.level = 0

theorem reduce_closed {base : List Frame} (h : Closed base) (n : Nat) (e : Expr) :
    reduce n base e = (base, e) := by
  rcases base with _ | ⟨f, base⟩
  · rfl
  · have hf : f.level = 0 := h f rfl
    unfold reduce
    rw [if_neg (by omega)]

/-- Completing stops at a closed part. -/
theorem reduce_append {base : List Frame} (h : Closed base) (n : Nat) (fs : List Frame)
    (e : Expr) : reduce n (fs ++ base) e = ((reduce n fs e).1 ++ base, (reduce n fs e).2) := by
  induction fs generalizing e with
  | nil => exact reduce_closed h n e
  | cons f fs ih =>
    rw [List.cons_append]
    unfold reduce
    by_cases hlt : n < f.level
    · rw [if_pos hlt, if_pos hlt, ih]
    · rw [if_neg hlt, if_neg hlt]
      rfl

theorem Pending.reduce {fs : List Frame} (h : Pending fs) (n : Nat) (e : Expr) :
    Pending (reduce n fs e).1 := by
  induction fs generalizing e with
  | nil => exact h
  | cons f fs ih =>
    unfold BasicNumerics.reduce
    by_cases hlt : n < f.level
    · rw [if_pos hlt]
      exact ih (fun g hg => h g (List.mem_cons_of_mem f hg)) _
    · rw [if_neg hlt]
      exact h

/-- The end completes all that is pending. -/
theorem reduce_zero {fs base : List Frame} (hp : Pending fs) (hc : Closed base) (e : Expr) :
    reduce 0 (fs ++ base) e = (base, plugAll fs e) := by
  induction fs generalizing e with
  | nil => exact reduce_closed hc 0 e
  | cons f fs ih =>
    rw [List.cons_append]
    unfold reduce
    rw [if_pos (hp f List.mem_cons_self), ih fun g hg => hp g (List.mem_cons_of_mem f hg)]
    rfl

theorem pending_frames {fs : List Frame} (h : Pending fs) (qs : List PrefixOp) :
    Pending ((qs.map PrefixOp.frame).reverse ++ fs) := by
  intro f hf
  rcases List.mem_append.mp hf with hf | hf
  · rw [List.mem_reverse, List.mem_map] at hf
    obtain ⟨q, -, rfl⟩ := hf
    rcases q with _ | _ | _ <;> decide
  · exact h f hf

/-! ## Reading a chain -/

/-- The reader stands after an operand: what is pending above the closed stack `base`
makes the tree `e` when the end comes. -/
def Reads (r : Reader) (base : List Frame) (e : Expr) : Prop :=
  ∃ fs x, r = .operator (fs ++ base) x ∧ Pending fs ∧ plugAll fs x = e

/-- A closing parenthesis after a chain completes the parenthesis that was opened. -/
theorem Reads.step_rightParen {r : Reader} {f : Frame} {base : List Frame} {e : Expr}
    (h : Reads r (f :: base) e) (hf : f.level = 0) :
    r.step .rightParen = .operator base (f.plug e) := by
  obtain ⟨fs, x, rfl, hp, rfl⟩ := h
  have hc : Closed (f :: base) := by
    intro g hg
    rw [List.head?_cons, Option.mem_def, Option.some.injEq] at hg
    rw [← hg, hf]
  simp only [Reader.step, Reader.readOperator, reduce_zero hp hc]

/-- An operator after an operand: what it completes and the frame it becomes make, of the
links after it, what the stack would have made of the links from the operator on. -/
theorem step_operator {base fs : List Frame} (hp : Pending fs) (hc : Closed base) (op : Operator)
    (e : Expr) :
    ∃ fs', Reader.step (.operator (fs ++ base) e) (.operator op) = .operand (fs' ++ base) ∧
      Pending fs' ∧ ∀ x links, complete fs' x links = complete fs e ((op, x) :: links) := by
  -- what is left of the stack, with the operator on top of it
  refine ⟨.binary (reduce op.precedence fs e).2 op :: (reduce op.precedence fs e).1, ?_, ?_, ?_⟩
  · simp only [Reader.step, Reader.readOperator, reduce_append hc, List.cons_append]
  · intro f hf
    rcases List.mem_cons.mp hf with rfl | hf
    · exact Nat.succ_pos _
    · exact hp.reduce _ e f hf
  · intro x links
    rw [complete_binary (innerLevel_reduce op.precedence fs e), ← complete_reduce]

mutual

/-- An operand is read onto any stack, and leaves it as it was. -/
theorem Primary.foldl_step (p : Primary) (fs : List Frame) :
    p.lexemes.foldl Reader.step (.operand fs) = .operator fs p.tree := by
  match p with
  | .literal l => rfl
  | .text cs => rfl
  | .paren c =>
    -- the parenthesis closes the stack below, so the content starts with nothing pending
    have hread := c.reads [] (.paren :: fs) (by simp [Pending]) (by simp [Closed, Frame.level])
    rw [Primary.lexemes, List.foldl_cons, List.foldl_append]
    exact hread.step_rightParen rfl
  | .call f c =>
    have hread := c.reads [] (.call f :: fs) (by simp [Pending]) (by simp [Closed, Frame.level])
    have hname : Reader.step (.operand fs) (.word f.name.toList) = .argument f fs := by
      simp [Reader.step, Reader.readOperand]
    rw [Primary.lexemes, List.foldl_cons, hname, List.foldl_cons, List.foldl_append]
    exact hread.step_rightParen rfl

/-- **Reading a chain makes what the pending frames make of it.** -/
theorem Chain.reads (c : Chain) (fs base : List Frame) (hp : Pending fs) (hc : Closed base) :
    Reads (c.lexemes.foldl Reader.step (.operand (fs ++ base))) base
      (complete fs c.captured.1 c.captured.2) := by
  match c with
  | .last qs p =>
    refine ⟨(qs.map PrefixOp.frame).reverse ++ fs, p.tree, ?_, pending_frames hp qs, ?_⟩
    · rw [Chain.lexemes, List.foldl_append, foldl_step_prefixes, p.foldl_step, List.append_assoc]
    · rw [Chain.captured, ← complete_frames, complete_nil]
  | .link qs p op rest =>
    -- prefixes, operand and operator of the first link; the rest by induction
    obtain ⟨fs', hstep, hp', hsame⟩ := step_operator (pending_frames hp qs) hc op p.tree
    rw [List.append_assoc] at hstep
    have hread := rest.reads fs' base hp' hc
    rw [hsame] at hread
    rw [Chain.lexemes, List.foldl_append, foldl_step_prefixes, List.foldl_append, p.foldl_step,
      List.foldl_cons, hstep, Chain.captured, ← complete_frames]
    exact hread

end

/-- The reader takes all the lexemes of a chain and ends after an operand, with nothing open
and nothing pending but what makes the tree. -/
theorem Chain.foldl_step (c : Chain) :
    ∃ fs e, c.lexemes.foldl Reader.step (.operand []) = .operator fs e ∧
      reduce 0 fs e = ([], c.tree) := by
  obtain ⟨fs, e, hread, hp, htree⟩ := c.reads [] [] (by simp [Pending]) (by simp [Closed])
  rw [List.append_nil, List.append_nil] at hread
  refine ⟨fs, e, hread, ?_⟩
  have hzero := reduce_zero hp (show Closed [] by simp [Closed]) e
  rw [List.append_nil] at hzero
  rw [hzero, htree]
  rfl

theorem ofLexemes_chain (c : Chain) : Expr.ofLexemes c.lexemes = c.tree := by
  obtain ⟨fs, e, hread, hreduce⟩ := c.foldl_step
  unfold Expr.ofLexemes
  rw [hread, Reader.finish, Reader.close, hreduce]
  rfl

/-- **Evaluation gives every chain its meaning.** Computing while it reads, with a strength to
ask for and no tree, the evaluator does on the lexemes of a chain what evaluating the tree of
the chain does, left operand first, then the right one, then the operator: it comes to the same
value or the same fault, tells the same messages in the same order, and leaves nothing of the
lexemes unless an operation fails. So a line that holds the chain has the value of the tree. -/
theorem expression_chain (c : Chain) (s : Session) :
    s.expression 0 c.lexemes = ((c.tree.eval s).andThen fun v => .done (v, [])) ∧
      ∀ line : String, Lexeme.scanAll line.toList = .ok c.lexemes →
        s.evaluate line = c.tree.eval s := by
  obtain ⟨fs, e, hread, hreduce⟩ := c.foldl_step
  refine ⟨?_, ?_⟩
  · rw [s.expression_of_foldl hread (by rw [hreduce]), hreduce]
  · intro line hscan
    rw [s.evaluate_of_scanAll hscan, ofLexemes_chain]

/-- Prefixes of both sorts inside tighter contexts: the sign takes the power after it,
and NOT the comparison. -/
theorem expression_chain_prefixes_inside :
    ∃ c : Chain, Lexeme.scanAll "2^-1^2+NOT 2=3".toList = .ok c.lexemes ∧
      Session.evaluate ⟨.strict, false⟩ "2^-1^2+NOT 2=3" =
        (Expr.binary .plus
          (.binary .power (.literal ⟨.decimal .integer, ['2']⟩)
            (.negate (.binary .power (.literal ⟨.decimal .integer, ['1']⟩)
              (.literal ⟨.decimal .integer, ['2']⟩))))
          (.not (.binary (.relation .equal) (.literal ⟨.decimal .integer, ['2']⟩)
            (.literal ⟨.decimal .integer, ['3']⟩)))).eval ⟨.strict, false⟩ := by
  have hscan : Lexeme.scanAll "2^-1^2+NOT 2=3".toList = .ok (Chain.lexemes
      (.link [] (.literal ⟨.decimal .integer, ['2']⟩) .power
        (.link [.minus] (.literal ⟨.decimal .integer, ['1']⟩) .power
          (.link [] (.literal ⟨.decimal .integer, ['2']⟩) .plus
            (.link [.not] (.literal ⟨.decimal .integer, ['2']⟩) (.relation .equal)
              (.last [] (.literal ⟨.decimal .integer, ['3']⟩))))))) := by
    decide +kernel
  refine ⟨_, hscan, ?_⟩
  rw [(expression_chain _ _).2 _ hscan]
  exact congrArg (Expr.eval _) (by decide +kernel)

end BasicNumerics
