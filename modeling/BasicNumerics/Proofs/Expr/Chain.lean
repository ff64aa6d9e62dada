/-
Chains: expressions as they are written, and the tree each one means.

A chain is a run of operands with an operator between any two, and every operand may
have signs and NOTs before it. What it means is said here without a reader, in two
passes over the whole chain. The first goes from right to left and lets every prefix
take the longest run of operators that it may take; the second splits what is left at
the last of its loosest operators, and goes on in both parts.

`splitLoosest_cons` is what makes a reader from left to right possible: the first
operator of a chain can be applied as soon as the run of tighter ones after it is over,
whatever follows.
-/
import BasicNumerics.Expr.Basic
import BasicNumerics.Expr.Lexeme
import Mathlib.Tactic.Common

set_option autoImplicit false

namespace BasicNumerics

/-! ## How tightly operators bind -/

/-- The place of an operator in the list of the operators, tightest first. -/
def Operator.tier : Operator → Nat
  | power => 0
  | multiply | divide => 1
  | divideInt => 2
  | modulus => 3
  | plus | minus => 4
  | relation _ => 5
  | logical .and => 6
  | logical .or => 7
  | logical .xor => 8
  | logical .eqv => 9
  | logical .imp => 10

/-- The precedences order the operators as the tiers do. -/
theorem Operator.tier_lt_iff (a b : Operator) : a.tier < b.tier ↔ b.precedence < a.precedence := by
  rcases a with _ | _ | _ | _ | _ | _ | _ | _ | ⟨_ | _ | _ | _ | _⟩ <;>
    rcases b with _ | _ | _ | _ | _ | _ | _ | _ | ⟨_ | _ | _ | _ | _⟩ <;>
      simp [tier, precedence]

/-- What may stand before an operand. -/
inductive PrefixOp where
  | minus
  | plus
  | not
deriving DecidableEq, Repr

namespace PrefixOp

def lexeme : PrefixOp → Lexeme
  | minus => .operator .minus
  | plus => .operator .plus
  | not => .not

/-- Which operators belong to the operand of a prefix: powers to a sign, and to NOT
all operators down to the comparisons. -/
def takes : PrefixOp → Operator → Bool
  | minus, op | plus, op => op = .power
  | not, op => op.tier ≤ (Operator.relation .equal).tier

def wrap : PrefixOp → Expr → Expr
  | minus, e => .negate e
  | plus, e => e
  | not, e => .not e

end PrefixOp

/-! ## Splitting at the loosest operator -/

/-- An operand followed by these is a chain without prefixes. -/
abbrev Links : Type := List (Operator × Expr)

/-- The last of the loosest operators, with what stands before it and after it. -/
def Links.cut : Links → Option (Links × (Operator × Expr) × Links)
  | [] => none
  | x :: rest =>
    match cut rest with
    | none => some ([], x, [])
    | some (before, y, after) =>
      if y.1.tier < x.1.tier then some ([], x, rest) else some (x :: before, y, after)

namespace Links

theorem cut_eq_none_iff {links : Links} : links.cut = none ↔ links = [] := by
  cases links with
  | nil => simp [cut]
  | cons x rest =>
    unfold cut
    split
    · simp
    · split <;> simp

/-- **What is cut is the last of the loosest.** -/
theorem of_cut {links before after : Links} {x : Operator × Expr}
    (h : links.cut = some (before, x, after)) :
    links = before ++ x :: after ∧ (∀ y ∈ before, y.1.tier ≤ x.1.tier) ∧
      ∀ y ∈ after, y.1.tier < x.1.tier := by
  induction links generalizing before x after with
  | nil => exact absurd h (by simp [cut])
  | cons z rest ih =>
    unfold cut at h
    split at h
    · next hrest =>
      simp only [Option.some.injEq, Prod.mk.injEq] at h
      obtain ⟨rfl, rfl, rfl⟩ := h
      simp [cut_eq_none_iff.mp hrest]
    · next b y a hrest =>
      obtain ⟨hlist, hb, ha⟩ := ih hrest
      split at h
      · next hlt =>
        -- the first is looser than the loosest of the rest
        simp only [Option.some.injEq, Prod.mk.injEq] at h
        obtain ⟨rfl, rfl, rfl⟩ := h
        refine ⟨rfl, by simp, ?_⟩
        intro w hw
        rw [hlist, List.mem_append, List.mem_cons] at hw
        rcases hw with hw | rfl | hw
        · exact Nat.lt_of_le_of_lt (hb w hw) hlt
        · exact hlt
        · exact Nat.lt_trans (ha w hw) hlt
      · next hle =>
        simp only [Option.some.injEq, Prod.mk.injEq] at h
        obtain ⟨rfl, rfl, rfl⟩ := h
        refine ⟨by rw [hlist]; rfl, ?_, ha⟩
        intro w hw
        rcases List.mem_cons.mp hw with rfl | hw
        · exact Nat.le_of_not_lt hle
        · exact hb w hw

/-- Nothing else is the last of the loosest. -/
theorem cut_append {before after : Links} {x : Operator × Expr}
    (hb : ∀ y ∈ before, y.1.tier ≤ x.1.tier) (ha : ∀ y ∈ after, y.1.tier < x.1.tier) :
    cut (before ++ x :: after) = some (before, x, after) := by
  induction before with
  | nil =>
    simp only [List.nil_append, cut]
    split
    · next hnone => rw [cut_eq_none_iff.mp hnone]
    · next b y a hcut =>
      have hy : y ∈ after := by rw [(of_cut hcut).1]; simp
      rw [if_pos (ha y hy)]
  | cons z before ih =>
    have hz : z.1.tier ≤ x.1.tier := hb z (by simp)
    simp only [List.cons_append, cut, ih fun y hy => hb y (by simp [hy])]
    rw [if_neg (Nat.not_lt.mpr hz)]

theorem length_of_cut {links before after : Links} {x : Operator × Expr}
    (h : links.cut = some (before, x, after)) :
    before.length < links.length ∧ after.length < links.length := by
  rw [(of_cut h).1, List.length_append, List.length_cons]
  omega

end Links

/-- The tree of an operand and the links after it: the last of the loosest operators is
at the top, and both its sides are trees of the same sort. -/
def splitLoosest (e : Expr) (links : Links) : Expr :=
  match h : links.cut with
  | none => e
  | some (before, x, after) =>
    have := Links.length_of_cut h
    .binary x.1 (splitLoosest e before) (splitLoosest x.2 after)
termination_by links.length

@[simp] theorem splitLoosest_nil (e : Expr) : splitLoosest e [] = e := by
  rw [splitLoosest]
  rfl

theorem splitLoosest_append {before after : Links} {x : Operator × Expr} (e : Expr)
    (hb : ∀ y ∈ before, y.1.tier ≤ x.1.tier) (ha : ∀ y ∈ after, y.1.tier < x.1.tier) :
    splitLoosest e (before ++ x :: after) =
      .binary x.1 (splitLoosest e before) (splitLoosest x.2 after) := by
  rw [splitLoosest]
  split
  · next hnone => exact absurd (Links.cut_eq_none_iff.mp hnone) (by simp)
  · next b y a hcut =>
    rw [Links.cut_append hb ha] at hcut
    simp only [Option.some.injEq, Prod.mk.injEq] at hcut
    obtain ⟨rfl, rfl, rfl⟩ := hcut
    rfl

/-- **The first operator applies to the run of tighter ones after it.** What follows
that run, if anything does, starts with an operator that is no tighter, and splits as if
the first operator and its operands had been one operand from the start. -/
theorem splitLoosest_cons (l x : Expr) (op : Operator) (run rest : Links)
    (hrun : ∀ y ∈ run, y.1.tier < op.tier) (hrest : ∀ y ∈ rest.head?, op.tier ≤ y.1.tier) :
    splitLoosest l ((op, x) :: (run ++ rest)) =
      splitLoosest (.binary op l (splitLoosest x run)) rest := by
  -- on the length of the rest: its loosest operator is at the top on both sides
  induction hn : rest.length using Nat.strongRecOn generalizing rest with
  | ind n ih =>
  cases hcut : Links.cut rest with
  | none =>
    obtain rfl := Links.cut_eq_none_iff.mp hcut
    have htop : splitLoosest l ([] ++ (op, x) :: run) =
        .binary op (splitLoosest l []) (splitLoosest x run) :=
      splitLoosest_append l (by simp) hrun
    simpa using htop
  | some found =>
    obtain ⟨before, y, after⟩ := found
    obtain ⟨rfl, hb, ha⟩ := Links.of_cut hcut
    -- the head of the rest is no tighter than `op`, and `y` no tighter than the head
    have hop : op.tier ≤ y.1.tier := by
      cases before with
      | nil => exact hrest y (by simp)
      | cons z before => exact Nat.le_trans (hrest z (by simp)) (hb z (by simp))
    have hbefore : ∀ z ∈ (op, x) :: (run ++ before), z.1.tier ≤ y.1.tier := by
      intro z hz
      rcases List.mem_cons.mp hz with rfl | hz
      · exact hop
      rcases List.mem_append.mp hz with hz | hz
      · exact Nat.le_trans (Nat.le_of_lt (hrun z hz)) hop
      · exact hb z hz
    have hhead : ∀ z ∈ before.head?, op.tier ≤ z.1.tier := by
      cases before with
      | nil => simp
      | cons z before => simpa using hrest
    have hlen : before.length < n := by
      rw [← hn, List.length_append, List.length_cons]
      omega
    calc splitLoosest l ((op, x) :: (run ++ (before ++ y :: after)))
        = splitLoosest l (((op, x) :: (run ++ before)) ++ y :: after) := by simp
      _ = .binary y.1 (splitLoosest l ((op, x) :: (run ++ before))) (splitLoosest y.2 after) :=
          splitLoosest_append l hbefore ha
      _ = .binary y.1 (splitLoosest (.binary op l (splitLoosest x run)) before)
            (splitLoosest y.2 after) := by rw [ih _ hlen before hhead rfl]
      _ = splitLoosest (.binary op l (splitLoosest x run)) (before ++ y :: after) :=
          (splitLoosest_append _ hb ha).symm

/-! ## Chains -/

mutual

/-- An operand without what stands before it. -/
inductive Primary where
  | literal (l : Literal)
  | text (cs : List Char)
  | paren (c : Chain)
  | call (f : Function) (c : Chain)

/-- Operands with their prefixes, outermost first, and an operator between any two. -/
inductive Chain where
  | last (prefixes : List PrefixOp) (p : Primary)
  | link (prefixes : List PrefixOp) (p : Primary) (op : Operator) (rest : Chain)

end

mutual

/-- How an operand is written. -/
def Primary.lexemes : Primary → List Lexeme
  | .literal l => [.literal l]
  | .text cs => [.text cs]
  | .paren c => .leftParen :: (c.lexemes ++ [.rightParen])
  | .call f c => .word f.name.toList :: .leftParen :: (c.lexemes ++ [.rightParen])

/-- How a chain is written. -/
def Chain.lexemes : Chain → List Lexeme
  | .last prefixes p => prefixes.map PrefixOp.lexeme ++ p.lexemes
  | .link prefixes p op rest =>
    prefixes.map PrefixOp.lexeme ++ (p.lexemes ++ .operator op :: rest.lexemes)

end

/-- A prefix makes one operand of the operand after it and the longest run of operators
that it takes. -/
def PrefixOp.capture (q : PrefixOp) (chain : Expr × Links) : Expr × Links :=
  (q.wrap (splitLoosest chain.1 (chain.2.takeWhile fun x => q.takes x.1)),
    chain.2.dropWhile fun x => q.takes x.1)

mutual

/-- What an operand means. -/
def Primary.tree : Primary → Expr
  | .literal l => .literal l
  | .text cs => .text cs
  | .paren c => splitLoosest c.captured.1 c.captured.2
  | .call f c => .call f (splitLoosest c.captured.1 c.captured.2)

/-- The chain without prefixes that is left when every prefix, the rightmost first, has
taken what it takes. -/
def Chain.captured : Chain → Expr × Links
  | .last prefixes p => prefixes.foldr PrefixOp.capture (p.tree, [])
  | .link prefixes p op rest =>
    prefixes.foldr PrefixOp.capture (p.tree, (op, rest.captured.1) :: rest.captured.2)

end

/-- What a chain means. -/
def Chain.tree (c : Chain) : Expr := splitLoosest c.captured.1 c.captured.2

end BasicNumerics
