/-
The order of numbers of different kinds.

Two numbers are compared in the higher of their kinds. Every kind holds the numbers of
the kinds below it exactly: a sixteen-bit word fits the significand of either precision,
and widening a single keeps all its bits. So bringing two operands together changes
neither of the numbers they stand for (`promote_worth`), and what is left is the order
within one kind. Comparison is therefore the order of the rationals, and has its laws
across kinds as well.
-/
import BasicNumerics.Proofs.Floating.Exact
import BasicNumerics.Value.Operator
import Mathlib.Data.Rat.Cast.Order

set_option autoImplicit false

namespace BasicNumerics

/-! ## Operands keep their worth -/

/-- A word is worth the same as a floating-point value. -/
theorem Integer.exact_toFloating (p : Precision) (n : Integer) :
    (n.toFloating p).exact = n.toInt .signed := by
  have hlo : -2 ^ 15 ≤ n.word.toInt := n.word.le_toInt
  have hhi : n.word.toInt < 2 ^ 15 := n.word.toInt_lt
  have hfit : (n.toInt .signed).natAbs < 2 ^ p.manBits := by
    have h16 : 2 ^ 16 ≤ 2 ^ p.manBits := by cases p <;> decide
    show n.word.toInt.natAbs < 2 ^ p.manBits
    omega
  exact Floating.exact_ofInt hfit

/-- The numbers that a pair of operands stands for; strings stand for none. -/
def Pair.worth? : Pair → Option (ℚ × ℚ)
  | integers n m => some (n.toInt .signed, m.toInt .signed)
  | floats _ x y => some (x.exact, y.exact)
  | strings _ _ => none

namespace Value

/-- The number that a value stands for; a string stands for none. -/
def worth? : Value → Option ℚ
  | integer n => some (n.toInt .signed)
  | float _ x => some x.exact
  | string _ => none

variable {a b c : Value} {q r t : ℚ}

/-- **Operands meet without loss:** the pair is worth what the two values are. -/
theorem promote_worth (ha : a.worth? = some q) (hb : b.worth? = some r) :
    ∃ pair, Pair.promote a b = .ok pair ∧ pair.worth? = some (q, r) := by
  cases a with
  | string s => exact absurd ha (by simp [worth?])
  | integer n =>
    rw [worth?, Option.some.injEq] at ha
    cases b with
    | string s => exact absurd hb (by simp [worth?])
    | integer m =>
      rw [worth?, Option.some.injEq] at hb
      exact ⟨_, rfl, by rw [Pair.worth?, ha, hb]⟩
    | float p y =>
      rw [worth?, Option.some.injEq] at hb
      exact ⟨_, rfl, by rw [Pair.worth?, Integer.exact_toFloating, ha, hb]⟩
  | float p x =>
    rw [worth?, Option.some.injEq] at ha
    cases b with
    | string s => exact absurd hb (by simp [worth?])
    | integer m =>
      rw [worth?, Option.some.injEq] at hb
      refine ⟨.floats p x (m.toFloating p), by cases p <;> rfl, ?_⟩
      rw [Pair.worth?, Integer.exact_toFloating, ha, hb]
    | float p' y =>
      rw [worth?, Option.some.injEq] at hb
      -- only a single beside a double is widened
      cases p with
      | single =>
        cases p' with
        | single => exact ⟨_, rfl, by rw [Pair.worth?, ha, hb]⟩
        | double => exact ⟨_, rfl, by rw [Pair.worth?, Floating.exact_widen, ha, hb]⟩
      | double =>
        cases p' with
        | single => exact ⟨_, rfl, by rw [Pair.worth?, Floating.exact_widen, ha, hb]⟩
        | double => exact ⟨_, rfl, by rw [Pair.worth?, ha, hb]⟩

/-! ## Comparison -/

/-- **Two numbers of any kinds are compared as rationals.** -/
theorem compare_of_worth (ha : a.worth? = some q) (hb : b.worth? = some r) :
    a.compare b = .ok (cmp q r) := by
  obtain ⟨pair, hpair, hexact⟩ := promote_worth ha hb
  rw [compare, hpair]
  cases pair with
  | strings s t => exact absurd hexact (by simp [Pair.worth?])
  | integers n m =>
    rw [Pair.worth?, Option.some.injEq, Prod.mk.injEq] at hexact
    rw [← hexact.1, ← hexact.2, Int.cast_strictMono.cmp_map_eq, cmp_eq_compare]
    rfl
  | floats p x y =>
    rw [Pair.worth?, Option.some.injEq, Prod.mk.injEq] at hexact
    rw [← hexact.1, ← hexact.2, ← Floating.compare_eq_cmp]

/-- Comparison answers, and the answer is not that the first is greater. -/
def AtMost (a b : Value) : Prop := ∃ o, a.compare b = .ok o ∧ o ≠ .gt

theorem atMost_iff (ha : a.worth? = some q) (hb : b.worth? = some r) : a.AtMost b ↔ q ≤ r := by
  have hcmp := compare_of_worth ha hb
  constructor
  · rintro ⟨o, ho, hne⟩
    rw [hcmp, Except.ok.injEq] at ho
    by_contra hlt
    exact hne (ho ▸ (cmp_eq_gt_iff q r).mpr (not_le.mp hlt))
  · intro hle
    refine ⟨cmp q r, hcmp, ?_⟩
    intro hgt
    have := (cmp_eq_gt_iff q r).mp hgt
    linarith

/-- **Comparison is the order of exact values, across kinds.** Two numbers, each an
integer, a single or a double with any bits behind a zero exponent, are always compared,
and the answer is the order of the rationals they stand for. So comparison is reflexive,
antisymmetric and transitive whatever kinds meet in it. -/
theorem compare_eq_cmp_of_worth? (ha : a.worth? = some q) (hb : b.worth? = some r)
    (hc : c.worth? = some t) :
    a.compare b = .ok (cmp q r) ∧ a.compare a = .ok .eq ∧
      (a.AtMost b → b.AtMost a → a.compare b = .ok .eq) ∧
      (a.AtMost b → b.AtMost c → a.AtMost c) := by
  refine ⟨compare_of_worth ha hb, ?_, ?_, ?_⟩
  · rw [compare_of_worth ha ha, cmp_self_eq_eq]
  · intro hab hba
    rw [atMost_iff ha hb] at hab
    rw [atMost_iff hb ha] at hba
    rw [compare_of_worth ha hb, (cmp_eq_eq_iff q r).mpr (le_antisymm hab hba)]
  · intro hab hbc
    rw [atMost_iff ha hb] at hab
    rw [atMost_iff hb hc] at hbc
    exact (atMost_iff ha hc).mpr (hab.trans hbc)

/-- A word, a zero with every other bit set, and the least double above one: three kinds
in a row. -/
theorem compare_eq_cmp_of_worth?_three_kinds :
    let a : Value := integer ⟨1⟩
    let b : Value := float .single (.ofWord 0xFFFFFF)
    let c : Value := float .double ⟨false, 1, 129, by decide, by decide⟩
    a.worth? = some 1 ∧ b.worth? = some 0 ∧ c.worth? = some (1 + 1 / 2 ^ 55) ∧
      a.compare b = .ok .gt ∧ a.compare c = .ok .lt := by
  intro a b c
  have ha : a.worth? = some 1 := by
    have hword : (1 : BitVec 16).toInt = 1 := by decide
    show some (((1 : BitVec 16).toInt : ℤ) : ℚ) = some 1
    rw [hword, Int.cast_one]
  have hb : b.worth? = some 0 := by
    show some (Floating.exact (Floating.ofWord 0xFFFFFF : Single)) = some 0
    rw [Floating.exact_of_isZero (by decide)]
  have hc : c.worth? = some (1 + 1 / 2 ^ 55) := by
    show some (Floating.exact (⟨false, 1, 129, by decide, by decide⟩ : Double)) = _
    norm_num [Floating.exact, Floating.isZero, Floating.significand, Precision.manBits]
  refine ⟨ha, hb, hc, ?_, ?_⟩
  · rw [(compare_eq_cmp_of_worth? ha hb hc).1, (cmp_eq_gt_iff _ _).mpr (by norm_num)]
  · rw [(compare_eq_cmp_of_worth? ha hc hb).1, (cmp_eq_lt_iff _ _).mpr (by norm_num)]

end Value

end BasicNumerics
