/-
Operands that change places.

A sum and a product are the same to the last bit whichever operand comes first, also where
they overflow and where an underflow leaves bits behind a zero exponent; a difference turns
into its opposite. The adder is not written that way: it tells its operands apart by the
exponent, and by their places where the exponents are equal. But at equal exponents nothing is
moved and nothing is cut, so the places only decide the sign of a difference of equal
significands, and that is stored as the clear zero (`pack_addOrdered_swap`). For differences
there is one fact more: turning both signs turns the sign of a sum (`add_negate`), so the
difference the other way round is the opposite of the same working value.

Among integers the range is not symmetric: `-32768` is a word and `32768` is not. One
difference may then be a word where the other goes on as a single, and still each is the
opposite of the other as a number.
-/
import BasicNumerics.Proofs.Register.Refinement
import BasicNumerics.Proofs.Value.Order

set_option autoImplicit false

namespace BasicNumerics

namespace Scratch

variable {p : Precision} {d l r : Scratch p}

/-! ## Sums -/

/-- At one exponent it does not matter which operand is taken for the larger one. -/
theorem pack_addOrdered_swap (h : l.exp = r.exp) :
    (addOrdered l r).pack = (addOrdered r l).pack := by
  obtain ⟨e, m, s⟩ := l
  obtain ⟨e', n, t⟩ := r
  obtain rfl : e = e' := h
  simp only [addOrdered, sub_self, Int.toNat_zero, pow_zero, Nat.div_one, Nat.mod_one,
    bne_self_eq_false]
  by_cases hneg : s = t
  · subst hneg
    rw [if_pos rfl, if_pos rfl, joinMan, joinMan, Nat.add_comm]
  · rw [if_neg hneg, if_neg (Ne.symm hneg)]
    rcases Nat.lt_trichotomy m n with hlt | rfl | hgt
    · rw [if_pos hlt.le, if_neg (by omega)]
    · -- equal significands cancel, and nothing is stored of the sign
      rw [if_pos le_rfl, if_pos le_rfl, Nat.sub_self]
      rw [pack_of_vanishes rfl, pack_of_vanishes rfl]
    · rw [if_neg (by omega), if_pos hgt.le]

/-- **A sum is stored the same in either order.** -/
theorem pack_add_comm (l r : Scratch p) : (l.add r).pack = (r.add l).pack := by
  unfold add
  by_cases hr : r.exp = 0
  · by_cases hl : l.exp = 0
    · rw [if_pos hr, if_pos hl, pack_of_exp_eq_zero hl, pack_of_exp_eq_zero hr]
    · rw [if_pos hr, if_neg hl, if_pos hr]
  · by_cases hl : l.exp = 0
    · rw [if_neg hr, if_pos hl, if_pos hl]
    · rw [if_neg hr, if_neg hl, if_neg hl, if_neg hr]
      rcases lt_trichotomy l.exp r.exp with hlt | heq | hgt
      · rw [if_neg (by omega), if_pos hlt]
      · rw [if_neg (by omega), if_neg (by omega), pack_addOrdered_swap heq]
      · rw [if_pos hgt, if_neg (by omega)]

@[simp] theorem negate_negate (d : Scratch p) : d.negate.negate = d := by
  rw [negate, negate, Bool.not_not]

theorem addOrdered_negate (small large : Scratch p) :
    addOrdered small.negate large.negate = (addOrdered small large).negate := by
  obtain ⟨e, m, s⟩ := small
  obtain ⟨e', n, t⟩ := large
  show addOrdered ⟨e, m, !s⟩ ⟨e', n, !t⟩ = (addOrdered ⟨e, m, s⟩ ⟨e', n, t⟩).negate
  simp only [addOrdered, Bool.not_inj_iff]
  by_cases hneg : s = t
  · rw [if_pos hneg, if_pos hneg]
    rfl
  · rw [if_neg hneg, if_neg hneg]
    by_cases hle : m / 2 ^ (e' - e).toNat ≤ n
    · rw [if_pos hle, if_pos hle]
      rfl
    · rw [if_neg hle, if_neg hle]
      rfl

/-- **Turning both signs turns the sign of the sum,** and changes nothing else. -/
theorem add_negate (l r : Scratch p) : l.negate.add r.negate = (l.add r).negate := by
  have hl : l.negate.exp = l.exp := rfl
  have hr : r.negate.exp = r.exp := rfl
  simp only [add, hl, hr, addOrdered_negate]
  rw [apply_ite negate, apply_ite negate, apply_ite negate]

/-- What is stored for a working value and for its opposite: opposite numbers, or overflows
with opposite signs. -/
theorem pack_negate (d : Scratch p) :
    (∃ x y : Floating p, d.pack = .ok x ∧ d.negate.pack = .ok y ∧ x.exact = -y.exact) ∨
      d.pack = .error (.overflow (.max d.neg)) ∧
        d.negate.pack = .error (.overflow (.max !d.neg)) := by
  by_cases hv : d.vanishes = true
  · -- the clear zero has no opposite sign, and needs none
    refine Or.inl ⟨.zero, .zero, pack_of_vanishes hv, pack_of_vanishes hv, ?_⟩
    rw [Floating.exact_of_isZero rfl, neg_zero]
  · rw [Bool.not_eq_true] at hv
    have hover : d.negate.overflows = d.overflows := by
      have hround : d.negate.align.round = d.align.round := by rw [align_negate]; rfl
      rw [overflows, overflows, hround]
      rfl
    by_cases ho : d.overflows = true
    · right
      rw [pack, pack, hover, if_pos ho, if_pos ho, saturate_negate hv, saturate_of_overflows ho]
      exact ⟨rfl, rfl⟩
    · left
      rw [pack, pack, hover, if_neg ho, if_neg ho, saturate_negate hv]
      exact ⟨_, _, rfl, rfl, by rw [Floating.exact_negate, neg_neg]⟩

/-! ## Products -/

protected theorem mul_comm (l r : Scratch p) : l.mul r = r.mul l := by
  simp only [mul, Nat.mul_comm l.man, Int.add_comm l.exp, bne_comm (a := l.neg)]

end Scratch

namespace Floating

variable {p : Precision}

protected theorem add_comm (x y : Floating p) : x.add y = y.add x := Scratch.pack_add_comm _ _

protected theorem mul_comm (x y : Floating p) : x.mul y = y.mul x := by
  rw [mul, mul, Bool.or_comm, Scratch.mul_comm]

/-- **A difference and the one the other way round** are opposite numbers, or overflows with
opposite signs. -/
theorem sub_swap (x y : Floating p) :
    (∃ z w : Floating p, x.sub y = .ok z ∧ y.sub x = .ok w ∧ z.exact = -w.exact) ∨
      ∃ neg, x.sub y = .error (.overflow (.max neg)) ∧
        y.sub x = .error (.overflow (.max !neg)) := by
  -- both are stored from one working sum, the second with its sign turned
  have hback : y.sub x = (x.unpack.add y.unpack.negate).negate.pack := by
    rw [sub, Scratch.pack_add_comm, ← Scratch.add_negate, Scratch.negate_negate]
  rw [hback, sub]
  rcases (x.unpack.add y.unpack.negate).pack_negate with h | h
  · exact Or.inl h
  · exact Or.inr ⟨_, h⟩

end Floating

/-! ## Operands of two kinds -/

/-- The operands in the other order. -/
def Pair.swap : Pair → Pair
  | integers n m => integers m n
  | floats p x y => floats p y x
  | strings s t => strings t s

/-- **Operands meet in the same kind in either order.** -/
theorem Pair.promote_swap (a b : Value) : Pair.promote b a = (Pair.promote a b).map Pair.swap := by
  rcases a with n | ⟨_ | _, x⟩ | s <;> rcases b with m | ⟨_ | _, y⟩ | t <;> rfl

namespace Value

variable {a b v : Value} {q r : ℚ}

/-- An operation that does not depend on the order of its operands in any kind of number does
not depend on it across kinds. -/
theorem arithmetic_comm {onWords : Integer → Integer → Except Fault Integer} {exact : ℤ → ℤ → ℤ}
    {onFloats : (p : Precision) → Floating p → Floating p → Outcome (Floating p) (Floating p)}
    {onStrings : String → String → Calc} (hwords : ∀ n m, onWords n m = onWords m n)
    (hexact : ∀ j k, exact j k = exact k j) (hfloats : ∀ p x y, onFloats p x y = onFloats p y x)
    (ha : a.worth? = some q) (hb : b.worth? = some r) :
    arithmetic onWords exact onFloats onStrings a b
      = arithmetic onWords exact onFloats onStrings b a := by
  obtain ⟨pair, hpair, hworth⟩ := promote_worth ha hb
  rw [arithmetic, arithmetic, Pair.promote_swap a b, hpair]
  cases pair with
  | integers n m =>
    show Except.ok (wordOr (exact _ _) (onWords n m)) = Except.ok (wordOr (exact _ _) (onWords m n))
    rw [hwords, hexact]
  | floats p x y =>
    show Outcome.lift _ (onFloats p x y) = Outcome.lift _ (onFloats p y x)
    rw [hfloats]
  | strings s t => exact absurd hworth (by simp [Pair.worth?])

theorem sum_comm (ha : a.worth? = some q) (hb : b.worth? = some r) : a.sum b = b.sum a := by
  refine arithmetic_comm (fun n m => ?_) Int.add_comm (fun _ => Floating.add_comm) ha hb
  rw [Integer.add_eq_ofInt, Integer.add_eq_ofInt, Int.add_comm]

theorem multiply_comm (ha : a.worth? = some q) (hb : b.worth? = some r) :
    a.multiply b = b.multiply a := by
  refine arithmetic_comm (fun n m => ?_) Int.mul_comm (fun _ => Floating.mul_comm) ha hb
  rw [Integer.mul, Integer.mul, Int.mul_comm]

/-! ## Differences -/

/-- **A result that no word holds goes on as a single of the same worth,** as long as it fits
the significand. -/
theorem worth?_wordOr {k : ℤ} (hk : k.natAbs < 2 ^ 24) :
    (wordOr k (Integer.ofInt .signed k)).worth? = some (k : ℚ) := by
  rcases h : Integer.ofInt .signed k with f | n
  · show some (Floating.exact (.ofInt k : Single)) = _
    rw [Floating.exact_ofInt hk]
  · show some ((n.toInt .signed : ℤ) : ℚ) = _
    rw [Integer.ofInt_signed_eq_ok_iff.mp h]

/-- Every number has an opposite. -/
theorem exists_negate (hv : v.worth? = some q) :
    ∃ w, v.negate = .ok w ∧ w.worth? = some (-q) := by
  cases v with
  | integer n =>
    have hn := n.toInt_bounds
    rw [worth?, Option.some.injEq] at hv
    refine ⟨_, rfl, ?_⟩
    rw [Integer.negate_eq_ofInt, worth?_wordOr (by omega), ← hv, Int.cast_neg]
  | float p x =>
    rw [worth?, Option.some.injEq] at hv
    exact ⟨_, rfl, by rw [worth?, Floating.exact_negate, hv]⟩
  | string s => exact absurd hv (by simp [worth?])

/-- **A difference turns into its opposite,** or into an overflow of the other sign. -/
theorem subtract_swap (ha : a.worth? = some q) (hb : b.worth? = some r) :
    (∃ d e t, a.subtract b = .ok d ∧ b.subtract a = .ok e ∧ d.worth? = some t ∧
        e.worth? = some (-t)) ∨
      ∃ p neg, a.subtract b = .error (.overflow (max p neg)) ∧
        b.subtract a = .error (.overflow (max p !neg)) := by
  obtain ⟨pair, hpair, hworth⟩ := promote_worth ha hb
  rw [subtract, arithmetic, arithmetic, Pair.promote_swap a b, hpair]
  cases pair with
  | integers n m =>
    have hn := n.toInt_bounds
    have hm := m.toInt_bounds
    -- a difference of words fits the significand, so it is exact also where it is no word
    refine Or.inl ⟨_, _, (n.toInt .signed - m.toInt .signed : ℤ), rfl, rfl, ?_, ?_⟩
    · rw [Integer.sub_eq_ofInt, worth?_wordOr (by omega)]
    · rw [Integer.sub_eq_ofInt, worth?_wordOr (by omega), ← Int.cast_neg, neg_sub]
  | floats p x y =>
    simp only [Except.map, Pair.swap]
    rcases x.sub_swap y with ⟨z, w, hz, hw, hopp⟩ | ⟨neg, hz, hw⟩
    · rw [hz, hw]
      exact Or.inl ⟨_, _, _, rfl, rfl, rfl, by rw [hopp, neg_neg]; rfl⟩
    · rw [hz, hw]
      exact Or.inr ⟨p, neg, rfl, rfl⟩
  | strings s t => exact absurd hworth (by simp [Pair.worth?])

/-- **Operands that change places.** For two numbers of any kinds, sum and product do not
depend on the order of the operands: the outcome is the same in kind, bits, failure and
substitute. A difference succeeds together with the one the other way round; then it is equal
to the opposite of that one, and otherwise both overflow, with opposite signs. -/
theorem operands_swap (ha : a.worth? = some q) (hb : b.worth? = some r) :
    a.sum b = b.sum a ∧ a.multiply b = b.multiply a ∧
      ((∃ d e f, a.subtract b = .ok d ∧ b.subtract a = .ok e ∧ e.negate = .ok f ∧
          d.compare f = .ok .eq) ∨
        ∃ p neg, a.subtract b = .error (.overflow (max p neg)) ∧
          b.subtract a = .error (.overflow (max p !neg))) := by
  refine ⟨sum_comm ha hb, multiply_comm ha hb, ?_⟩
  rcases subtract_swap ha hb with ⟨d, e, t, hd, he, hdt, het⟩ | h
  · obtain ⟨f, hf, hft⟩ := exists_negate het
    refine Or.inl ⟨d, e, f, hd, he, hf, ?_⟩
    rw [compare_of_worth hdt hft, neg_neg, cmp_self_eq_eq]
  · exact Or.inr h

/-- The lowest word and zero: one difference is a word, the other a single. -/
theorem operands_swap_lowest :
    let a : Value := integer ⟨0x8000⟩
    let b : Value := integer .zero
    a.worth? = some (-32768) ∧ b.worth? = some 0 ∧ a.subtract b = .ok a ∧
      ∃ e f, b.subtract a = .ok (float .single e) ∧ negate (float .single e) = .ok f ∧
        a.compare f = .ok .eq := by
  intro a b
  have ha : a.worth? = some (-32768) := by
    have hword : (0x8000 : BitVec 16).toInt = -32768 := by decide
    show some (((0x8000 : BitVec 16).toInt : ℤ) : ℚ) = _
    rw [hword]
    norm_num
  have hb : b.worth? = some 0 := by
    have hword : (0 : BitVec 16).toInt = 0 := by decide
    show some (((0 : BitVec 16).toInt : ℤ) : ℚ) = _
    rw [hword, Int.cast_zero]
  have hab : a.subtract b = .ok a := by decide
  have hba : b.subtract a = .ok (float .single (.ofInt 32768)) := by decide
  refine ⟨ha, hb, hab, ?_⟩
  rcases (operands_swap ha hb).2.2 with ⟨d, e, f, hd, he, hf, hcmp⟩ | ⟨p, neg, herr, -⟩
  · obtain rfl := Except.ok.inj (hab.symm.trans hd)
    obtain rfl := Except.ok.inj (hba.symm.trans he)
    exact ⟨_, f, hba, hf, hcmp⟩
  · rw [hab] at herr
    exact absurd herr (by simp)

end Value

end BasicNumerics
