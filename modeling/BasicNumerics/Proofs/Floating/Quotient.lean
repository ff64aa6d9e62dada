/-
Quotients.

A quotient is found by long division, one bit per step until the working width is full; how
many steps that takes depends on which significand is larger (`longDivision_stops`). What is
left over then is looked at only where the guard byte is a tie. So the quotient is a cut
that marks ties, and storing it rounds the exact quotient.

The range is decided by the exponent of the cut, before rounding. That is as good as deciding
it afterwards: two significands of so many bits never have a quotient so close below a power
of two that it would be rounded up to it (`two_zpow_le_roundBits_div_iff`).
-/
import BasicNumerics.Proofs.Floating.Cut

set_option autoImplicit false

namespace BasicNumerics

open Rounding

namespace Scratch

variable {p : Precision} {l r : Scratch p}

/-! ## Long division -/

/-- One step of long division, on the quotient so far and what is left: the divisor is taken
away where it can be, and all moves up by one bit. -/
def divisionStep (divisor : ℕ) (s : ℕ × ℕ) : ℕ × ℕ :=
  if divisor ≤ s.2 then (2 * s.1 + 1, 2 * (s.2 - divisor)) else (2 * s.1, 2 * s.2)

/-- Quotient and remainder after some steps. -/
def longDivision (l r : Scratch p) (steps : ℕ) : ℕ × ℕ :=
  (divisionStep r.man)^[steps] (0, l.man)

/-- **What the steps keep:** quotient and rest make up the dividend, and the rest has not
more than one bit of the quotient in it. -/
theorem longDivision_invariant (hl : l.Aligned) (hr : r.Aligned) (steps : ℕ) :
    2 * ((longDivision l r steps).1 * r.man) + (longDivision l r steps).2 = l.man * 2 ^ steps
      ∧ (longDivision l r steps).2 < 2 * r.man := by
  have hw := p.two_pow_width
  have hl2 := hl.man_lt
  have hr1 := hr.le_man
  induction steps with
  | zero =>
    show 2 * (0 * r.man) + l.man = l.man * 2 ^ 0 ∧ l.man < 2 * r.man
    omega
  | succ n ih =>
    rw [longDivision, Function.iterate_succ_apply', ← longDivision]
    obtain ⟨hsum, hrest⟩ := ih
    have hpow : l.man * 2 ^ (n + 1) = 2 * (l.man * 2 ^ n) := by ring
    rw [hpow, ← hsum, divisionStep]
    split
    · next hle =>
      have hmul : (2 * (longDivision l r n).1 + 1) * r.man
          = 2 * ((longDivision l r n).1 * r.man) + r.man := by ring
      simp only [hmul]
      omega
    · have hmul : 2 * (longDivision l r n).1 * r.man
          = 2 * ((longDivision l r n).1 * r.man) := by ring
      simp only [hmul]
      omega

/-- The quotient bits of so many steps, and twice the remainder. -/
theorem longDivision_succ (hl : l.Aligned) (hr : r.Aligned) (n : ℕ) :
    longDivision l r (n + 1) = (l.man * 2 ^ n / r.man, 2 * (l.man * 2 ^ n % r.man)) := by
  have hr0 : 0 < r.man := Nat.pos_of_ne_zero hr.man_ne_zero
  obtain ⟨hsum, hrest⟩ := longDivision_invariant hl hr (n + 1)
  generalize longDivision l r (n + 1) = s at hsum hrest ⊢
  obtain ⟨q, rest⟩ := s
  -- the rest is even, so half of it is a remainder
  have hpow : l.man * 2 ^ (n + 1) = 2 * (l.man * 2 ^ n) := by ring
  rw [hpow] at hsum
  simp only at hsum hrest
  have hdivmod := Nat.div_mod_unique (a := l.man * 2 ^ n) (d := q) (c := rest / 2) hr0
  obtain ⟨hq, hrem⟩ := hdivmod.mpr ⟨by rw [Nat.mul_comm r.man]; omega, by omega⟩
  rw [hq, hrem, Prod.mk.injEq]
  omega

/-- **Long division fills the width** after the steps that the quotient needs, and not
before. -/
theorem longDivision_stops (hl : l.Aligned) (hr : r.Aligned) (steps : ℕ) :
    2 ^ (p.width - 1) ≤ (longDivision l r steps).1 ↔ quotientBits l r ≤ steps := by
  have hr0 : 0 < r.man := Nat.pos_of_ne_zero hr.man_ne_zero
  have hw := p.two_pow_width
  have hw0 := p.width_pos
  have hl1 := hl.le_man
  have hl2 := hl.man_lt
  have hr1 := hr.le_man
  have hr2 := hr.man_lt
  have hbits : p.width ≤ quotientBits l r := by
    unfold quotientBits
    split <;> omega
  cases steps with
  | zero =>
    show 2 ^ (p.width - 1) ≤ 0 ↔ _
    omega
  | succ n =>
    rw [longDivision_succ hl hr, Nat.le_div_iff_mul_le hr0]
    have hmono : ∀ {m k : ℕ}, m ≤ k → l.man * 2 ^ m ≤ l.man * 2 ^ k := fun h =>
      Nat.mul_le_mul_left _ (Nat.pow_le_pow_right two_pos h)
    constructor
    · intro hle
      by_contra hlt
      -- one bit less than is needed: the quotient does not reach the top of the width
      have hless := hmono (show n ≤ quotientBits l r - 2 by omega)
      have hshort : l.man * 2 ^ (quotientBits l r - 2) < 2 ^ (p.width - 1) * r.man := by
        unfold quotientBits
        split
        · have hw1 := p.two_pow_width_sub_one
          rw [hw1]
          nlinarith [Nat.two_pow_pos (p.width - 2)]
        · rw [show p.width + 1 - 2 = p.width - 1 by omega, Nat.mul_comm]
          exact Nat.mul_lt_mul_of_pos_left (by omega) (Nat.two_pow_pos _)
      omega
    · intro hle
      have henough := (quotient_mem hl hr).1
      rw [Nat.le_div_iff_mul_le hr0] at henough
      exact henough.trans (hmono (by omega))

/-- **The quotient is what long division leaves** when the width is full, with the exponent
lowered by one at each step. -/
theorem div_eq_longDivision (hl : l.Aligned) (hr : r.Aligned) :
    let s := longDivision l r (quotientBits l r)
    div l r = { exp := l.exp - r.exp + unitExp p + 1 - quotientBits l r
                man := if s.2 ≠ 0 ∧ s.1 % 256 = 128 then s.1 + 1 else s.1
                neg := l.neg != r.neg } := by
  intro s
  have hpos : quotientBits l r = quotientBits l r - 1 + 1 := by
    have := p.width_pos
    unfold quotientBits
    split <;> omega
  have hs : s = (l.man * 2 ^ (quotientBits l r - 1) / r.man,
      2 * (l.man * 2 ^ (quotientBits l r - 1) % r.man)) := by
    rw [← longDivision_succ hl hr, ← hpos]
  rw [hs, div]
  simp only [ne_eq, mul_eq_zero, OfNat.ofNat_ne_zero, false_or]

/-! ## Rounding stays in range -/

/-- The quotient of two significands of so many bits is at most the largest significand. -/
theorem quotient_le (hl : l.Stored) (hr : r.Stored) :
    l.man * 2 ^ (quotientBits l r - 1) ≤ (2 ^ p.manBits - 1) * 256 * r.man := by
  obtain ⟨a, ha⟩ := hl.guard
  obtain ⟨b, hb⟩ := hr.guard
  have hw := p.two_pow_width_eq_mul
  have hl2 := hl.aligned.man_lt
  have hr1 := hr.aligned.le_man
  have hr2 := hr.aligned.man_lt
  obtain ⟨top, htop⟩ : ∃ top, 2 ^ p.manBits = top + 1 :=
    ⟨2 ^ p.manBits - 1, by have := Nat.two_pow_pos p.manBits; omega⟩
  have hle : a ≤ top := by omega
  rw [htop, Nat.add_sub_cancel]
  unfold quotientBits
  split
  · calc l.man * 2 ^ (p.width - 1) ≤ 256 * top * r.man :=
          Nat.mul_le_mul (by omega) hr1
      _ = top * 256 * r.man := by ring
  · -- the smaller significand is smaller by at least one
    next hlt =>
    have hnext : a + 1 ≤ b := by omega
    calc l.man * 2 ^ (p.width + 1 - 1) = 256 * 256 * (a * top + a) := by
          rw [Nat.add_sub_cancel, hw, htop, ha]
          ring
      _ ≤ 256 * 256 * (a * top + top) := Nat.mul_le_mul_left _ (by omega)
      _ = top * 256 * (256 * (a + 1)) := by ring
      _ ≤ top * 256 * r.man := Nat.mul_le_mul_left _ (by omega)

/-- A quotient is not rounded up past its leading bit. -/
theorem roundBits_div_lt (hl : l.Stored) (hr : r.Stored) :
    roundBits p.manBits (l.magnitude / r.magnitude) < 2 ^ ((div l r).exp - 128) := by
  have hr0 : (0 : ℚ) < r.man := by exact_mod_cast Nat.pos_of_ne_zero hr.aligned.man_ne_zero
  have hpow : 1 ≤ 2 ^ p.manBits := Nat.one_le_two_pow
  have hquot : l.magnitude / r.magnitude
      ≤ ((2 ^ p.manBits - 1 : ℕ) : ℤ) * 2 ^ ((div l r).exp + (8 : ℕ) - unitExp p) := by
    rw [magnitude_div_magnitude hr.aligned, two_zpow_add, ← unit, ← mul_assoc]
    apply mul_le_mul_of_nonneg_right _ (unit_pos _).le
    rw [div_le_iff₀ hr0]
    exact_mod_cast quotient_le hl hr
  have hbits : |((2 ^ p.manBits - 1 : ℕ) : ℤ)| ≤ 2 ^ p.manBits := by
    rw [Nat.abs_cast]
    exact_mod_cast Nat.sub_le _ _
  have hw : (2 : ℚ) ^ p.width = 2 ^ p.manBits * 256 := by exact_mod_cast p.two_pow_width_eq_mul
  calc roundBits p.manBits (l.magnitude / r.magnitude)
      ≤ ((2 ^ p.manBits - 1 : ℕ) : ℤ) * 2 ^ ((div l r).exp + (8 : ℕ) - unitExp p) :=
        roundBits_le (manBits_pos p) hbits hquot
    _ < 2 ^ p.manBits * (256 * (div l r).unit) := by
        rw [two_zpow_add, ← unit, Int.cast_natCast, show (2 : ℚ) ^ 8 = 256 by norm_num]
        apply mul_lt_mul_of_pos_right _ (mul_pos (by norm_num) (unit_pos _))
        exact_mod_cast (show 2 ^ p.manBits - 1 < 2 ^ p.manBits by omega)
    _ = 2 ^ ((div l r).exp - 128) := by rw [two_zpow_exp, hw, mul_assoc]

/-- **Rounding never moves a quotient to a power of two from below.** -/
theorem two_zpow_le_roundBits_div_iff (hl : l.Stored) (hr : r.Stored) (a : ℤ) :
    2 ^ a ≤ roundBits p.manBits (l.magnitude / r.magnitude) ↔ 2 ^ a ≤ l.magnitude / r.magnitude := by
  constructor
  · intro hround
    rw [(cutOf_div hl.aligned hr.aligned).two_zpow_le_iff]
    by_contra hexp
    have hbelow := roundBits_div_lt hl hr
    have hle : (2 : ℚ) ^ ((div l r).exp - 128) ≤ 2 ^ a :=
      zpow_le_zpow_right₀ one_le_two (by omega)
    linarith
  · exact two_zpow_le_roundBits (manBits_pos p)

/-! ## What is stored -/

theorem pack_div_of_le (hl : l.Aligned) (hr : r.Aligned) (h : 2 ^ 127 ≤ l.magnitude / r.magnitude) :
    (div l r).pack = .error (.overflow (.max (l.neg != r.neg))) := by
  have hcut := cutOf_div hl hr
  apply hcut.aligned.pack_of_le
  rw [hcut.roundBits_eq]
  have hround := two_zpow_le_roundBits (e := 127) (manBits_pos p) (by exact_mod_cast h)
  exact_mod_cast hround

theorem exists_pack_div_eq_ok (hl : l.Stored) (hr : r.Stored)
    (hlo : 2 ^ (-128 : ℤ) ≤ l.magnitude / r.magnitude) (hhi : l.magnitude / r.magnitude < 2 ^ 127) :
    ∃ z, (div l r).pack = .ok z ∧ z.isZero = false ∧ z.neg = (l.neg != r.neg) ∧
      z.unpack.magnitude = roundBits p.manBits (l.magnitude / r.magnitude) := by
  have hcut := cutOf_div hl.aligned hr.aligned
  have hround : roundBits p.manBits (div l r).magnitude < 2 ^ 127 := by
    have hiff := two_zpow_le_roundBits_div_iff hl hr 127
    rw [show (2 : ℚ) ^ (127 : ℤ) = 2 ^ 127 by norm_cast] at hiff
    rw [hcut.roundBits_eq, ← not_le, hiff, not_le]
    exact hhi
  obtain ⟨z, hz, hnonzero, hneg, hmag, -⟩ := hcut.aligned.exists_pack_eq_ok (hcut.exp_pos hlo) hround
  exact ⟨z, hz, hnonzero, hneg, by rw [hmag, hcut.roundBits_eq]⟩

end Scratch

theorem signed_div (a b : Bool) (v w : ℚ) : signed a v / signed b w = signed (a != b) (v / w) := by
  cases a <;> cases b <;> simp [signed, neg_div, div_neg]

theorem decide_signed_neg {v : ℚ} (neg : Bool) (h : 0 < v) : decide (signed neg v < 0) = neg := by
  simp only [signed_neg_iff h, Bool.decide_eq_true]

namespace Floating

open Scratch

variable {p : Precision} {x y : Floating p}

/-- **Division is correctly rounded.** A quotient of `2^127` or more overflows, one below
`2^-128` is the clear zero, and any other is stored as the nearest value, a tie as the even
one; rounding leaves it on the same side of both limits. In place, what is given or reported is
what the buffer holds afterwards. -/
theorem div_of_nonzero (hx : x.isZero = false) (hy : y.isZero = false) :
    (2 ^ 127 ≤ |x.exact / y.exact| →
      x.div y = .error (.overflow (.max (decide (x.exact / y.exact < 0))))) ∧
    (|x.exact / y.exact| < 2 ^ (-128 : ℤ) → x.div y = .ok zero) ∧
    (2 ^ (-128 : ℤ) ≤ |x.exact / y.exact| → |x.exact / y.exact| < 2 ^ 127 →
      ∃ z, x.div y = .ok z ∧ z.exact = roundBits p.manBits (x.exact / y.exact)) ∧
    (2 ^ 127 ≤ |roundBits p.manBits (x.exact / y.exact)| ↔ 2 ^ 127 ≤ |x.exact / y.exact|) ∧
    (2 ^ (-128 : ℤ) ≤ |roundBits p.manBits (x.exact / y.exact)| ↔
      2 ^ (-128 : ℤ) ≤ |x.exact / y.exact|) ∧
    x.buffer.div y.buffer = (x.div y).settle x.buffer := by
  have hdiv : x.div y = (x.unpack.div y.unpack).pack := by
    rw [div, if_neg (by simp [hy]), if_neg (by simp [hx])]
  have hl := stored_unpack hx
  have hr := stored_unpack hy
  have hpos : 0 < x.unpack.magnitude / y.unpack.magnitude :=
    div_pos hl.aligned.magnitude_pos hr.aligned.magnitude_pos
  rw [exact_eq_signed hx, exact_eq_signed hy, signed_div, roundBits_signed, abs_signed, abs_signed,
    abs_of_pos hpos, abs_of_nonneg (roundBits_nonneg hpos.le), decide_signed_neg _ hpos, hdiv]
  have hplace := buffer_div x y
  rw [hdiv] at hplace
  refine ⟨pack_div_of_le hl.aligned hr.aligned, (cutOf_div hl.aligned hr.aligned).pack_of_lt, ?_,
    ?_, ?_, hplace⟩
  · intro hlo hhi
    obtain ⟨z, hz, hnonzero, hneg, hmag⟩ := exists_pack_div_eq_ok hl hr hlo hhi
    exact ⟨z, hz, by rw [exact_eq_signed hnonzero, hneg, hmag]; rfl⟩
  · exact_mod_cast two_zpow_le_roundBits_div_iff hl hr 127
  · exact two_zpow_le_roundBits_div_iff hl hr (-128)

/-- One over `255`: the bits `80` repeat, so the guard byte is a tie, and what is left over
takes the even significand up. -/
theorem div_of_nonzero_repeating :
    let x : Single := ofWord 0x81000000
    let y : Single := ofWord 0x887F0000
    let z : Single := ofWord 0x79008081
    x.isZero = false ∧ y.isZero = false ∧ x.exact = 1 ∧ y.exact = 255 ∧ x.div y = .ok z ∧
      z.exact = roundBits 24 (1 / 255) := by
  intro x y z
  have hx : x.exact = 1 := by
    norm_num [x, exact, isZero, ofWord, significand, Precision.manBits]
  have hy : y.exact = 255 := by
    norm_num [y, exact, isZero, ofWord, significand, Precision.manBits]
  have hdiv : x.div y = .ok z := by decide +kernel
  obtain ⟨-, -, hok, -⟩ := div_of_nonzero (x := x) (y := y) rfl rfl
  rw [hx, hy] at hok
  obtain ⟨w, hw, hround⟩ := hok (by norm_num) (by norm_num)
  obtain rfl : z = w := Except.ok.inj (hdiv.symm.trans hw)
  exact ⟨rfl, rfl, hx, hy, hdiv, hround⟩

end Floating

end BasicNumerics
