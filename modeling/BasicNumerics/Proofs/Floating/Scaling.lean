/-
Scaling by ten, and how far it drifts.

Both directions between binary and decimal multiply or divide by ten, one step at a
time, on aligned working values. A step is inexact, but it misses by at most one unit
of its result, and an aligned result has at least half the working width in units. So
a step changes the ratio to the exact value by a factor of at most
`1 + 2^-(width - 2)`, and factors multiply along a run: `Near p n a b` says that `a`
and `b` are at most `n` such factors apart. It is symmetric and additive in `n`, so
the error of a whole conversion is a count of steps, and rounding the guard byte
counts for 64 of them.

How many steps there can be is read off the exponent, which a step moves by three or
four.
-/
import BasicNumerics.Proofs.Floating.Storing
import Mathlib.Algebra.Order.Ring.Pow

set_option autoImplicit false

namespace BasicNumerics

open Rounding

/-! ## Ratios -/

/-- The ratio by which one step can miss. -/
def Precision.stepRatio (p : Precision) : ℚ := 1 + 1 / 2 ^ (p.width - 2)

theorem Precision.one_le_stepRatio (p : Precision) : 1 ≤ p.stepRatio := by
  have : (0 : ℚ) ≤ 1 / 2 ^ (p.width - 2) := by positivity
  unfold stepRatio
  linarith

/-- Two magnitudes are at most `n` steps apart. -/
structure Near (p : Precision) (n : ℕ) (a b : ℚ) : Prop where
  left : a ≤ p.stepRatio ^ n * b
  right : b ≤ p.stepRatio ^ n * a

namespace Near

variable {p : Precision} {n m : ℕ} {a b c : ℚ}

theorem refl (p : Precision) (a : ℚ) : Near p 0 a a := by
  constructor <;> simp

theorem symm (h : Near p n a b) : Near p n b a := ⟨h.right, h.left⟩

theorem trans (hab : Near p n a b) (hbc : Near p m b c) : Near p (n + m) a c := by
  have hn : 0 ≤ p.stepRatio ^ n := pow_nonneg (zero_le_one.trans p.one_le_stepRatio) n
  have hm : 0 ≤ p.stepRatio ^ m := pow_nonneg (zero_le_one.trans p.one_le_stepRatio) m
  refine ⟨?_, ?_⟩
  · calc a ≤ p.stepRatio ^ n * b := hab.left
      _ ≤ p.stepRatio ^ n * (p.stepRatio ^ m * c) := mul_le_mul_of_nonneg_left hbc.left hn
      _ = p.stepRatio ^ (n + m) * c := by rw [pow_add]; ring
  · calc c ≤ p.stepRatio ^ m * b := hbc.right
      _ ≤ p.stepRatio ^ m * (p.stepRatio ^ n * a) := mul_le_mul_of_nonneg_left hab.right hm
      _ = p.stepRatio ^ (n + m) * a := by rw [pow_add]; ring

theorem mono (h : Near p n a b) (hnm : n ≤ m) (ha : 0 ≤ a) (hb : 0 ≤ b) : Near p m a b := by
  have hpow : p.stepRatio ^ n ≤ p.stepRatio ^ m := pow_le_pow_right₀ p.one_le_stepRatio hnm
  exact ⟨h.left.trans (mul_le_mul_of_nonneg_right hpow hb),
    h.right.trans (mul_le_mul_of_nonneg_right hpow ha)⟩

theorem mul_left (h : Near p n a b) (hc : 0 ≤ c) : Near p n (c * a) (c * b) := by
  refine ⟨?_, ?_⟩
  · calc c * a ≤ c * (p.stepRatio ^ n * b) := mul_le_mul_of_nonneg_left h.left hc
      _ = p.stepRatio ^ n * (c * b) := by ring
  · calc c * b ≤ c * (p.stepRatio ^ n * a) := mul_le_mul_of_nonneg_left h.right hc
      _ = p.stepRatio ^ n * (c * a) := by ring

/-- **From units to ratios.** Magnitudes that are `k` units apart, and have at least
a quarter of the width in units each, are `k` steps apart. -/
theorem of_abs_sub_le {u : ℚ} (k : ℕ) (hu : 0 ≤ u) (hab : |a - b| ≤ k * u)
    (ha : 2 ^ (p.width - 2) * u ≤ a) (hb : 2 ^ (p.width - 2) * u ≤ b) : Near p k a b := by
  have hpos : (0 : ℚ) < 2 ^ (p.width - 2) := by positivity
  -- one direction; the statement is symmetric in the two magnitudes
  have key : ∀ x y : ℚ, x - y ≤ k * u → 2 ^ (p.width - 2) * u ≤ y →
      x ≤ p.stepRatio ^ k * y := by
    intro x y hxy hy
    have hy0 : 0 ≤ y := (mul_nonneg hpos.le hu).trans hy
    have hu' : u ≤ y * (1 / 2 ^ (p.width - 2)) := by
      rw [mul_one_div, le_div_iff₀ hpos]
      linarith
    have hk : (k : ℚ) * u ≤ k * (y * (1 / 2 ^ (p.width - 2))) :=
      mul_le_mul_of_nonneg_left hu' (Nat.cast_nonneg k)
    have hbern : 1 + (k : ℚ) * (1 / 2 ^ (p.width - 2)) ≤ p.stepRatio ^ k :=
      one_add_mul_le_pow (le_trans (by norm_num) (by positivity : (0 : ℚ) ≤ _)) k
    calc x ≤ (1 + (k : ℚ) * (1 / 2 ^ (p.width - 2))) * y := by linarith
      _ ≤ p.stepRatio ^ k * y := mul_le_mul_of_nonneg_right hbern hy0
  have h1 := abs_le.mp hab
  exact ⟨key a b (by linarith) hb, key b a (by linarith) ha⟩

end Near

namespace Scratch

variable {p : Precision}

/-- **A result that misses by one unit is one step away.** -/
theorem Aligned.near_of_abs_sub_le {d : Scratch p} {a : ℚ} (h : d.Aligned)
    (ha : |d.magnitude - a| ≤ d.unit) : Near p 1 d.magnitude a := by
  have hu := d.unit_pos
  have hlo := h.le_magnitude
  have hw : (2 : ℚ) ^ (p.width - 1) = 2 * 2 ^ (p.width - 2) := by
    exact_mod_cast p.two_pow_width_sub_one
  have hone : (1 : ℚ) ≤ 2 ^ (p.width - 2) := one_le_pow₀ (by norm_num)
  have h1 := abs_le.mp ha
  have h2 : d.unit ≤ 2 ^ (p.width - 2) * d.unit := le_mul_of_one_le_left hu.le hone
  rw [hw] at hlo
  exact Near.of_abs_sub_le 1 hu.le (by simpa using ha) (by linarith) (by linarith)

/-- **Storing counts for 64 steps.** -/
theorem near_of_pack {d : Scratch p} {x : Floating p} (ha : d.Aligned) (h : d.pack = .ok x)
    (hx : x.isZero = false) : Near p 64 x.unpack.magnitude d.magnitude := by
  obtain ⟨hv, hlo, hhi, rfl⟩ := pack_eq_ok_nonzero h hx
  have herr := abs_round_sub_le d
  have hw : (2 : ℚ) ^ (p.width - 1) = 2 ^ (p.width - 2) * 2 := by
    rw [mul_comm]
    exact_mod_cast p.two_pow_width_sub_one
  have hunpack : d.saturate.unpack.magnitude
      = (d.round.1 : ℚ) * 256 * 2 ^ (d.round.2 - unitExp p) := by
    rw [unpack_saturate hv hhi hlo.le, magnitude, unit, ha.align_eq]
    push_cast
    rfl
  -- both sides have at least `2^(width - 1)` units of the value that was stored
  have hstored : (2 : ℚ) ^ (p.width - 1) * d.unit ≤ d.saturate.unpack.magnitude := by
    have hq : 2 ^ (p.width - 1) ≤ nearestEven d.man 8 * 256 := by
      have h0 := (nearestEven_mem_of_aligned ha).1
      have h1 := p.two_pow_width
      have h2 := p.two_pow_width_eq_mul
      have h3 := p.two_pow_manBits
      omega
    have hq' : (2 : ℚ) ^ (p.width - 1) ≤ nearestEven d.man 8 * 256 := by exact_mod_cast hq
    rw [hunpack, round_worth]
    exact mul_le_mul_of_nonneg_right hq' d.unit_pos.le
  have hread := ha.le_magnitude
  rw [hw, mul_assoc] at hstored hread
  refine Near.of_abs_sub_le 64 (mul_nonneg zero_le_two d.unit_pos.le) ?_ hstored hread
  rw [hunpack]
  push_cast
  linarith

/-! ## Ten times a value -/

/-- A sum of magnitudes that was cut by two bits misses by less than a unit. The tie
that is moved off by one had something cut, so it misses by no more. -/
theorem joinMan_bounds (m : ℕ) :
    4 * joinMan (m / 4) m (m % 4 != 0) ≤ 5 * m + 3
      ∧ 5 * m ≤ 4 * joinMan (m / 4) m (m % 4 != 0) + 3 := by
  unfold joinMan
  split
  · next h =>
    simp only [Bool.and_eq_true, bne_iff_ne, ne_eq] at h
    omega
  · omega

theorem addOrdered_of_neg_eq (small large : Scratch p) {k : ℕ} (hneg : small.neg = large.neg)
    (hk : (large.exp - small.exp).toNat = k) :
    addOrdered small large = { large with
      man := joinMan (small.man / 2 ^ k) large.man (small.man % 2 ^ k != 0) } := by
  subst hk
  unfold addOrdered
  rw [if_pos hneg]

/-- Eight times and twice a value meet at the exponent of the larger, two bits apart. -/
theorem add_eightfold_twofold {d : Scratch p} (hexp : 0 < d.exp) :
    add ({ d with exp := d.exp + 3 } : Scratch p) { d with exp := d.exp + 1 }
      = { d with exp := d.exp + 3, man := joinMan (d.man / 4) d.man (d.man % 4 != 0) } := by
  have hshift : (d.exp + 3 - (d.exp + 1)).toNat = 2 := by omega
  rw [add, if_neg (by simp only; omega), if_neg (by simp only; omega),
    if_pos (by simp only; omega)]
  exact addOrdered_of_neg_eq { d with exp := d.exp + 1 } { d with exp := d.exp + 3 } rfl hshift

/-- **One step up.** The result is aligned, its exponent is three or four higher, and
it misses ten times the value by at most one of its units. -/
theorem tenfold_spec {d : Scratch p} (h : d.Aligned) (hexp : 0 < d.exp) :
    d.tenfold.Aligned ∧ d.exp + 3 ≤ d.tenfold.exp ∧ d.tenfold.exp ≤ d.exp + 4
      ∧ |d.tenfold.magnitude - 10 * d.magnitude| ≤ d.tenfold.unit := by
  have hadd := add_eightfold_twofold hexp
  set s : Scratch p :=
    { d with exp := d.exp + 3, man := joinMan (d.man / 4) d.man (d.man % 4 != 0) } with hs
  have htenfold : d.tenfold = s.align := by rw [tenfold, hadd]
  obtain ⟨hj1, hj2⟩ := joinMan_bounds d.man
  rw [show joinMan (d.man / 4) d.man (d.man % 4 != 0) = s.man from rfl] at hj1 hj2
  have hlo := h.le_man
  have hhi := h.man_lt
  have hw := p.two_pow_width
  have hw0 := p.width_pos
  have hbig : 8 ≤ 2 ^ (p.width - 1) := by cases p <;> decide
  -- five quarters of a significand have its bits or one more
  have hge : p.width ≤ bitLength s.man := by
    have := lt_bitLength (n := s.man) (k := p.width - 1) (by omega)
    omega
  have hle : bitLength s.man ≤ p.width + 1 := by
    refine bitLength_le ?_
    rw [Nat.pow_succ]
    omega
  have hs0 : s.man ≠ 0 := by omega
  have halign := align_exp hs0
  have hsexp : s.exp = d.exp + 3 := rfl
  -- the sum misses by three quarters of its unit, and aligning by the rest of one
  have hunit : s.unit = 8 * d.unit := by
    have := two_zpow_add (p := p) d.exp 3
    push_cast at this
    rw [unit, hsexp, this, unit]
    norm_num
  have hsum : |s.magnitude - 10 * d.magnitude| ≤ 3 / 4 * s.unit := by
    have h1 : (4 : ℚ) * s.man ≤ 5 * d.man + 3 := by exact_mod_cast hj1
    have h2 : (5 : ℚ) * d.man ≤ 4 * s.man + 3 := by exact_mod_cast hj2
    have hm : s.magnitude - 10 * d.magnitude = (s.man - 5 / 4 * d.man) * s.unit := by
      rw [magnitude, magnitude, hunit]
      ring
    have habs : |(s.man : ℚ) - 5 / 4 * d.man| ≤ 3 / 4 := by
      rw [abs_le]
      constructor <;> linarith
    rw [hm, abs_mul, abs_of_pos s.unit_pos]
    exact mul_le_mul_of_nonneg_right habs s.unit_pos.le
  have hal := abs_magnitude_align_sub_le hge
  have hpos := s.unit_pos
  rw [htenfold]
  refine ⟨align_aligned hs0, by omega, by omega, ?_⟩
  calc |s.align.magnitude - 10 * d.magnitude|
      ≤ |s.align.magnitude - s.magnitude| + |s.magnitude - 10 * d.magnitude| := abs_sub_le _ _ _
    _ ≤ s.align.unit := by linarith

theorem neg_tenfold {d : Scratch p} (hexp : 0 < d.exp) : d.tenfold.neg = d.neg := by
  rw [tenfold, add_eightfold_twofold hexp, align_neg]

/-! ## A tenth of a value -/

/-- The quotient of aligned significands, as many bits of it as fill the width. -/
theorem quotient_mem {l r : Scratch p} (hl : l.Aligned) (hr : r.Aligned) :
    2 ^ (p.width - 1) ≤ l.man * 2 ^ (quotientBits l r - 1) / r.man
      ∧ l.man * 2 ^ (quotientBits l r - 1) / r.man < 2 ^ p.width := by
  have hr0 : 0 < r.man := Nat.pos_of_ne_zero hr.man_ne_zero
  have hw := p.two_pow_width
  have hl1 := hl.le_man
  have hl2 := hl.man_lt
  have hr1 := hr.le_man
  have hr2 := hr.man_lt
  rw [Nat.le_div_iff_mul_le hr0, Nat.div_lt_iff_lt_mul hr0, hw]
  unfold quotientBits
  split
  · constructor <;> nlinarith
  · rw [Nat.add_sub_cancel, hw]
    constructor <;> nlinarith

/-- The quotient of two magnitudes is the quotient of the moved significands, in units of the
result. -/
theorem magnitude_div_magnitude {l r : Scratch p} (hr : r.Aligned) :
    l.magnitude / r.magnitude
      = (l.man * 2 ^ (quotientBits l r - 1) : ℕ) / r.man * (div l r).unit := by
  set k := quotientBits l r with hk
  have hk0 : 0 < k := by
    rw [hk, quotientBits]
    have := p.width_pos
    split <;> omega
  have hexp : (div l r).exp - unitExp p = l.exp - unitExp p - (r.exp - unitExp p) - (k - 1 : ℕ) := by
    show l.exp - r.exp + unitExp p + 1 - k - unitExp p = _
    push_cast [Nat.cast_sub (Nat.one_le_iff_ne_zero.mpr hk0.ne')]
    ring
  have hr0 : (r.man : ℚ) ≠ 0 := by exact_mod_cast hr.man_ne_zero
  have hru : r.unit ≠ 0 := r.unit_pos.ne'
  rw [unit, hexp, zpow_sub₀ (by norm_num), zpow_sub₀ (by norm_num), zpow_natCast]
  rw [show (2 : ℚ) ^ (l.exp - unitExp p) = l.unit from rfl,
    show (2 : ℚ) ^ (r.exp - unitExp p) = r.unit from rfl, magnitude, magnitude]
  push_cast
  field_simp

/-- **A quotient of aligned values** is aligned and misses by less than one of its
units. -/
theorem div_spec {l r : Scratch p} (hl : l.Aligned) (hr : r.Aligned) :
    (div l r).Aligned ∧ |(div l r).magnitude - l.magnitude / r.magnitude| ≤ (div l r).unit := by
  have hr0 : 0 < r.man := Nat.pos_of_ne_zero hr.man_ne_zero
  obtain ⟨hq1, hq2⟩ := quotient_mem hl hr
  have hexact := magnitude_div_magnitude (l := l) hr
  set num := l.man * 2 ^ (quotientBits l r - 1) with hnum
  have hdm : r.man * (num / r.man) + num % r.man = num := Nat.div_add_mod num r.man
  have hmod : num % r.man < r.man := Nat.mod_lt _ hr0
  -- the tie that is moved off by one leaves a remainder, so the quotient is still within one
  have hman : (num / r.man ≤ (div l r).man ∧ (div l r).man < 2 ^ p.width)
      ∧ (div l r).man * r.man ≤ num + r.man ∧ num ≤ (div l r).man * r.man + r.man := by
    have hmul : (num / r.man + 1) * r.man = r.man * (num / r.man) + r.man := by ring
    have hw := p.two_pow_width_eq_mul
    have hdef : (div l r).man = if num % r.man ≠ 0 ∧ num / r.man % 256 = 128 then num / r.man + 1
        else num / r.man := rfl
    rw [hdef]
    split
    · refine ⟨⟨by omega, by omega⟩, ?_, ?_⟩ <;> rw [hmul] <;> omega
    · rw [Nat.mul_comm (num / r.man)]
      omega
  have hr0' : (0 : ℚ) < r.man := by exact_mod_cast hr0
  have habs : |((div l r).man : ℚ) - num / r.man| ≤ 1 := by
    have h1 : ((div l r).man : ℚ) * r.man ≤ num + r.man := by exact_mod_cast hman.2.1
    have h2 : (num : ℚ) ≤ (div l r).man * r.man + r.man := by exact_mod_cast hman.2.2
    have h3 : (num : ℚ) / r.man * r.man = num := div_mul_cancel₀ _ hr0'.ne'
    rw [abs_le]
    constructor <;> nlinarith
  refine ⟨⟨hq1.trans hman.1.1, hman.1.2⟩, ?_⟩
  rw [hexact, magnitude, ← sub_mul, abs_mul, abs_of_pos (unit_pos _)]
  exact mul_le_of_le_one_left (unit_pos _).le habs

theorem magnitude_ten (p : Precision) : (Floating.ofInt 10 : Floating p).unpack.magnitude = 10 := by
  have h := magnitude_unpack_ofInt (p := p) (n := 10) (by norm_num) (by cases p <;> decide)
  exact_mod_cast h

theorem exp_ten (p : Precision) : (Floating.ofInt 10 : Floating p).unpack.exp = 132 := by
  have hunpack : (Floating.ofInt 10 : Floating p).unpack = (ofInt p (10 : ℕ)).align :=
    unpack_ofInt (by norm_num) (by cases p <;> decide)
  rw [hunpack, exp_align_ofInt (by norm_num),
    bitLength_eq (n := 10) (k := 3) (by norm_num) (by norm_num)]
  rfl

/-- The quotient by ten comes out aligned, so a step down is that quotient. -/
theorem tenth_eq_div {d : Scratch p} (h : d.Aligned) :
    d.tenth = div d (Floating.ofInt 10 : Floating p).unpack := by
  rw [tenth, h.align_eq]
  exact (div_spec h (unpack_aligned (Floating.ofInt 10 : Floating p))).1.align_eq

/-- **One step down.** The result is aligned, its exponent is three or four lower, and
it misses a tenth of the value by at most one of its units. -/
theorem tenth_spec {d : Scratch p} (h : d.Aligned) :
    d.tenth.Aligned ∧ d.exp - 4 ≤ d.tenth.exp ∧ d.tenth.exp ≤ d.exp - 3
      ∧ |d.tenth.magnitude - d.magnitude / 10| ≤ d.tenth.unit := by
  set ten : Scratch p := (Floating.ofInt 10 : Floating p).unpack with hten
  obtain ⟨hq, herr⟩ := div_spec h (unpack_aligned (Floating.ofInt 10 : Floating p))
  rw [magnitude_ten] at herr
  have hdiv : (div d ten).exp = d.exp - 132 + unitExp p + 1 - quotientBits d ten := by
    show d.exp - ten.exp + unitExp p + 1 - quotientBits d ten = _
    rw [hten, exp_ten]
  have hbits : p.width ≤ quotientBits d ten ∧ quotientBits d ten ≤ p.width + 1 := by
    unfold quotientBits
    split <;> omega
  rw [unitExp_eq] at hdiv
  rw [tenth_eq_div h, ← hten]
  exact ⟨hq, by omega, by omega, herr⟩

theorem neg_tenth (d : Scratch p) : d.tenth.neg = d.neg := by
  have hten : (Floating.ofInt 10 : Floating p).unpack.neg = false := by
    have := unpack_ofInt (p := p) (n := 10) (by norm_num) (by cases p <;> decide)
    rw [show (Floating.ofInt 10 : Floating p).unpack = _ from this, align_neg]
    rfl
  rw [tenth, align_neg]
  show (d.align.neg != (Floating.ofInt 10 : Floating p).unpack.neg) = d.neg
  rw [hten, align_neg, Bool.bne_false]

theorem near_tenfold {d : Scratch p} (h : d.Aligned) (hexp : 0 < d.exp) :
    Near p 1 d.tenfold.magnitude (10 * d.magnitude) := by
  obtain ⟨ha, -, -, herr⟩ := tenfold_spec h hexp
  exact ha.near_of_abs_sub_le herr

theorem near_tenth {d : Scratch p} (h : d.Aligned) :
    Near p 1 (10 * d.tenth.magnitude) d.magnitude := by
  obtain ⟨ha, -, -, herr⟩ := tenth_spec h
  have h1 := (ha.near_of_abs_sub_le herr).mul_left (c := 10) (by norm_num)
  rwa [mul_div_cancel₀ _ (by norm_num)] at h1

/-! ## Scaling by a given power

Either the run stops early, far outside of what can be stored, or it takes all its
steps. -/

theorem timesTen_spec (n : ℕ) : ∀ {d : Scratch p}, d.Aligned → 0 < d.exp →
    (timesTen n d).Aligned ∧ (timesTen n d).neg = d.neg ∧ (0x1ff < (timesTen n d).exp
      ∨ (d.exp + 3 * n ≤ (timesTen n d).exp
        ∧ Near p n (timesTen n d).magnitude (10 ^ n * d.magnitude))) := by
  induction n with
  | zero =>
    intro d h _
    refine ⟨h, rfl, Or.inr ⟨by simp [timesTen], ?_⟩⟩
    simpa [timesTen] using Near.refl p d.magnitude
  | succ n ih =>
    intro d h hexp
    obtain ⟨ha, hlo, -, -⟩ := tenfold_spec h hexp
    have hstep := near_tenfold h hexp
    rw [timesTen]
    by_cases hstop : 0x1ff < d.tenfold.exp
    · rw [if_pos hstop]
      exact ⟨ha, neg_tenfold hexp, Or.inl hstop⟩
    · rw [if_neg hstop]
      obtain ⟨hr, hneg, hrest⟩ := ih ha (by omega)
      refine ⟨hr, hneg.trans (neg_tenfold hexp), ?_⟩
      rcases hrest with hout | ⟨hmove, hnear⟩
      · exact Or.inl hout
      · refine Or.inr ⟨by push_cast; omega, ?_⟩
        have h1 := hnear.trans (hstep.mul_left (c := 10 ^ n) (by positivity))
        rwa [show (10 : ℚ) ^ n * (10 * d.magnitude) = 10 ^ (n + 1) * d.magnitude by ring] at h1

theorem overTen_spec (n : ℕ) : ∀ {d : Scratch p}, d.Aligned →
    (overTen n d).Aligned ∧ (overTen n d).neg = d.neg ∧ ((overTen n d).exp < -0x1ff
      ∨ ((overTen n d).exp + 3 * n ≤ d.exp
        ∧ Near p n (10 ^ n * (overTen n d).magnitude) d.magnitude)) := by
  induction n with
  | zero =>
    intro d h
    refine ⟨h, rfl, Or.inr ⟨by simp [overTen], ?_⟩⟩
    simpa [overTen] using Near.refl p d.magnitude
  | succ n ih =>
    intro d h
    obtain ⟨ha, -, hhi, -⟩ := tenth_spec h
    have hstep := near_tenth h
    rw [overTen]
    by_cases hstop : d.tenth.exp < -0x1ff
    · rw [if_pos hstop]
      exact ⟨ha, d.neg_tenth, Or.inl hstop⟩
    · rw [if_neg hstop]
      obtain ⟨hr, hneg, hrest⟩ := ih ha
      refine ⟨hr, hneg.trans d.neg_tenth, ?_⟩
      rcases hrest with hout | ⟨hmove, hnear⟩
      · exact Or.inl hout
      · refine Or.inr ⟨by push_cast; omega, ?_⟩
        have h1 := (hnear.mul_left (c := 10) (by norm_num)).trans hstep
        rwa [show (10 : ℚ) * (10 ^ n * (overTen n d.tenth).magnitude)
          = 10 ^ (n + 1) * (overTen n d.tenth).magnitude by ring] at h1

/-! ## Scaling to a number of digits

The fuel of the two loops is the distance of the exponents, and a step covers at
least three of it, so a loop always ends at its own test. -/

theorem le_exp_of_not_lt {d e : Scratch p} (h : d.lt e = false) : e.exp ≤ d.exp := by
  by_contra hlt
  have h1 : d.exp < e.exp := by omega
  simp [lt, h1] at h

theorem exp_le_of_lt {d e : Scratch p} (h : d.lt e = true) : d.exp ≤ e.exp := by
  simp only [lt, Bool.or_eq_true, decide_eq_true_eq, Bool.and_eq_true, beq_iff_eq] at h
  omega

/-- What taking tenths until a value is below the limit gives: the value, and how
many tenths were taken. -/
structure ScaledDown (limit d : Scratch p) (r : Scratch p × ℕ) : Prop where
  aligned : r.1.Aligned
  lt_limit : r.1.lt limit = true
  near : Near p r.2 (10 ^ r.2 * r.1.magnitude) d.magnitude
  steps : r.2 = 0 ∨ 3 * (r.2 : ℤ) ≤ d.exp - limit.exp + 3
  le_exp : d.exp ≤ r.1.exp ∨ limit.exp - 4 ≤ r.1.exp

theorem scaleDown_spec (limit : Scratch p) (fuel : ℕ) : ∀ {d : Scratch p}, d.Aligned →
    d.exp - limit.exp < fuel → ScaledDown limit d (scaleDown limit fuel d) := by
  induction fuel with
  | zero =>
    intro d h hfuel
    have hlt : d.exp < limit.exp := by omega
    exact ⟨h, by simp [scaleDown, lt, hlt], by simpa [scaleDown] using Near.refl p d.magnitude,
      Or.inl rfl, Or.inl le_rfl⟩
  | succ fuel ih =>
    intro d h hfuel
    rw [scaleDown]
    by_cases hlt : d.lt limit = true
    · rw [if_pos hlt]
      exact ⟨h, hlt, by simpa using Near.refl p d.magnitude, Or.inl rfl, Or.inl le_rfl⟩
    · rw [if_neg hlt]
      have hle := le_exp_of_not_lt (Bool.eq_false_iff.mpr hlt)
      obtain ⟨ha, hlo, hhi, -⟩ := tenth_spec h
      have hrest := ih ha (by push_cast at hfuel; omega)
      generalize scaleDown limit fuel d.tenth = r at hrest
      obtain ⟨e, n⟩ := r
      refine ⟨hrest.aligned, hrest.lt_limit, ?_, Or.inr ?_, Or.inr ?_⟩
      · have h1 := (hrest.near.mul_left (c := 10) (by norm_num)).trans (near_tenth h)
        rwa [show (10 : ℚ) * (10 ^ n * e.magnitude) = 10 ^ (n + 1) * e.magnitude by ring] at h1
      · have := hrest.steps
        push_cast
        omega
      · have h1 : d.tenth.exp ≤ e.exp ∨ limit.exp - 4 ≤ e.exp := hrest.le_exp
        show limit.exp - 4 ≤ e.exp
        omega

/-- What multiplying by ten until a value is not below the limit gives. After at least
one step the value came from below the limit, so it is hardly beyond ten times it. -/
structure ScaledUp (limit d : Scratch p) (r : Scratch p × ℕ) : Prop where
  aligned : r.1.Aligned
  not_lt_limit : r.1.lt limit = false
  near : Near p r.2 r.1.magnitude (10 ^ r.2 * d.magnitude)
  steps : r.2 = 0 ∨ 3 * (r.2 : ℤ) ≤ limit.exp - d.exp + 3
  magnitude_le : r.1 = d ∨ r.1.magnitude ≤ p.stepRatio * (10 * limit.magnitude)

theorem scaleUp_spec {limit : Scratch p} (hlim : limit.Aligned) (fuel : ℕ) :
    ∀ {d : Scratch p}, d.Aligned → 0 < d.exp → limit.exp - d.exp < fuel →
      ScaledUp limit d (scaleUp limit fuel d) := by
  induction fuel with
  | zero =>
    intro d h _ hfuel
    have hlt : d.lt limit = false := by
      have h1 : ¬ d.exp < limit.exp := by omega
      have h2 : ¬ d.exp = limit.exp := by omega
      simp [lt, h1, h2]
    exact ⟨h, hlt, by simpa [scaleUp] using Near.refl p d.magnitude, Or.inl rfl, Or.inl rfl⟩
  | succ fuel ih =>
    intro d h hexp hfuel
    rw [scaleUp]
    by_cases hlt : d.lt limit = true
    · rw [if_pos hlt]
      have hle := exp_le_of_lt hlt
      obtain ⟨ha, hlo, hhi, -⟩ := tenfold_spec h hexp
      have hstep := near_tenfold h hexp
      have hrest := ih ha (by omega) (by push_cast at hfuel; omega)
      generalize scaleUp limit fuel d.tenfold = r at hrest
      obtain ⟨e, n⟩ := r
      refine ⟨hrest.aligned, hrest.not_lt_limit, ?_, Or.inr ?_, Or.inr ?_⟩
      · have h1 := hrest.near.trans (hstep.mul_left (c := 10 ^ n) (by positivity))
        rwa [show (10 : ℚ) ^ n * (10 * d.magnitude) = 10 ^ (n + 1) * d.magnitude by ring] at h1
      · have := hrest.steps
        push_cast
        omega
      -- the last step is the one that came from below the limit
      · rcases hrest.magnitude_le with heq | hmag
        · have h1 := hstep.left
          have h2 := (lt_iff_magnitude_lt h hlim).mp hlt
          have h3 : 0 ≤ p.stepRatio := zero_le_one.trans p.one_le_stepRatio
          rw [pow_one] at h1
          rw [heq]
          exact h1.trans (mul_le_mul_of_nonneg_left (by linarith) h3)
        · exact hmag
    · rw [if_neg hlt]
      exact ⟨h, by simpa using hlt, by simpa using Near.refl p d.magnitude, Or.inl rfl,
        Or.inl rfl⟩

/-- What scaling a value between two powers of ten gives, in so many steps. A value is
scaled one way, or past the lower limit and a little back, so there are hardly more steps
than the power that is reported. -/
structure ScaledBetween (t steps : ℕ) (d : Scratch p) (r : Scratch p × ℤ) : Prop where
  near : Near p steps r.1.magnitude (d.magnitude * 10 ^ (-r.2))
  steps_le : steps ≤ 105
  steps_le_power : steps ≤ r.2.natAbs + 4
  power_le : r.2.natAbs ≤ steps
  le_magnitude : 10 ^ t ≤ r.1.magnitude
  magnitude_le : r.1.magnitude ≤ p.stepRatio * 10 ^ (t + 1)

theorem scaleBetween_scaled {t : ℕ} (ht : 10 ^ (t + 1) < 2 ^ p.manBits) {d : Scratch p}
    (h : d.Aligned) (hlo : 0 < d.exp) (hhi : d.exp ≤ 255) :
    ∃ steps, ScaledBetween t steps d (scaleBetween (Floating.ofInt (10 ^ t : ℕ) : Floating p).unpack
      (Floating.ofInt (10 ^ (t + 1) : ℕ) : Floating p).unpack d) := by
  set low : Scratch p := (Floating.ofInt (10 ^ t : ℕ)).unpack
  set high : Scratch p := (Floating.ofInt (10 ^ (t + 1) : ℕ)).unpack
  have ht' : 10 ^ t < 2 ^ p.manBits := lt_of_le_of_lt (Nat.pow_le_pow_right (by norm_num)
    (Nat.le_succ t)) ht
  obtain ⟨hlow, -, hlowexp⟩ : low.magnitude = 10 ^ t ∧ 129 ≤ low.exp ∧ low.exp ≤ 184 :=
    unpack_ofInt_ten_pow ht'
  obtain ⟨hhigh, hhighexp, -⟩ :
      high.magnitude = 10 ^ (t + 1) ∧ 129 ≤ high.exp ∧ high.exp ≤ 184 :=
    unpack_ofInt_ten_pow ht
  have halow : low.Aligned := unpack_aligned _
  have hahigh : high.Aligned := unpack_aligned _
  have horder : low.exp ≤ high.exp := by
    by_contra hlt
    have h1 := hahigh.magnitude_lt_of_exp_lt halow (not_le.mp hlt)
    rw [hlow, hhigh] at h1
    exact absurd (pow_le_pow_right₀ (by norm_num : (1 : ℚ) ≤ 10) (Nat.le_succ t)) (not_le.mpr h1)
  have hdown := scaleDown_spec high ((d.exp - high.exp).toNat + 1) h (by push_cast; omega)
  obtain ⟨⟨e, down⟩, he⟩ : ∃ q, scaleDown high ((d.exp - high.exp).toNat + 1) d = q := ⟨_, rfl⟩
  rw [he] at hdown
  -- what was scaled down stays far enough above zero to be scaled up again
  have hexp : 0 < e.exp := by
    have := hdown.le_exp
    simp only at this
    omega
  have hup := scaleUp_spec halow ((low.exp - e.exp).toNat + 1) hdown.aligned hexp
    (by push_cast; omega)
  obtain ⟨⟨f, up⟩, hf⟩ : ∃ q, scaleUp low ((low.exp - e.exp).toNat + 1) e = q := ⟨_, rfl⟩
  rw [hf] at hup
  have hr : scaleBetween low high d = (f, (down : ℤ) - up) := by
    simp only [scaleBetween, he, hf]
  -- each step moves the exponent by three, and all stay inside the byte
  have hdownsteps := hdown.steps
  have hupsteps := hup.steps
  have hdownexp := hdown.le_exp
  simp only at hdownsteps hupsteps hdownexp
  have hpow : (10 : ℚ) ^ ((up : ℤ) - down) * 10 ^ down = 10 ^ up := by
    rw [← zpow_natCast, ← zpow_add₀ (by norm_num), sub_add_cancel, zpow_natCast]
  rw [hr]
  refine ⟨up + down, ⟨?_, by omega, by simp only; omega, by simp only; omega, ?_, ?_⟩⟩
  · have h1 := hdown.near.mul_left (c := (10 : ℚ) ^ ((up : ℤ) - down)) (by positivity)
    rw [← mul_assoc, hpow] at h1
    rw [neg_sub, mul_comm d.magnitude]
    exact hup.near.trans h1
  · rw [← hlow]
    by_contra hlt
    have := (lt_iff_magnitude_lt hup.aligned halow).mpr (not_le.mp hlt)
    rw [hup.not_lt_limit] at this
    exact absurd this (by simp)
  · rcases hup.magnitude_le with heq | hle
    · have h1 := (lt_iff_magnitude_lt hdown.aligned hahigh).mp hdown.lt_limit
      rw [hhigh] at h1
      rw [show f = e from heq]
      calc e.magnitude ≤ 10 ^ (t + 1) := h1.le
        _ ≤ p.stepRatio * 10 ^ (t + 1) := le_mul_of_one_le_left (by positivity) p.one_le_stepRatio
    · rw [hlow] at hle
      rw [pow_succ, mul_comm ((10 : ℚ) ^ t)]
      exact hle

/-- **A value scaled between two powers of ten.** The result is within a bounded
number of steps of the value moved by the power that is reported, it is not below the
lower power, and it is not beyond the upper one by more than one step. -/
theorem scaleBetween_spec {t : ℕ} (ht : 10 ^ (t + 1) < 2 ^ p.manBits) {d : Scratch p}
    (h : d.Aligned) (hlo : 0 < d.exp) (hhi : d.exp ≤ 255) :
    let low : Scratch p := (Floating.ofInt (10 ^ t : ℕ)).unpack
    let high : Scratch p := (Floating.ofInt (10 ^ (t + 1) : ℕ)).unpack
    let r := scaleBetween low high d
    Near p 105 r.1.magnitude (d.magnitude * 10 ^ (-r.2)) ∧ 10 ^ t ≤ r.1.magnitude
      ∧ r.1.magnitude ≤ p.stepRatio * 10 ^ (t + 1) := by
  intro low high r
  obtain ⟨steps, hr⟩ := scaleBetween_scaled ht h hlo hhi
  refine ⟨?_, hr.le_magnitude, hr.magnitude_le⟩
  exact hr.near.mono hr.steps_le ((by positivity : (0 : ℚ) ≤ 10 ^ t).trans hr.le_magnitude)
    (mul_nonneg h.magnitude_pos.le (by positivity))

end Scratch

end BasicNumerics
