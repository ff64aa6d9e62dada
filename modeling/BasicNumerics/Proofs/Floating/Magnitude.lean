/-
What working values are worth, exactly.

A working value stands for the rational `man · 2^(exp - bias - 8)`. Aligning moves
bits between the significand and the exponent; as long as nothing is moved out on
the right the rational stays the same, and otherwise it moves by less than one unit
of the result. Storing rounds the guard byte away, so it moves by at most half of
the last place that is kept.

The bounds are stated in units of the significand rather than in powers of two, so
that a caller only compares significands. Every later file reads working values
through `magnitude` and the five lemmas on `align` and `pack` below.
-/
import BasicNumerics.Floating.Decimal
import Mathlib.Algebra.Order.Field.Power
import Mathlib.Algebra.Order.Ring.Abs
import Mathlib.Algebra.Order.Field.Rat
import Mathlib.Tactic.FieldSimp
import Mathlib.Tactic.Linarith
import Mathlib.Tactic.NormNum
import Mathlib.Tactic.Positivity
import Mathlib.Tactic.Ring

set_option autoImplicit false

namespace BasicNumerics

/-! ## Counting bits -/

namespace Rounding

/-- The bit length is known from the two powers of two around a number. -/
theorem bitLength_eq {n k : ℕ} (hlo : 2 ^ k ≤ n) (hhi : n < 2 ^ (k + 1)) :
    bitLength n = k + 1 := by
  have hn : n ≠ 0 := by
    have := Nat.two_pow_pos k
    omega
  rw [bitLength, if_neg hn, (Nat.log2_eq_iff hn).mpr ⟨hlo, hhi⟩]

theorem bitLength_pos {n : ℕ} (h : n ≠ 0) : 0 < bitLength n := by
  rw [bitLength, if_neg h]
  exact Nat.succ_pos _

theorem lt_bitLength {n k : ℕ} (h : 2 ^ k ≤ n) : k < bitLength n := by
  have h1 := lt_two_pow_bitLength n
  by_contra hle
  have h2 := Nat.pow_le_pow_right (n := 2) (by norm_num) (Nat.le_of_not_lt hle)
  omega

theorem bitLength_le {n k : ℕ} (h : n < 2 ^ k) : bitLength n ≤ k := by
  by_cases hn : n = 0
  · simp [bitLength, hn]
  · rw [bitLength, if_neg hn]
    exact (Nat.log2_lt hn).mpr h

/-- **A sticky cut misses by less than the unit it cuts to.** Either the dropped
bits are lost, or the even quotient takes one unit for them. -/
theorem sticky_bounds (m k : ℕ) :
    sticky m k * 2 ^ k ≤ m + (2 ^ k - 1) ∧ m ≤ sticky m k * 2 ^ k + (2 ^ k - 1) := by
  have hk : 0 < 2 ^ k := Nat.two_pow_pos k
  have hr : m % 2 ^ k < 2 ^ k := Nat.mod_lt _ hk
  have hm : 2 ^ k * (m / 2 ^ k) + m % 2 ^ k = m := Nat.div_add_mod m (2 ^ k)
  unfold sticky
  split
  · next h =>
    have h1 : (m / 2 ^ k + 1) * 2 ^ k = 2 ^ k * (m / 2 ^ k) + 2 ^ k := by ring
    rw [h1]
    omega
  · rw [Nat.add_zero, Nat.mul_comm]
    omega

/-- A sticky cut of `k` bits leaves a number of the remaining length: the unit it may
add goes to an even quotient, so it never carries. -/
theorem sticky_mem {m k w : ℕ} (hlo : 2 ^ (w + k) ≤ m) (hhi : m < 2 ^ (w + 1 + k)) :
    2 ^ w ≤ sticky m k ∧ sticky m k < 2 ^ (w + 1) := by
  have hk : 0 < 2 ^ k := Nat.two_pow_pos k
  have hq : 2 ^ w ≤ m / 2 ^ k := by
    rw [Nat.le_div_iff_mul_le hk, ← Nat.pow_add]
    exact hlo
  have hq' : m / 2 ^ k < 2 ^ (w + 1) := by
    rw [Nat.div_lt_iff_lt_mul hk, ← Nat.pow_add]
    exact hhi
  have heven : 2 ^ (w + 1) = 2 * 2 ^ w := by ring
  unfold sticky
  split
  · omega
  · omega

/-- **The nearest whole number is at most half a unit away.** -/
theorem nearestEven_bounds (m k : ℕ) :
    2 * (nearestEven m k * 2 ^ k) ≤ 2 * m + 2 ^ k
      ∧ 2 * m ≤ 2 * (nearestEven m k * 2 ^ k) + 2 ^ k := by
  have hr : m % 2 ^ k < 2 ^ k := Nat.mod_lt _ (Nat.two_pow_pos k)
  have hm : 2 ^ k * (m / 2 ^ k) + m % 2 ^ k = m := Nat.div_add_mod m (2 ^ k)
  unfold nearestEven
  split
  · have h1 : (m / 2 ^ k + 1) * 2 ^ k = 2 ^ k * (m / 2 ^ k) + 2 ^ k := by ring
    rw [h1]
    omega
  · rw [Nat.mul_comm (m / 2 ^ k)]
    omega

end Rounding

open Rounding

/-! ## The widths of a precision -/

namespace Precision

theorem two_pow_width (p : Precision) : 2 ^ p.width = 2 * 2 ^ (p.width - 1) := by
  cases p <;> decide

theorem two_pow_width_eq_mul (p : Precision) : 2 ^ p.width = 2 ^ p.manBits * 256 := by
  cases p <;> decide

/-- Half of the working width, in the halves that one carry bit makes of it. -/
theorem two_pow_width_sub_one (p : Precision) : 2 ^ (p.width - 1) = 2 * 2 ^ (p.width - 2) := by
  cases p <;> decide

/-- A quarter of the working width is a whole number of guard bytes, and an even one. -/
theorem two_pow_width_sub_two (p : Precision) : 2 ^ (p.width - 2) = 512 * 2 ^ (p.manBits - 3) := by
  cases p <;> decide

theorem width_pos (p : Precision) : 0 < p.width := Nat.succ_pos _

theorem two_le_width (p : Precision) : 2 ≤ p.width := Nat.le_add_left 2 (p.manBits + 6)

end Precision

namespace Scratch

variable {p : Precision}

/-- The exponent of a whole unit: `128` past the working width. -/
theorem unitExp_eq (p : Precision) : unitExp p = 128 + p.width := by
  cases p <;> rfl

/-! ## Magnitudes -/

/-- What the lowest bit of the significand is worth. -/
def unit (d : Scratch p) : ℚ := 2 ^ (d.exp - unitExp p)

/-- What a working value is worth, sign apart. -/
def magnitude (d : Scratch p) : ℚ := d.man * d.unit

/-- The significand fills the working width exactly. -/
structure Aligned (d : Scratch p) : Prop where
  le_man : 2 ^ (p.width - 1) ≤ d.man
  man_lt : d.man < 2 ^ p.width

theorem unit_pos (d : Scratch p) : 0 < d.unit := by
  unfold unit
  positivity

/-- Moving the exponent by `k` multiplies the unit by `2^k`. -/
theorem two_zpow_add (e : ℤ) (k : ℕ) :
    (2 : ℚ) ^ (e + k - unitExp p) = 2 ^ k * 2 ^ (e - unitExp p) := by
  rw [show e + k - unitExp p = (k : ℤ) + (e - unitExp p) by ring,
    zpow_add₀ (by norm_num), zpow_natCast]

theorem Aligned.man_ne_zero {d : Scratch p} (h : d.Aligned) : d.man ≠ 0 := by
  have h1 := h.le_man
  have h2 := Nat.two_pow_pos (p.width - 1)
  omega

theorem Aligned.bitLength_man {d : Scratch p} (h : d.Aligned) : bitLength d.man = p.width := by
  have hw := p.width_pos
  have h1 := bitLength_eq h.le_man (by rw [Nat.sub_add_cancel hw]; exact h.man_lt)
  rw [h1, Nat.sub_add_cancel hw]

theorem Aligned.magnitude_pos {d : Scratch p} (h : d.Aligned) : 0 < d.magnitude := by
  have h1 : 0 < (d.man : ℚ) := by exact_mod_cast Nat.pos_of_ne_zero h.man_ne_zero
  exact mul_pos h1 d.unit_pos

/-- An aligned magnitude is at least half the width in units. -/
theorem Aligned.le_magnitude {d : Scratch p} (h : d.Aligned) :
    2 ^ (p.width - 1) * d.unit ≤ d.magnitude := by
  have h1 : ((2 ^ (p.width - 1) : ℕ) : ℚ) ≤ d.man := by exact_mod_cast h.le_man
  push_cast at h1
  exact mul_le_mul_of_nonneg_right h1 d.unit_pos.le

theorem Aligned.magnitude_lt {d : Scratch p} (h : d.Aligned) :
    d.magnitude < 2 ^ p.width * d.unit := by
  have h1 : (d.man : ℚ) < ((2 ^ p.width : ℕ) : ℚ) := by exact_mod_cast h.man_lt
  push_cast at h1
  exact mul_lt_mul_of_pos_right h1 d.unit_pos

theorem two_mul_unit_le {d e : Scratch p} (h : d.exp < e.exp) : 2 * d.unit ≤ e.unit := by
  have h1 : (2 : ℚ) ^ (d.exp + (1 : ℕ) - unitExp p) ≤ e.unit := by
    refine zpow_le_zpow_right₀ (by norm_num) ?_
    push_cast
    omega
  rw [two_zpow_add] at h1
  simpa [unit] using h1

/-- A value of higher exponent is larger: the width leaves no overlap. -/
theorem Aligned.magnitude_lt_of_exp_lt {d e : Scratch p} (hd : d.Aligned) (he : e.Aligned)
    (h : d.exp < e.exp) : d.magnitude < e.magnitude := by
  have hunit := two_mul_unit_le h
  have hw : (2 : ℚ) ^ p.width = 2 * 2 ^ (p.width - 1) := by exact_mod_cast p.two_pow_width
  have hpos : (0 : ℚ) < 2 ^ (p.width - 1) := by positivity
  calc d.magnitude < 2 ^ p.width * d.unit := hd.magnitude_lt
    _ = 2 ^ (p.width - 1) * (2 * d.unit) := by rw [hw]; ring
    _ ≤ 2 ^ (p.width - 1) * e.unit := mul_le_mul_of_nonneg_left hunit hpos.le
    _ ≤ e.magnitude := he.le_magnitude

/-- **Exponent first, then significand** is the order of aligned magnitudes. -/
theorem lt_iff_magnitude_lt {d e : Scratch p} (hd : d.Aligned) (he : e.Aligned) :
    d.lt e = true ↔ d.magnitude < e.magnitude := by
  rw [lt, Bool.or_eq_true, Bool.and_eq_true, decide_eq_true_eq, beq_iff_eq, decide_eq_true_eq]
  -- the exponents decide unless they are equal
  rcases lt_trichotomy d.exp e.exp with h | h | h
  · exact ⟨fun _ => hd.magnitude_lt_of_exp_lt he h, fun _ => Or.inl h⟩
  · have hu : d.unit = e.unit := by rw [unit, unit, h]
    rw [magnitude, magnitude, hu, mul_lt_mul_iff_left₀ e.unit_pos, Nat.cast_lt]
    constructor
    · rintro (h1 | h1)
      · omega
      · exact h1.2
    · intro h1
      exact Or.inr ⟨h, h1⟩
  · have h1 := he.magnitude_lt_of_exp_lt hd h
    constructor
    · rintro (h2 | h2) <;> omega
    · intro h2
      linarith

/-! ## Aligning -/

theorem align_neg (d : Scratch p) : d.align.neg = d.neg := by
  unfold align
  split
  · rfl
  · split <;> rfl

/-- Aligning moves the exponent by what the significand is too long. -/
theorem align_exp {d : Scratch p} (h : d.man ≠ 0) :
    d.align.exp = d.exp + bitLength d.man - p.width := by
  unfold align
  rw [if_neg h]
  split
  · next hle => simp only; omega
  · next hgt => simp only; omega

theorem align_man_of_le {d : Scratch p} (h : d.man ≠ 0) (hle : bitLength d.man ≤ p.width) :
    d.align.man = d.man * 2 ^ (p.width - bitLength d.man) := by
  rw [align, if_neg h, if_pos hle]

theorem man_ne_zero_of_width_le {d : Scratch p} (hge : p.width ≤ bitLength d.man) :
    d.man ≠ 0 := by
  intro h0
  have hw := p.width_pos
  rw [h0] at hge
  simp only [bitLength, if_true] at hge
  omega

theorem align_man_of_ge {d : Scratch p} (hge : p.width ≤ bitLength d.man) :
    d.align.man = sticky d.man (bitLength d.man - p.width) := by
  have h := man_ne_zero_of_width_le hge
  rcases Nat.eq_or_lt_of_le hge with heq | hlt
  · rw [align_man_of_le h heq.ge, heq]
    simp [sticky, Nat.mod_one]
  · rw [align, if_neg h, if_neg (by omega)]

/-- **Aligning aligns.** -/
theorem align_aligned {d : Scratch p} (h : d.man ≠ 0) : d.align.Aligned := by
  have hw := p.width_pos
  have hlo := two_pow_le_of_pos (Nat.pos_of_ne_zero h)
  have hhi := lt_two_pow_bitLength d.man
  have hb := bitLength_pos h
  -- bits are moved in on the right, or out on the right into the sticky bit
  rcases Nat.le_total (bitLength d.man) p.width with hle | hge
  · have hmul : ∀ a : ℕ, 2 ^ (a + (p.width - bitLength d.man))
        = 2 ^ a * 2 ^ (p.width - bitLength d.man) := fun a => Nat.pow_add 2 a _
    refine ⟨?_, ?_⟩
    · rw [align_man_of_le h hle, show p.width - 1
        = bitLength d.man - 1 + (p.width - bitLength d.man) by omega, hmul]
      exact Nat.mul_le_mul_right _ hlo
    · rw [align_man_of_le h hle]
      calc d.man * 2 ^ (p.width - bitLength d.man)
          < 2 ^ bitLength d.man * 2 ^ (p.width - bitLength d.man) :=
            Nat.mul_lt_mul_of_pos_right hhi (Nat.two_pow_pos _)
        _ = 2 ^ p.width := by rw [← hmul, Nat.add_sub_cancel' hle]
  · have hs := sticky_mem (m := d.man) (k := bitLength d.man - p.width) (w := p.width - 1)
      (by rw [show p.width - 1 + (bitLength d.man - p.width) = bitLength d.man - 1 by omega]
          exact hlo)
      (by rw [show p.width - 1 + 1 + (bitLength d.man - p.width) = bitLength d.man by omega]
          exact hhi)
    rw [Nat.sub_add_cancel hw] at hs
    rw [← align_man_of_ge hge] at hs
    exact ⟨hs.1, hs.2⟩

/-- A value whose significand fits keeps its magnitude when it is aligned. -/
theorem magnitude_align_of_le {d : Scratch p} (hle : bitLength d.man ≤ p.width) :
    d.align.magnitude = d.magnitude := by
  by_cases h : d.man = 0
  · rw [align, if_pos h]
  · have hexp : d.exp = d.align.exp + (p.width - bitLength d.man : ℕ) := by
      rw [align_exp h]
      omega
    rw [magnitude, magnitude, align_man_of_le h hle, unit, unit, hexp, two_zpow_add]
    push_cast
    ring

/-- **A value whose significand is too long moves by less than one unit** of the
result: by at most the difference of the two units. -/
theorem abs_magnitude_align_sub_le {d : Scratch p} (hge : p.width ≤ bitLength d.man) :
    |d.align.magnitude - d.magnitude| ≤ d.align.unit - d.unit := by
  have h := man_ne_zero_of_width_le hge
  set k := bitLength d.man - p.width with hk
  have hunit : d.align.unit = 2 ^ k * d.unit := by
    rw [unit, unit, ← two_zpow_add, align_exp h]
    congr 2
    omega
  obtain ⟨h1, h2⟩ := sticky_bounds d.man k
  have hpos : 1 ≤ 2 ^ k := Nat.one_le_two_pow
  have h1' : (sticky d.man k : ℚ) * 2 ^ k ≤ d.man + (2 ^ k - 1) := by
    have : ((sticky d.man k * 2 ^ k : ℕ) : ℚ) ≤ ((d.man + (2 ^ k - 1) : ℕ) : ℚ) := by
      exact_mod_cast h1
    push_cast [Nat.cast_sub hpos] at this
    exact this
  have h2' : (d.man : ℚ) ≤ sticky d.man k * 2 ^ k + (2 ^ k - 1) := by
    have : ((d.man : ℕ) : ℚ) ≤ ((sticky d.man k * 2 ^ k + (2 ^ k - 1) : ℕ) : ℚ) := by
      exact_mod_cast h2
    push_cast [Nat.cast_sub hpos] at this
    exact this
  -- both magnitudes in units of the shorter unit
  have hmag : d.align.magnitude - d.magnitude
      = (sticky d.man k * 2 ^ k - d.man) * d.unit := by
    rw [magnitude, magnitude, align_man_of_ge hge, hunit]
    ring
  have habs : |(sticky d.man k : ℚ) * 2 ^ k - d.man| ≤ 2 ^ k - 1 := by
    rw [abs_le]
    constructor <;> linarith
  calc |d.align.magnitude - d.magnitude|
      = |(sticky d.man k : ℚ) * 2 ^ k - d.man| * d.unit := by
        rw [hmag, abs_mul, abs_of_pos d.unit_pos]
    _ ≤ (2 ^ k - 1) * d.unit := mul_le_mul_of_nonneg_right habs d.unit_pos.le
    _ = d.align.unit - d.unit := by rw [hunit]; ring

/-- An aligned value stays as it is. -/
theorem Aligned.align_eq {d : Scratch p} (h : d.Aligned) : d.align = d := by
  rw [align, if_neg h.man_ne_zero, if_pos h.bitLength_man.le, h.bitLength_man]
  simp

end Scratch

end BasicNumerics
