/-
What stored values are worth, and their order.

A value whose exponent byte is not zero stands for the rational
`± significand · 2^(exponent - 128 - n)`, where `n` counts the bits of the
significand; all others stand for zero. `exact` is that rational, and `exact_eq`
takes it apart into the sign and the magnitude of the unpacked value, so the order
of working values (`lt_iff_magnitude_lt`) settles the order of stored ones: sign
first, then exponent, then fraction, the last two reversed for negative values.
That is the order of the rationals, and two values are equal as numbers when the
rationals are (`compare_eq_cmp`).

The last section is on whole numbers. One that fits the significand is stored
exactly, with either sign, and is read off again; widening a single is exact too.
-/
import BasicNumerics.Proofs.Floating.Storing
import BasicNumerics.Proofs.Floating.ZeroBits
import Mathlib.Order.Compare

set_option autoImplicit false

namespace BasicNumerics

open Rounding

/-! ## The worth of a value -/

namespace Scratch

variable {p : Precision} {d e : Scratch p}

/-- Aligned values of one magnitude are one value, sign apart. -/
theorem Aligned.eq_of_magnitude_eq (hd : d.Aligned) (he : e.Aligned)
    (h : d.magnitude = e.magnitude) : d.exp = e.exp ∧ d.man = e.man := by
  have hexp : d.exp = e.exp := by
    rcases lt_trichotomy d.exp e.exp with hlt | heq | hgt
    · have h1 := hd.magnitude_lt_of_exp_lt he hlt
      linarith
    · exact heq
    · have h1 := he.magnitude_lt_of_exp_lt hd hgt
      linarith
  have hunit : d.unit = e.unit := by rw [unit, unit, hexp]
  rw [magnitude, magnitude, hunit] at h
  have hman := mul_right_cancel₀ e.unit_pos.ne' h
  exact ⟨hexp, by exact_mod_cast hman⟩

/-! Turning the sign of a working value turns the sign of what is stored for it. -/

theorem align_negate (d : Scratch p) : d.negate.align = d.align.negate := by
  have hman : d.negate.man = d.man := rfl
  unfold align
  rw [hman]
  by_cases h0 : d.man = 0
  · rw [if_pos h0, if_pos h0]
  · rw [if_neg h0, if_neg h0]
    by_cases hle : bitLength d.man ≤ p.width
    · rw [if_pos hle, if_pos hle]
      rfl
    · rw [if_neg hle, if_neg hle]
      rfl

theorem saturate_negate (hv : d.vanishes = false) : d.negate.saturate = d.saturate.negate := by
  have hv' : d.negate.vanishes = false := hv
  have hround : d.negate.align.round = d.align.round := by rw [align_negate]; rfl
  unfold saturate
  rw [if_neg (by simp [hv']), if_neg (by simp [hv])]
  by_cases h : 255 < d.align.round.2
  · rw [dif_pos (by rw [hround]; exact h), dif_pos h]
    rfl
  · rw [dif_neg (by rw [hround]; exact h), dif_neg h]
    simp only [hround]
    rfl

end Scratch

namespace Floating

open Scratch

variable {p : Precision} {x y : Floating p}

/-- The number that a value stands for. -/
def exact (x : Floating p) : ℚ :=
  if x.isZero then 0
  else (if x.neg then -1 else 1) * x.significand * 2 ^ ((x.exponent : ℤ) - 128 - p.manBits)

theorem magnitude_unpack (x : Floating p) :
    x.unpack.magnitude = x.significand * 2 ^ ((x.exponent : ℤ) - 128 - p.manBits) := by
  have hunit : (x.exponent : ℤ) - unitExp p = (x.exponent : ℤ) - 128 - p.manBits - 8 := by
    rw [unitExp_eq, Precision.width]
    push_cast
    ring
  rw [Scratch.magnitude, Scratch.unit]
  show ((x.significand * 256 : ℕ) : ℚ) * 2 ^ ((x.exponent : ℤ) - unitExp p) = _
  rw [hunit, zpow_sub₀ (by norm_num : (2 : ℚ) ≠ 0) _ 8]
  push_cast
  ring

/-- **Sign and magnitude make the value.** -/
theorem exact_eq (x : Floating p) : x.exact = x.sign * x.unpack.magnitude := by
  rw [magnitude_unpack]
  unfold exact sign
  by_cases hz : x.isZero = true
  · rw [if_pos hz, if_pos hz]
    simp
  · rw [if_neg hz, if_neg hz]
    by_cases hn : x.neg = true
    · rw [if_pos hn, if_pos hn]
      push_cast
      ring
    · rw [if_neg hn, if_neg hn]
      push_cast
      ring

theorem sign_mem (x : Floating p) : x.sign = -1 ∨ x.sign = 0 ∨ x.sign = 1 := by
  unfold sign
  by_cases hz : x.isZero = true
  · rw [if_pos hz]
    exact Or.inr (Or.inl rfl)
  · rw [if_neg hz]
    by_cases hn : x.neg = true
    · rw [if_pos hn]
      exact Or.inl rfl
    · rw [if_neg hn]
      exact Or.inr (Or.inr rfl)

theorem exact_of_isZero (h : x.isZero = true) : x.exact = 0 := by
  rw [exact, if_pos h]

theorem exact_cleared (x : Floating p) : x.cleared.exact = x.exact := by
  refine apply_cleared ?_ x
  intro z hz
  rw [exact_of_isZero hz, exact_of_isZero isZero_zero]

theorem exact_negate (x : Floating p) : x.negate.exact = -x.exact := by
  have hz : x.negate.isZero = x.isZero := rfl
  have hs : x.negate.significand = x.significand := rfl
  unfold exact
  rw [hz, hs]
  by_cases h : x.isZero = true
  · rw [if_pos h, if_pos h, neg_zero]
  · rw [if_neg h, if_neg h]
    show (if (!x.neg) = true then (-1 : ℚ) else 1) * x.significand * 2 ^ ((x.exponent : ℤ) - 128 - p.manBits) = _
    by_cases hn : x.neg = true
    · rw [if_neg (by simp [hn]), if_pos hn]
      ring
    · rw [if_pos (by simp [hn]), if_neg hn]
      ring

theorem abs_exact (h : x.isZero = false) : |x.exact| = x.unpack.magnitude := by
  have hpos := (unpack_aligned x).magnitude_pos
  rw [exact_eq, abs_mul, abs_of_pos hpos]
  rcases x.sign_mem with hs | hs | hs
  · rw [hs]
    norm_num
  · rw [sign_eq_zero_iff.mp hs] at h
    exact absurd h (by simp)
  · rw [hs]
    norm_num

/-! ## Order -/

/-- A smaller sign is a smaller value. -/
theorem exact_lt_of_sign_lt (h : x.sign < y.sign) : x.exact < y.exact := by
  have hx := (unpack_aligned x).magnitude_pos
  have hy := (unpack_aligned y).magnitude_pos
  rw [exact_eq, exact_eq]
  rcases x.sign_mem with h1 | h1 | h1 <;> rcases y.sign_mem with h2 | h2 | h2 <;>
    rw [h1, h2] at h ⊢ <;> first | omega | (push_cast; linarith)

/-- Exponent and fraction order magnitudes. -/
theorem magnitudeGt_iff :
    magnitudeGt x y = true ↔ y.unpack.magnitude < x.unpack.magnitude := by
  rw [← lt_iff_magnitude_lt (unpack_aligned y) (unpack_aligned x)]
  simp only [magnitudeGt, Scratch.lt, Bool.or_eq_true, Bool.and_eq_true, decide_eq_true_eq,
    beq_iff_eq]
  simp only [unpack, significand]
  omega

/-- **Greater means greater.** -/
theorem gt_iff_exact_lt : x.gt y = true ↔ y.exact < x.exact := by
  unfold gt
  by_cases hs : x.sign = y.sign
  · rw [if_neg (by simp [hs])]
    rcases x.sign_mem with h | h | h
    · -- both negative: the magnitudes are compared the other way round
      rw [if_neg (by omega), if_neg (by omega), magnitudeGt_iff, exact_eq, exact_eq, ← hs, h]
      push_cast
      constructor <;> intro hlt <;> linarith
    · rw [if_pos h, exact_eq, exact_eq, ← hs, h]
      simp
    · rw [if_neg (by omega), if_pos (by omega), magnitudeGt_iff, exact_eq, exact_eq, ← hs, h]
      push_cast
      constructor <;> intro hlt <;> linarith
  · rw [if_pos hs, decide_eq_true_eq]
    rcases lt_or_gt_of_ne hs with hlt | hgt
    · have h1 := exact_lt_of_sign_lt hlt
      constructor
      · intro h2
        omega
      · intro h2
        linarith
    · exact ⟨fun _ => exact_lt_of_sign_lt hgt, fun _ => hgt⟩

theorem sign_eq_of_exact_eq (h : x.exact = y.exact) : x.sign = y.sign := by
  rcases lt_trichotomy x.sign y.sign with hlt | heq | hgt
  · have h1 := exact_lt_of_sign_lt hlt
    linarith
  · exact heq
  · have h1 := exact_lt_of_sign_lt hgt
    linarith

/-- **Equal means equal:** all zeros are, and other values only to themselves. -/
theorem eq_iff_exact_eq : x.eq y = true ↔ x.exact = y.exact := by
  rw [eq_iff_cleared]
  constructor
  · intro h
    rw [← exact_cleared x, h, exact_cleared]
  · intro h
    have hs := sign_eq_of_exact_eq h
    by_cases hx : x.isZero = true
    · have hy : y.isZero = true := by rw [← sign_eq_zero_iff, ← hs, sign_eq_zero_iff, hx]
      rw [cleared_of_isZero hx, cleared_of_isZero hy]
    · have hy : ¬ y.isZero = true := by rw [← sign_eq_zero_iff, ← hs, sign_eq_zero_iff]; exact hx
      have hneg : x.neg = y.neg := by
        unfold sign at hs
        rw [if_neg hx, if_neg hy] at hs
        cases hxn : x.neg <;> cases hyn : y.neg <;> simp [hxn, hyn] at hs ⊢
      rw [Bool.not_eq_true] at hx hy
      have hmag : x.unpack.magnitude = y.unpack.magnitude := by
        rw [← abs_exact hx, ← abs_exact hy, h]
      obtain ⟨hexp, hman⟩ := (unpack_aligned x).eq_of_magnitude_eq (unpack_aligned y) hmag
      simp only [unpack, significand] at hexp hman
      have hexponent : x.exponent = y.exponent := by omega
      have hfraction : x.fraction = y.fraction := by omega
      rw [cleared_of_not_isZero hx, cleared_of_not_isZero hy]
      cases x
      cases y
      rw [Floating.mk.injEq]
      exact ⟨hneg, hfraction, hexponent⟩

/-- **The order of values is the order of the numbers they stand for.** -/
theorem compare_eq_cmp (x y : Floating p) : x.compare y = cmp x.exact y.exact := by
  unfold compare
  by_cases heq : x.eq y = true
  · rw [if_pos heq, (cmp_eq_eq_iff _ _).mpr (eq_iff_exact_eq.mp heq)]
  · rw [if_neg heq]
    rw [eq_iff_exact_eq] at heq
    by_cases hgt : x.gt y = true
    · rw [if_pos hgt, (cmp_eq_gt_iff _ _).mpr (gt_iff_exact_lt.mp hgt)]
    · rw [if_neg hgt]
      rw [gt_iff_exact_lt, not_lt] at hgt
      rw [(cmp_eq_lt_iff _ _).mpr (lt_of_le_of_ne hgt heq)]

/-! ## Whole numbers and wider values -/

theorem exact_widen (x : Single) : x.widen.exact = x.exact := by
  have hz : x.widen.isZero = x.isZero := rfl
  have hs : (x.widen.significand : ℚ) = x.significand * 2 ^ 32 := by
    have h : x.widen.significand = x.significand * 2 ^ 32 := by
      show 2 ^ 55 + x.fraction * 2 ^ 32 = (2 ^ 23 + x.fraction) * 2 ^ 32
      ring
    rw [h]
    push_cast
    rfl
  unfold exact
  rw [hz, hs]
  by_cases h : x.isZero = true
  · rw [if_pos h, if_pos h]
  · rw [if_neg h, if_neg h]
    show (if x.neg then (-1 : ℚ) else 1) * (x.significand * 2 ^ 32) * 2 ^ ((x.exponent : ℤ) - 128 - (56 : ℕ))
      = (if x.neg then (-1 : ℚ) else 1) * x.significand * 2 ^ ((x.exponent : ℤ) - 128 - (24 : ℕ))
    rw [show (x.exponent : ℤ) - 128 - (24 : ℕ) = (x.exponent : ℤ) - 128 - (56 : ℕ) + (32 : ℕ) by
      push_cast; ring, zpow_add₀ (by norm_num), zpow_natCast]
    ring

/-- The bits of a whole number, leading one restored, are where its length puts them. -/
theorem exponent_ofInt {n : ℕ} (h0 : n ≠ 0) (hn : n < 2 ^ p.manBits) :
    (ofInt (n : ℤ) : Floating p).exponent = 128 + bitLength n := by
  have hexp := congrArg Scratch.exp (unpack_ofInt (p := p) h0 hn)
  rw [exp_align_ofInt h0] at hexp
  have hcast : ((ofInt (n : ℤ) : Floating p).exponent : ℤ) = 128 + bitLength n := hexp
  omega

theorem isZero_ofInt {n : ℕ} (h0 : n ≠ 0) (hn : n < 2 ^ p.manBits) :
    (ofInt (n : ℤ) : Floating p).isZero = false := by
  rw [isZero, exponent_ofInt h0 hn, beq_eq_false_iff_ne]
  omega

theorem neg_ofInt {n : ℕ} (h0 : n ≠ 0) (hn : n < 2 ^ p.manBits) :
    (ofInt (n : ℤ) : Floating p).neg = false := by
  have hneg := congrArg Scratch.neg (unpack_ofInt (p := p) h0 hn)
  rw [align_neg] at hneg
  rw [show (ofInt (n : ℤ) : Floating p).neg = (Scratch.ofInt p n).neg from hneg]
  simp [Scratch.ofInt]

/-- The opposite of a whole number differs in the sign bit alone. -/
theorem ofInt_neg {n : ℕ} (h0 : n ≠ 0) :
    (ofInt (-(n : ℤ)) : Floating p) = (ofInt (n : ℤ)).negate := by
  have hneg : Scratch.ofInt p (-(n : ℤ)) = (Scratch.ofInt p n).negate := by
    have h1 : 0 < n := Nat.pos_of_ne_zero h0
    simp [Scratch.ofInt, Scratch.negate, h1]
  have hv : (Scratch.ofInt p n).align.vanishes = false := by
    rw [vanishes_eq_false_iff, exp_align_ofInt h0]
    exact ⟨(align_aligned (by rw [man_ofInt]; exact h0)).man_ne_zero, by omega⟩
  rw [ofInt, hneg, align_negate, saturate_negate hv]
  rfl

/-- **A whole number that fits the significand is worth itself.** -/
theorem exact_ofInt {n : ℤ} (hn : n.natAbs < 2 ^ p.manBits) : (ofInt n : Floating p).exact = n := by
  have hnat : ∀ m : ℕ, m < 2 ^ p.manBits → (ofInt (m : ℤ) : Floating p).exact = m := by
    intro m hm
    by_cases h0 : m = 0
    · rw [h0]
      exact exact_of_isZero rfl
    · rw [exact_eq, sign, if_neg (by simp [isZero_ofInt h0 hm]), if_neg (by simp [neg_ofInt h0 hm]),
        magnitude_unpack_ofInt h0 hm]
      simp
  obtain ⟨m, rfl | rfl⟩ := n.eq_nat_or_neg
  · rw [hnat m (by simpa using hn)]
    simp
  · by_cases h0 : m = 0
    · subst h0
      exact exact_of_isZero rfl
    · rw [ofInt_neg h0, exact_negate, hnat m (by simpa using hn)]
      simp

/-- A whole number that fits the significand splits with nothing below the point. -/
theorem split?_ofInt {n : ℕ} (h0 : n ≠ 0) (hn : n < 2 ^ p.manBits) :
    (ofInt (n : ℤ) : Floating p).split? = some ⟨n, 0, p.width - bitLength n⟩ := by
  have hbits : bitLength n ≤ p.manBits := bitLength_le hn
  have hwidth : p.width = p.manBits + 8 := rfl
  have hexp := exp_align_ofInt (p := p) h0
  have hman : (Scratch.ofInt p n).align.man = n * 2 ^ (p.width - bitLength n) := by
    rw [align_man_of_le (by rw [man_ofInt]; exact h0) (by rw [man_ofInt]; omega), man_ofInt]
  have hbelow : unitExp p - (Scratch.ofInt p n).align.exp = ((p.width - bitLength n : ℕ) : ℤ) := by
    rw [hexp, unitExp_eq]
    omega
  unfold split?
  rw [unpack_ofInt h0 hn]
  simp only [hbelow, hman, Int.toNat_natCast]
  rw [if_neg (by omega), Nat.mul_div_cancel _ (Nat.two_pow_pos _), Nat.mul_mod_left]

/-- **A whole number that fits the significand is read off again.** -/
theorem toInt?_ofInt {n : ℕ} (hn : n < 2 ^ p.manBits) :
    (ofInt (n : ℤ) : Floating p).toInt? = some (n : ℤ) := by
  by_cases h0 : n = 0
  · rw [h0]
    rfl
  · have hlt : n < 2 ^ 63 := hn.trans_le (by cases p <;> decide)
    have hnearest : (⟨n, 0, p.width - bitLength n⟩ : SplitMagnitude).nearest = n := by
      rw [SplitMagnitude.nearest, if_neg]
      rintro ⟨-, hle⟩
      have := Nat.two_pow_pos (p.width - bitLength n - 1)
      simp only at hle
      omega
    rw [toInt?, if_neg (by simp [isZero_ofInt h0 hn]), split?_ofInt h0 hn]
    simp only [hnearest, neg_ofInt h0 hn]
    rw [if_pos hlt]
    rfl

end Floating

end BasicNumerics
