/-
Numbers that fit so many bits, and steps that lose nothing on them.

A number fits `n` bits if it is a whole number below `2^n` moved by a power of two. Which power
it is does not matter, and neither do factors of two in the whole number, so what counts is the
odd part (`lt_of_fits_of_odd`): a divisor of a number that fits, fits too (`Fits.of_dvd`).

A cut to the working width keeps a number that fits the width as it is, whatever asks for the
mark (`CutOf.magnitude_eq`), and rounding keeps one that fits the significand. So an operation
whose exact result fits gives that result, as long as it is in range.
-/
import BasicNumerics.Proofs.Floating.Product
import BasicNumerics.Proofs.Floating.Quotient
import Mathlib.Data.Nat.Factorization.Basic

set_option autoImplicit false

namespace BasicNumerics

namespace Rounding

/-- `v` is a whole number of at most `bits` bits, moved by a power of two. -/
def Fits (bits : ℕ) (v : ℚ) : Prop := ∃ (m : ℕ) (k : ℤ), m < 2 ^ bits ∧ v = m * 2 ^ k

variable {bits : ℕ} {v : ℚ} {a c m : ℕ} {j k : ℤ}

theorem Fits.mono {wide : ℕ} (h : Fits bits v) (hle : bits ≤ wide) : Fits wide v := by
  obtain ⟨m, k, hm, hv⟩ := h
  exact ⟨m, k, hm.trans_le (Nat.pow_le_pow_right two_pos hle), hv⟩

/-- **A number that fits is not rounded.** -/
theorem Fits.roundBits_eq (h : Fits bits v) (hbits : 0 < bits) : roundBits bits v = v := by
  obtain ⟨m, k, hm, hv⟩ := h
  apply roundBits_eq_self (m := m) hbits _ hv
  rw [Nat.abs_cast]
  exact_mod_cast hm.le

/-- Two ways to write one number, the one with the lower power of two being whole in the other. -/
theorem mul_two_pow_eq (h : (a : ℚ) * 2 ^ k = m * 2 ^ j) (hle : j ≤ k) :
    a * 2 ^ (k - j).toNat = m := by
  have hk : k = ((k - j).toNat : ℤ) + j := by omega
  rw [hk, zpow_add₀ two_ne_zero, zpow_natCast, ← mul_assoc] at h
  exact_mod_cast mul_right_cancel₀ (zpow_ne_zero j two_ne_zero) h

/-- **The odd part of a number that fits has no more bits.** -/
theorem lt_of_fits_of_odd (ha : Odd a) (h : Fits bits (a * 2 ^ k)) : a < 2 ^ bits := by
  obtain ⟨m, j, hm, heq⟩ := h
  rcases le_or_gt j k with hle | hlt
  · have hmul := mul_two_pow_eq heq hle
    have hmost : a ≤ m := by
      rw [← hmul]
      exact Nat.le_mul_of_pos_right a (Nat.two_pow_pos _)
    exact hmost.trans_lt hm
  · -- a higher power of two on the other side would make the odd number even
    have hmul := mul_two_pow_eq heq.symm hlt.le
    have heven : Even (m * 2 ^ (j - k).toNat) := (even_two.pow_of_ne_zero (by omega)).mul_left m
    rw [hmul] at heven
    exact absurd ha (Nat.not_odd_iff_even.mpr heven)

/-- **What divides a number that fits, fits,** at any power of two. -/
theorem Fits.of_dvd (h : Fits bits (c * 2 ^ k)) (hc : c ≠ 0) (hac : a ∣ c) (j : ℤ) :
    Fits bits (a * 2 ^ j) := by
  obtain ⟨b, rfl⟩ := hac
  obtain ⟨s, a', ha', rfl⟩ := Nat.exists_eq_two_pow_mul_odd (left_ne_zero_of_mul hc)
  obtain ⟨r, b', hb', rfl⟩ := Nat.exists_eq_two_pow_mul_odd (right_ne_zero_of_mul hc)
  have hodd : a' * b' < 2 ^ bits := by
    apply lt_of_fits_of_odd (ha'.mul hb') (k := (s : ℤ) + r + k)
    rw [zpow_add₀ two_ne_zero, zpow_add₀ two_ne_zero, zpow_natCast, zpow_natCast]
    convert h using 1
    push_cast
    ring
  refine ⟨a', (s : ℤ) + j, (Nat.le_mul_of_pos_right a' hb'.pos).trans_lt hodd, ?_⟩
  rw [zpow_add₀ two_ne_zero, zpow_natCast]
  push_cast
  ring

end Rounding

open Rounding

namespace Scratch

variable {p : Precision} {mark : ℕ → Prop} [DecidablePred mark] {v : ℚ} {d : Scratch p}

/-- **A cut keeps a number that fits the width.** -/
theorem CutOf.magnitude_eq (h : CutOf mark v d) (hfit : Fits p.width v) : d.magnitude = v := by
  obtain ⟨m, k, hm, hv⟩ := hfit
  have hlong := h.le_div
  have hdiv : v / d.unit = m * 2 ^ (k - (d.exp - unitExp p)) := by
    rw [hv, unit, zpow_sub₀ two_ne_zero k, mul_div_assoc]
  rcases le_or_gt (d.exp - unitExp p) k with hle | hlt
  · -- a whole number of units, so there is nothing to mark
    have hwhole : v / d.unit = ((m * 2 ^ (k - (d.exp - unitExp p)).toNat : ℕ) : ℚ) := by
      rw [hdiv]
      conv_lhs => rw [show k - (d.exp - unitExp p) = ((k - (d.exp - unitExp p)).toNat : ℤ) by omega,
        zpow_natCast]
      push_cast
      rfl
    rw [magnitude, h.man_eq, hwhole, marked_natCast, ← hwhole, CutOf.div_mul_unit]
  · -- a finer power of two leaves too few bits to fill the width
    exfalso
    have hhalf : (2 : ℚ) ^ (k - (d.exp - unitExp p)) ≤ 2 ^ (-1 : ℤ) :=
      zpow_le_zpow_right₀ one_le_two (by omega)
    have hm' : (m : ℚ) < 2 ^ p.width := by exact_mod_cast hm
    have hw : (2 : ℚ) ^ p.width = 2 * 2 ^ (p.width - 1) := by exact_mod_cast p.two_pow_width
    have hsmall : (m : ℚ) * 2 ^ (k - (d.exp - unitExp p)) ≤ m * 2 ^ (-1 : ℤ) :=
      mul_le_mul_of_nonneg_left hhalf (Nat.cast_nonneg m)
    rw [← hdiv, zpow_neg_one] at hsmall
    linarith

/-- The exponent of an aligned value tells its leading bit. -/
theorem Aligned.two_zpow_le_iff (h : d.Aligned) (e : ℤ) : 2 ^ e ≤ d.magnitude ↔ e + 129 ≤ d.exp := by
  have hself : CutOf Even d.magnitude d := h.cutOf
  exact hself.two_zpow_le_iff e

theorem Aligned.magnitude_lt_iff (h : d.Aligned) (e : ℤ) : d.magnitude < 2 ^ e ↔ d.exp < e + 129 := by
  rw [← not_le, h.two_zpow_le_iff, not_le]

/-- A cut lies on the same side of every power of two. -/
theorem CutOf.two_zpow_le_magnitude_iff (h : CutOf mark v d) (e : ℤ) :
    2 ^ e ≤ d.magnitude ↔ 2 ^ e ≤ v := by
  rw [h.aligned.two_zpow_le_iff, h.two_zpow_le_iff]

/-- A value that fits the significand has an empty guard byte. -/
theorem Aligned.guard_dvd (h : d.Aligned) (hfit : Fits p.manBits d.magnitude) : 256 ∣ d.man := by
  obtain ⟨m, k, hm, hv⟩ := hfit
  have hw := p.two_pow_width_eq_mul
  have hw1 := p.two_pow_width
  have hlo := h.le_man
  rcases le_or_gt k (d.exp - unitExp p) with hle | hlt
  · have hmul := mul_two_pow_eq hv hle
    have hmost : d.man ≤ m := by
      rw [← hmul]
      exact Nat.le_mul_of_pos_right _ (Nat.two_pow_pos _)
    omega
  · have hmul := mul_two_pow_eq hv.symm hlt.le
    have hshift : 8 ≤ (k - (d.exp - unitExp p)).toNat := by
      by_contra hfew
      have hpow : 2 ^ (k - (d.exp - unitExp p)).toNat ≤ 2 ^ 7 :=
        Nat.pow_le_pow_right two_pos (by omega)
      have hshort : m * 2 ^ (k - (d.exp - unitExp p)).toNat ≤ m * 2 ^ 7 :=
        Nat.mul_le_mul_left m hpow
      omega
    rw [← hmul]
    exact Dvd.dvd.mul_left (pow_dvd_pow 2 hshift) m

/-- **A value in range that fits the significand is stored as it is.** -/
theorem Aligned.exists_pack_eq_ok_of_fits (h : d.Aligned) (hfit : Fits p.manBits d.magnitude)
    (hlo : 2 ^ (-128 : ℤ) ≤ d.magnitude) (hhi : d.magnitude < 2 ^ 127) :
    ∃ z, d.pack = .ok z ∧ z.isZero = false ∧ z.neg = d.neg ∧ z.unpack.magnitude = d.magnitude := by
  have hround := hfit.roundBits_eq (manBits_pos p)
  have hexp := (h.two_zpow_le_iff (-128)).mp hlo
  obtain ⟨z, hz, hnonzero, hneg, hmag, -⟩ := h.exists_pack_eq_ok (by omega)
    (by rw [hround]; exact hhi)
  exact ⟨z, hz, hnonzero, hneg, hmag.trans hround⟩

end Scratch

namespace Floating

open Scratch

variable {p : Precision} {x y : Floating p}

/-- **A product in range that fits the significand is exact.** -/
theorem exists_mul_eq_ok_of_fits (hx : x.isZero = false) (hy : y.isZero = false)
    (hfit : Fits p.manBits (x.unpack.magnitude * y.unpack.magnitude))
    (hlo : 2 ^ (-128 : ℤ) ≤ x.unpack.magnitude * y.unpack.magnitude)
    (hhi : x.unpack.magnitude * y.unpack.magnitude < 2 ^ 127) :
    ∃ z, x.mul y = .ok z ∧ z.isZero = false ∧ z.exact = x.exact * y.exact := by
  have hcut := cutOf_cutProduct (unpack_aligned x) (unpack_aligned y)
  have hwidth : p.manBits ≤ p.width := Nat.le_add_right _ _
  have hround : roundBits p.manBits (x.unpack.cutProduct y.unpack).magnitude
      = x.unpack.magnitude * y.unpack.magnitude := by
    rw [hcut.magnitude_eq (hfit.mono hwidth), hfit.roundBits_eq (manBits_pos p)]
  obtain ⟨z, hz, hnonzero, hexact, -⟩ := exists_mul_eq_ok hx hy hlo (by rw [hround]; exact hhi)
  refine ⟨z, hz, hnonzero, ?_⟩
  rw [hexact, hround, exact_mul_exact hx hy]

/-- A product past the range overflows; neither the cut nor rounding takes it back. -/
theorem mul_eq_overflow (hx : x.isZero = false) (hy : y.isZero = false)
    (h : 2 ^ 127 ≤ x.unpack.magnitude * y.unpack.magnitude) :
    x.mul y = .error (.overflow (.max (x.neg != y.neg))) := by
  have hcut := cutOf_cutProduct (unpack_aligned x) (unpack_aligned y)
  have hlimit : (2 : ℚ) ^ (127 : ℤ) ≤ (x.unpack.cutProduct y.unpack).magnitude :=
    (hcut.two_zpow_le_magnitude_iff 127).mpr (by exact_mod_cast h)
  have hround := two_zpow_le_roundBits (manBits_pos p) hlimit
  rw [mul_eq_pack_cutProduct hx hy, hcut.aligned.pack_of_le (by exact_mod_cast hround)]
  rfl

theorem div_eq_pack (hx : x.isZero = false) (hy : y.isZero = false) :
    x.div y = (x.unpack.div y.unpack).pack := by
  rw [div, if_neg (by simp [hy]), if_neg (by simp [hx])]

/-- **A quotient in range that fits the significand is exact.** -/
theorem exists_div_eq_ok_of_fits (hx : x.isZero = false) (hy : y.isZero = false)
    (hfit : Fits p.manBits (x.unpack.magnitude / y.unpack.magnitude))
    (hlo : 2 ^ (-128 : ℤ) ≤ x.unpack.magnitude / y.unpack.magnitude)
    (hhi : x.unpack.magnitude / y.unpack.magnitude < 2 ^ 127) :
    ∃ z, x.div y = .ok z ∧ z.isZero = false ∧ z.exact = x.exact / y.exact := by
  obtain ⟨z, hz, hnonzero, hneg, hmag⟩ :=
    exists_pack_div_eq_ok (stored_unpack hx) (stored_unpack hy) hlo hhi
  refine ⟨z, (div_eq_pack hx hy).trans hz, hnonzero, ?_⟩
  rw [exact_eq_signed hnonzero, exact_eq_signed hx, exact_eq_signed hy, signed_div, hneg, hmag,
    hfit.roundBits_eq (manBits_pos p)]
  rfl

end Floating

end BasicNumerics
