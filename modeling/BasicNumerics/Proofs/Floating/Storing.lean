/-
What is stored for a working value.

Storing rounds the guard byte of the aligned value to even and folds a carry into
the exponent. The stored value, read back as a working value, is therefore within
half of the last place that is kept, which is `128` units of the aligned
significand; and a value whose guard byte is empty comes back unchanged. Both are
stated through `unpack`, since that is how the next operation reads its operand.

The last section does the same for whole numbers: those that fit the significand
are stored exactly, and a working value is read off as the nearest whole number.
-/
import BasicNumerics.Proofs.Floating.Magnitude

set_option autoImplicit false

namespace BasicNumerics

open Rounding

namespace Scratch

variable {p : Precision}

/-! ## Rounding the guard byte -/

/-- The rounded significand has the bits of the precision, or is one past them. -/
theorem nearestEven_mem_of_aligned {d : Scratch p} (h : d.Aligned) :
    2 ^ (p.manBits - 1) ≤ nearestEven d.man 8 ∧ nearestEven d.man 8 ≤ 2 ^ p.manBits := by
  have hw := p.two_pow_width_eq_mul
  have hw1 := p.two_pow_width
  have hm := p.two_pow_manBits
  have hlo := h.le_man
  have hhi := h.man_lt
  -- the quotient or the next number; either way the carry reaches the limit at most
  rcases nearestEven_mem d.man 8 with he | he <;> omega

/-- The significand that is stored has exactly the bits of the precision. -/
theorem round_fst_mem {d : Scratch p} (h : d.Aligned) :
    2 ^ (p.manBits - 1) ≤ d.round.1 ∧ d.round.1 < 2 ^ p.manBits := by
  have hm := p.two_pow_manBits
  have hpos := Nat.two_pow_pos (p.manBits - 1)
  have hq := nearestEven_mem_of_aligned h
  unfold round
  split
  · exact ⟨le_rfl, by simp only; omega⟩
  · next hne => exact ⟨hq.1, lt_of_le_of_ne hq.2 hne⟩

/-- The exponent that is stored is that of the value, or one more after a carry. -/
theorem round_snd_mem (d : Scratch p) : d.exp ≤ d.round.2 ∧ d.round.2 ≤ d.exp + 1 := by
  unfold round
  split
  · simp only
    omega
  · simp only
    omega

/-- A carry moves into the exponent without changing what the pair is worth. -/
theorem round_worth (d : Scratch p) :
    (d.round.1 : ℚ) * 256 * 2 ^ (d.round.2 - unitExp p) = nearestEven d.man 8 * 256 * d.unit := by
  unfold round
  split
  · next hq =>
    have hm : (2 : ℚ) ^ p.manBits = 2 * 2 ^ (p.manBits - 1) := by exact_mod_cast p.two_pow_manBits
    have hu := two_zpow_add (p := p) d.exp 1
    push_cast at hu
    rw [hq, unit, hu]
    push_cast
    rw [hm]
    ring
  · rfl

/-- **Rounding away the guard byte moves a value by at most half of the last place
that is kept.** -/
theorem abs_round_sub_le (d : Scratch p) :
    |(d.round.1 : ℚ) * 256 * 2 ^ (d.round.2 - unitExp p) - d.magnitude| ≤ 128 * d.unit := by
  obtain ⟨h1, h2⟩ := nearestEven_bounds d.man 8
  have h1' : (2 : ℚ) * (nearestEven d.man 8 * 256) ≤ 2 * d.man + 256 := by exact_mod_cast h1
  have h2' : (2 : ℚ) * d.man ≤ 2 * (nearestEven d.man 8 * 256) + 256 := by exact_mod_cast h2
  have habs : |(nearestEven d.man 8 : ℚ) * 256 - d.man| ≤ 128 := by
    rw [abs_le]
    constructor <;> linarith
  rw [round_worth, magnitude, ← sub_mul, abs_mul, abs_of_pos d.unit_pos]
  exact mul_le_mul_of_nonneg_right habs d.unit_pos.le

/-! ## Storing -/

theorem vanishes_eq_false_iff (d : Scratch p) : d.vanishes = false ↔ d.man ≠ 0 ∧ 0 < d.exp := by
  simp [vanishes]

/-- The parts of what is stored. Taking the leading one out and putting it back is no change. -/
theorem saturate_parts {d : Scratch p} (hv : d.vanishes = false) (hhi : d.align.round.2 ≤ 255) :
    d.saturate.neg = d.neg ∧ d.saturate.significand = d.align.round.1
      ∧ d.saturate.exponent = d.align.round.2.toNat := by
  have hm := p.two_pow_manBits
  have hr := round_fst_mem (align_aligned ((vanishes_eq_false_iff d).mp hv).1)
  have hsig : 2 ^ (p.manBits - 1) + d.align.round.1 % 2 ^ (p.manBits - 1) = d.align.round.1 := by
    rw [Nat.mod_eq_sub_mod hr.1, Nat.mod_eq_of_lt (by omega)]
    omega
  rw [saturate, if_neg (by simp [hv]), dif_neg (by omega)]
  exact ⟨rfl, hsig, rfl⟩

/-- **What is stored, read back:** the rounded significand behind the rounded
exponent, as long as that exponent fits its byte. -/
theorem unpack_saturate {d : Scratch p} (hv : d.vanishes = false)
    (hhi : d.align.round.2 ≤ 255) (hlo : 0 ≤ d.align.round.2) :
    d.saturate.unpack = { exp := d.align.round.2, man := d.align.round.1 * 256, neg := d.neg } := by
  obtain ⟨hneg, hsig, hexp⟩ := saturate_parts hv hhi
  rw [Floating.unpack, hneg, hsig, hexp, Int.toNat_of_nonneg hlo]

/-- **What a successful store of a nonzero value means:** the value was not too
small before it was aligned, and its rounded exponent fits. -/
theorem pack_eq_ok_nonzero {d : Scratch p} {x : Floating p} (h : d.pack = .ok x)
    (hx : x.isZero = false) :
    d.vanishes = false ∧ 0 < d.align.round.2 ∧ d.align.round.2 ≤ 255 ∧ x = d.saturate := by
  have hno : d.overflows = false := by
    by_contra ho
    rw [pack, if_pos (by simpa using ho)] at h
    exact absurd h (by simp)
  rw [pack, if_neg (by simp [hno])] at h
  have hxs : x = d.saturate := (Except.ok.inj h).symm
  have hv : d.vanishes = false := by
    by_contra hv
    rw [hxs, saturate, if_pos (by simpa using hv)] at hx
    exact absurd hx (by simp)
  have hhi : d.align.round.2 ≤ 255 := by
    simp only [overflows, hv, Bool.not_false, Bool.true_and, decide_eq_false_iff_not] at hno
    omega
  refine ⟨hv, ?_, hhi, hxs⟩
  -- An exponent that is not positive is stored as the byte zero.
  by_contra hle
  rw [hxs, saturate, if_neg (by simp [hv]), dif_neg (by omega)] at hx
  simp only [Floating.isZero, beq_eq_false_iff_ne] at hx
  omega

/-- **An aligned value with an empty guard byte is stored exactly.** -/
theorem unpack_saturate_of_exact {d : Scratch p} (hv : d.vanishes = false)
    (hguard : 256 ∣ d.align.man) (hlo : 0 ≤ d.align.exp) (hhi : d.align.exp ≤ 255) :
    d.saturate.unpack = d.align := by
  have ha := align_aligned ((vanishes_eq_false_iff d).mp hv).1
  obtain ⟨q, hq⟩ := hguard
  have hnear : nearestEven d.align.man 8 = q := by
    rw [hq, Nat.mul_comm]
    exact nearestEven_mul_two_pow q 8
  have hlt : q < 2 ^ p.manBits := by
    have h1 := ha.man_lt
    rw [hq, p.two_pow_width_eq_mul] at h1
    omega
  -- no carry: the quotient is exact and was below the limit
  have hround : d.align.round = (q, d.align.exp) := by
    rw [round, hnear, if_neg hlt.ne]
  rw [unpack_saturate hv (by rw [hround]; exact hhi) (by rw [hround]; exact hlo), hround,
    ← align_neg d, Nat.mul_comm q, ← hq]

/-! ## Reading values -/

/-- Reading a value restores an aligned significand. -/
theorem unpack_aligned (x : Floating p) : x.unpack.Aligned := by
  have hw := p.two_pow_width_eq_mul
  have hw1 := p.two_pow_width
  have hm := p.two_pow_manBits
  have h1 := x.le_significand
  have h2 := x.significand_lt
  refine ⟨?_, ?_⟩
  · show 2 ^ (p.width - 1) ≤ x.significand * 256
    omega
  · show x.significand * 256 < 2 ^ p.width
    omega

/-! ## Whole numbers -/

theorem man_ofInt (n : ℕ) : (ofInt p n).man = n := Int.natAbs_natCast n

theorem exp_align_ofInt {n : ℕ} (h0 : n ≠ 0) : (ofInt p n).align.exp = 128 + bitLength n := by
  rw [align_exp (by rw [man_ofInt]; exact h0), man_ofInt]
  show unitExp p + bitLength n - p.width = _
  rw [unitExp_eq]
  ring

/-- **A whole number that fits the significand is stored exactly.** -/
theorem unpack_ofInt {n : ℕ} (h0 : n ≠ 0) (hn : n < 2 ^ p.manBits) :
    (Floating.ofInt (n : ℤ) : Floating p).unpack = (ofInt p n).align := by
  have hle : bitLength n ≤ p.manBits := bitLength_le hn
  have hwidth : p.width = p.manBits + 8 := rfl
  have hmb : p.manBits ≤ 56 := by cases p <;> decide
  have ha : (ofInt p n).align.Aligned := align_aligned (by rw [man_ofInt]; exact h0)
  have hexp := exp_align_ofInt (p := p) h0
  have hv : (ofInt p n).align.vanishes = false := by
    rw [vanishes_eq_false_iff, hexp]
    exact ⟨ha.man_ne_zero, by omega⟩
  rw [Floating.ofInt, unpack_saturate_of_exact hv, ha.align_eq]
  · -- the bits below the number's own are clear, the guard byte among them
    rw [ha.align_eq, align_man_of_le (by rw [man_ofInt]; exact h0) (by rw [man_ofInt]; omega),
      man_ofInt]
    refine Dvd.dvd.mul_left ?_ n
    rw [show p.width - bitLength n = 8 + (p.manBits - bitLength n) by omega, Nat.pow_add]
    exact Nat.dvd_mul_right _ _
  · rw [ha.align_eq, hexp]
    omega
  · rw [ha.align_eq, hexp]
    omega

theorem magnitude_ofInt (n : ℕ) : (ofInt p n).magnitude = n := by
  rw [magnitude, unit]
  show (((n : ℤ).natAbs : ℕ) : ℚ) * 2 ^ (unitExp p - unitExp p) = n
  simp

theorem magnitude_unpack_ofInt {n : ℕ} (h0 : n ≠ 0) (hn : n < 2 ^ p.manBits) :
    (Floating.ofInt (n : ℤ) : Floating p).unpack.magnitude = n := by
  rw [unpack_ofInt h0 hn, magnitude_align_of_le, magnitude_ofInt]
  rw [man_ofInt]
  exact (bitLength_le hn).trans (Nat.le_add_right _ _)

/-- A power of ten that fits the significand, as a limit for scaling. -/
theorem unpack_ofInt_ten_pow {t : ℕ} (ht : 10 ^ t < 2 ^ p.manBits) :
    (Floating.ofInt (10 ^ t : ℕ) : Floating p).unpack.magnitude = 10 ^ t
      ∧ 129 ≤ (Floating.ofInt (10 ^ t : ℕ) : Floating p).unpack.exp
      ∧ (Floating.ofInt (10 ^ t : ℕ) : Floating p).unpack.exp ≤ 184 := by
  have h0 : 10 ^ t ≠ 0 := (Nat.pow_pos (by norm_num)).ne'
  have hexp : (Floating.ofInt (10 ^ t : ℕ) : Floating p).unpack.exp = 128 + bitLength (10 ^ t) := by
    rw [unpack_ofInt h0 ht, exp_align_ofInt h0]
  have hmb : p.manBits ≤ 56 := by cases p <;> decide
  have hpos := bitLength_pos h0
  have hle := bitLength_le ht
  refine ⟨?_, by omega, by omega⟩
  have hmag := magnitude_unpack_ofInt (p := p) h0 ht
  push_cast at hmag
  exact hmag

/-- **The nearest whole number is at most half a unit below and less than half a
unit above** the magnitude. -/
theorem nearestNat_bounds (d : Scratch p) :
    (d.nearestNat : ℚ) ≤ d.magnitude + 1 / 2 ∧ d.magnitude < d.nearestNat + 1 / 2 := by
  unfold nearestNat
  by_cases hb : unitExp p - d.exp ≤ 0
  · have hexp : d.exp = unitExp p + ((-(unitExp p - d.exp)).toNat : ℕ) := by omega
    have hmag : d.magnitude = ((d.man * 2 ^ (-(unitExp p - d.exp)).toNat : ℕ) : ℚ) := by
      rw [magnitude, unit]
      conv_lhs => rw [hexp, two_zpow_add]
      push_cast
      simp
    simp only [if_pos hb]
    rw [hmag]
    constructor <;> linarith
  · -- With `b + 1` bits below the point, the bit below the units is the half.
    obtain ⟨b, hbelow⟩ : ∃ b : ℕ, unitExp p - d.exp = b + 1 :=
      ⟨(unitExp p - d.exp - 1).toNat, by omega⟩
    have hnat : (unitExp p - d.exp).toNat = b + 1 := by omega
    simp only [if_neg hb, hnat, Nat.add_sub_cancel]
    have hmag : d.magnitude * 2 ^ (b + 1) = d.man := by
      have h1 : d.exp - unitExp p = -((b + 1 : ℕ) : ℤ) := by push_cast; omega
      rw [magnitude, unit, h1, zpow_neg, zpow_natCast]
      field_simp
    have hsplit : 2 ^ b * (d.man / 2 ^ b) + d.man % 2 ^ b = d.man := Nat.div_add_mod _ _
    have hrest : d.man % 2 ^ b < 2 ^ b := Nat.mod_lt _ (Nat.two_pow_pos b)
    have hhalf : d.man / 2 ^ (b + 1) = d.man / 2 ^ b / 2 := by
      rw [Nat.pow_succ, ← Nat.div_div_eq_div_mul]
    rw [hhalf]
    set q := d.man / 2 ^ b with hq
    have hq2 : 2 * (q / 2 + q % 2) ≤ q + 1 ∧ q ≤ 2 * (q / 2 + q % 2) := by omega
    have hlo : (2 : ℚ) * ((q / 2 + q % 2 : ℕ) : ℚ) ≤ q + 1 := by exact_mod_cast hq2.1
    have hhi : (q : ℚ) ≤ 2 * ((q / 2 + q % 2 : ℕ) : ℚ) := by exact_mod_cast hq2.2
    have hlo' : (2 : ℚ) ^ b * q ≤ d.man := by exact_mod_cast (show 2 ^ b * q ≤ d.man by omega)
    have hhi' : (d.man : ℚ) < 2 ^ b * q + 2 ^ b := by
      exact_mod_cast (show d.man < 2 ^ b * q + 2 ^ b by omega)
    have hpos : (0 : ℚ) < 2 ^ b := by positivity
    have hpow : (2 : ℚ) ^ (b + 1) = 2 * 2 ^ b := by ring
    rw [hpow] at hmag
    generalize ((q / 2 + q % 2 : ℕ) : ℚ) = n at hlo hhi ⊢
    constructor <;> nlinarith

end Scratch

end BasicNumerics
