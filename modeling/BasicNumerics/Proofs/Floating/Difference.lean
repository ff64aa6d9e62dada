/-
Differences of two values of one sign.

A difference is taken at the larger exponent, as a sum is, and then its guard byte is
trimmed: below an even significand the bytes from `80` to `BF` go down by half a place
unless their low five bits are clear. There are two cases.

Where the exponents differ by at most one, nothing is cut off the smaller operand, and the
low bits of the difference are clear, so nothing is trimmed either. The difference is
exact, however many leading bits cancel, and it is rounded once; if the operands are within
a factor of two of each other, it needs no rounding.

Where they differ by more, the leading bit moves down by at most one place. The trimmed
half place is then a whole one of the result, but a significand that was trimmed is always
rounded down afterwards by less than half a place, and what is cut off counts the other
way. That makes less than one and a half places in all (`abs_roundBits_trim_sub_lt`).
-/
import BasicNumerics.Proofs.Floating.Sum

set_option autoImplicit false

namespace BasicNumerics

open Rounding

namespace Scratch

variable {p : Precision} {d small large : Scratch p}

/-! ## Trimming -/

/-- With the low five bits clear and nothing cut, no guard byte is trimmed. -/
theorem trimDifference_of_dvd {m : ℕ} (h : 32 ∣ m) : trimDifference m false = m := by
  show (if 128 ≤ m % 512 ∧ m % 512 < 192 ∧ m % 32 ≠ 0 then m - 128 else m) = m
  exact if_neg (by omega)

/-- Trimming takes something off the guard byte, and leaves the bits above it. -/
theorem trimDifference_mem {c m : ℕ} (lost : Bool) (h : 512 * c < m) :
    512 * c ≤ trimDifference m lost ∧ trimDifference m lost ≤ m := by
  simp only [trimDifference, Bool.and_eq_true, beq_iff_eq]
  split_ifs <;> omega

/-- **A significand that was trimmed and then rounded** at its last place `2^k` is less than
one and a half places off, from below also if up to a unit was cut off the difference. -/
theorem nearestEven_trimDifference {k : ℕ} (hk : k = 7 ∨ k = 8) (m : ℕ) (lost : Bool) :
    2 * (nearestEven (trimDifference m lost) k * 2 ^ k) + 2 ≤ 2 * m + 3 * 2 ^ k ∧
      2 * m < 2 * (nearestEven (trimDifference m lost) k * 2 ^ k) + 3 * 2 ^ k := by
  rcases hk with rfl | rfl
  · simp only [trimDifference, nearestEven, Bool.and_eq_true, beq_iff_eq, Nat.reducePow]
    split_ifs <;> omega
  · simp only [trimDifference, nearestEven, Bool.and_eq_true, beq_iff_eq, Nat.reducePow]
    split_ifs <;> omega

/-- A significand with its leading bit in one of the top two places of the width has eight or
seven bits below its last place. -/
theorem exists_place {m : ℕ} (hlo : 2 ^ (p.width - 2) ≤ m) (hhi : m < 2 ^ p.width) :
    ∃ k, (k = 7 ∨ k = 8) ∧ 2 ^ (p.manBits - 1 + k) ≤ m ∧ m < 2 ^ (p.manBits + k) := by
  have hwidth : p.width = p.manBits + 8 := rfl
  have hb := manBits_pos p
  rcases lt_or_ge m (2 ^ (p.width - 1)) with hshort | hlong
  · refine ⟨7, Or.inl rfl, ?_, hshort⟩
    rw [show p.manBits - 1 + 7 = p.width - 2 by omega]
    exact hlo
  · refine ⟨8, Or.inr rfl, ?_, hhi⟩
    rw [show p.manBits - 1 + 8 = p.width - 1 by omega]
    exact hlong

/-- **Trimming, as magnitudes:** a difference `n - f`, of which `f` was cut off, is rounded to
within one and a half of its last places. -/
theorem abs_roundBits_trim_sub_lt {n : ℕ} {lost : Bool} {f : ℚ} (h0 : 0 ≤ f) (h1 : f < 1)
    (hlo : 2 ^ (p.width - 2) ≤ trimDifference n lost)
    (hhi : trimDifference n lost < 2 ^ p.width) (j : ℤ) :
    |roundBits p.manBits (trimDifference n lost * 2 ^ j) - (n - f) * 2 ^ j|
      < 3 / 2 * lastPlace p.manBits (trimDifference n lost * 2 ^ j) := by
  obtain ⟨k, hk, hklo, hkhi⟩ := exists_place hlo hhi
  obtain ⟨hlast, hround⟩ := roundBits_of_bits le_rfl one_pos (manBits_pos p) hklo hkhi j
  rw [add_zero] at hlast hround
  rw [hlast, hround, nearestInt_div_two_pow]
  obtain ⟨hle, hlt⟩ := nearestEven_trimDifference hk n lost
  generalize nearestEven (trimDifference n lost) k = q at *
  have hle' : 2 * ((q : ℚ) * 2 ^ k) + 2 ≤ 2 * n + 3 * 2 ^ k := by exact_mod_cast hle
  have hlt' : 2 * (n : ℚ) < 2 * (q * 2 ^ k) + 3 * 2 ^ k := by exact_mod_cast hlt
  have hj : (0 : ℚ) < 2 ^ j := by positivity
  have habs : |(q : ℚ) * 2 ^ k - (n - f)| < 3 / 2 * 2 ^ k := by
    rw [abs_lt]
    constructor <;> linarith
  calc |((q : ℤ) : ℚ) * (2 ^ k * 2 ^ j) - (n - f) * 2 ^ j|
      = |(q : ℚ) * 2 ^ k - (n - f)| * 2 ^ j := by
        rw [← abs_of_pos hj, ← abs_mul, abs_of_pos hj, Int.cast_natCast]
        congr 1
        ring
    _ < 3 / 2 * 2 ^ k * 2 ^ j := mul_lt_mul_of_pos_right habs hj
    _ = 3 / 2 * (2 ^ k * 2 ^ j) := by ring

/-! ## The working difference -/

/-- The distance of two magnitudes. -/
def gap (small large : Scratch p) : ℚ := |large.magnitude - small.magnitude|

/-- How far the significands are apart at the larger exponent, after the cut. -/
def apart (small large : Scratch p) : ℕ :=
  (large.man - kept small large) + (kept small large - large.man)

theorem addOrdered_of_ne (hneg : small.neg ≠ large.neg) :
    addOrdered small large =
      { exp := large.exp
        man := trimDifference (apart small large) (small.man % 2 ^ shiftTo small large != 0)
        neg := if kept small large ≤ large.man then large.neg else small.neg } := by
  have hkept : small.man / 2 ^ (large.exp - small.exp).toNat = kept small large := rfl
  unfold addOrdered apart
  simp only [if_neg hneg, hkept]
  split
  · next hle =>
    rw [Nat.sub_eq_zero_of_le hle, Nat.add_zero]
    rfl
  · next hgt =>
    rw [Nat.sub_eq_zero_of_le (not_le.mp hgt).le, Nat.zero_add]
    rfl

theorem gap_eq (hexp : small.exp ≤ large.exp) :
    gap small large = |(large.man : ℚ) - kept small large - dropped small large| * large.unit := by
  rw [gap, magnitude_eq_kept_add_dropped hexp, magnitude, ← abs_of_pos large.unit_pos, ← abs_mul,
    abs_of_pos large.unit_pos]
  congr 1
  ring

/-- A value that is moved by `j` places ends below the top `j` bits of the width. -/
theorem kept_lt_of_le {j : ℕ} (hs : small.Aligned) (hw : j ≤ p.width) (hj : j ≤ shiftTo small large) :
    kept small large < 2 ^ (p.width - j) := by
  apply Nat.div_lt_of_lt_mul
  calc small.man < 2 ^ p.width := hs.man_lt
    _ = 2 ^ j * 2 ^ (p.width - j) := by rw [← Nat.pow_add, Nat.add_sub_cancel' hw]
    _ ≤ 2 ^ shiftTo small large * 2 ^ (p.width - j) :=
        Nat.mul_le_mul_right _ (Nat.pow_le_pow_right two_pos hj)

/-- What is moved by at most one place loses only bits of its empty guard byte. -/
theorem kept_of_close (hs : small.Stored) (hk : shiftTo small large ≤ 1) :
    128 ∣ kept small large ∧ small.man % 2 ^ shiftTo small large = 0 := by
  have hguard := hs.guard
  unfold kept
  obtain hk | hk : shiftTo small large = 0 ∨ shiftTo small large = 1 := by omega
  · rw [hk]
    omega
  · rw [hk]
    omega

/-- **Exponents at most one apart:** the working difference is the exact one. -/
theorem addOrdered_of_close (hs : small.Stored) (hl : large.Stored) (hexp : small.exp ≤ large.exp)
    (hneg : small.neg ≠ large.neg) (hk : shiftTo small large ≤ 1) :
    (addOrdered small large).man = apart small large ∧ 128 ∣ apart small large ∧
      (addOrdered small large).magnitude = gap small large := by
  obtain ⟨hdvd, hmod⟩ := kept_of_close hs hk
  have hguard := hl.guard
  have hdvd' : 128 ∣ apart small large := by
    unfold apart
    omega
  have hman : (addOrdered small large).man = apart small large := by
    rw [addOrdered_of_ne hneg, hmod]
    exact trimDifference_of_dvd (by omega)
  refine ⟨hman, hdvd', ?_⟩
  have hdropped : dropped small large = 0 := by rw [dropped, hmod, Nat.cast_zero, zero_div]
  have hunit : (addOrdered small large).unit = large.unit := by rw [addOrdered_of_ne hneg]; rfl
  rw [magnitude, hman, hunit, gap_eq hexp, hdropped, sub_zero, apart]
  rcases le_total (kept small large) large.man with hle | hge
  · rw [Nat.sub_eq_zero_of_le hle, Nat.add_zero, Nat.cast_sub hle,
      abs_of_nonneg (sub_nonneg.mpr (by exact_mod_cast hle))]
  · rw [Nat.sub_eq_zero_of_le hge, Nat.zero_add, Nat.cast_sub hge,
      abs_of_nonpos (sub_nonpos.mpr (by exact_mod_cast hge)), neg_sub]

/-- **Exponents further apart:** the larger operand keeps half of its leading part, and the
exact difference is that of the significands less what was cut. -/
theorem apart_of_far (hs : small.Stored) (hl : large.Stored) (hexp : small.exp ≤ large.exp)
    (hk : 2 ≤ shiftTo small large) :
    2 ^ (p.width - 2) < apart small large ∧ apart small large ≤ large.man ∧
      gap small large = (apart small large - dropped small large) * large.unit := by
  have hkept := kept_lt_of_le hs.aligned p.two_le_width hk
  have hman := hl.aligned.le_man
  have hpow := p.two_pow_width_sub_one
  have hle : kept small large ≤ large.man := by omega
  have happart : apart small large = large.man - kept small large := by
    unfold apart
    omega
  refine ⟨by omega, by omega, ?_⟩
  rw [gap_eq hexp, happart, Nat.cast_sub hle, abs_of_nonneg]
  have hone : (1 : ℚ) ≤ large.man - kept small large := by
    have hsucc : (kept small large : ℚ) + 1 ≤ large.man := by
      exact_mod_cast (show kept small large + 1 ≤ large.man by omega)
    linarith
  have hlt := dropped_lt_one small large
  linarith

/-- What is cut off the smaller operand does not change which magnitude is the larger. -/
theorem kept_le_iff (hs : small.Stored) (hl : large.Stored) (hexp : small.exp ≤ large.exp) :
    kept small large ≤ large.man ↔ small.magnitude ≤ large.magnitude := by
  have h0 := dropped_nonneg small large
  have h1 := dropped_lt_one small large
  rw [magnitude_eq_kept_add_dropped hexp, magnitude, mul_le_mul_iff_left₀ large.unit_pos]
  constructor
  · intro hle
    rcases Nat.eq_zero_or_pos (shiftTo small large) with hk | hk
    · have hmod : small.man % 2 ^ shiftTo small large = 0 := (kept_of_close hs (by omega)).2
      rw [dropped, hmod, Nat.cast_zero, zero_div, add_zero]
      exact_mod_cast hle
    · have hlt : kept small large < 2 ^ (p.width - 1) := kept_lt_of_le hs.aligned p.width_pos hk
      have hman := hl.aligned.le_man
      have hsucc : (kept small large : ℚ) + 1 ≤ large.man := by
        exact_mod_cast (show kept small large + 1 ≤ large.man by omega)
      linarith
  · intro hle
    have hcast : (kept small large : ℚ) ≤ large.man := by linarith
    exact_mod_cast hcast

/-- **The sign of the working difference** is that of the larger magnitude. -/
theorem signed_gap (hs : small.Stored) (hl : large.Stored) (hexp : small.exp ≤ large.exp)
    (hneg : small.neg ≠ large.neg) :
    signed (addOrdered small large).neg (gap small large)
      = signed large.neg large.magnitude + signed small.neg small.magnitude := by
  rw [addOrdered_of_ne hneg, gap, Bool.eq_not.mpr hneg]
  simp only [kept_le_iff hs hl hexp]
  split
  · next hle =>
    rw [abs_of_nonneg (sub_nonneg.mpr hle), signed_sub, signed_not, sub_eq_add_neg]
  · next hgt =>
    rw [abs_of_nonpos (sub_nonpos.mpr (not_le.mp hgt).le), neg_sub, signed_sub, signed_not,
      signed_not]
    ring

/-! ## What is stored -/

/-- A significand that leaves the last step before a carry free rounds to something in range. -/
theorem roundBits_lt_of_man_le (hman : d.man + 256 ≤ 2 ^ p.width) (hexp : d.exp ≤ 255) :
    roundBits p.manBits d.magnitude < 2 ^ 127 := by
  have hw := p.two_pow_width_eq_mul
  have hbits : |(2 ^ p.manBits - 1 : ℤ)| ≤ 2 ^ p.manBits := by
    have hone : (1 : ℤ) ≤ 2 ^ p.manBits := one_le_pow₀ one_le_two
    rw [abs_of_nonneg (by omega)]
    omega
  have hunit : (2 : ℚ) ^ (d.exp + (8 : ℕ) - unitExp p) = 256 * d.unit := by
    rw [two_zpow_add, unit]
    norm_num
  have hwidth : (2 : ℚ) ^ p.width = 2 ^ p.manBits * 256 := by exact_mod_cast hw
  have hle : d.magnitude ≤ ((2 ^ p.manBits - 1 : ℤ) : ℚ) * 2 ^ (d.exp + (8 : ℕ) - unitExp p) := by
    have hcast : (d.man : ℚ) + 256 ≤ 2 ^ p.width := by exact_mod_cast hman
    rw [hunit, ← mul_assoc, magnitude]
    apply mul_le_mul_of_nonneg_right _ d.unit_pos.le
    push_cast
    linarith
  calc roundBits p.manBits d.magnitude
      ≤ ((2 ^ p.manBits - 1 : ℤ) : ℚ) * 2 ^ (d.exp + (8 : ℕ) - unitExp p) :=
        roundBits_le (manBits_pos p) hbits hle
    _ < 2 ^ p.width * d.unit := by
        rw [hunit, ← mul_assoc]
        apply mul_lt_mul_of_pos_right _ d.unit_pos
        push_cast
        linarith
    _ = 2 ^ (d.exp - 128) := (two_zpow_exp d).symm
    _ ≤ 2 ^ (127 : ℤ) := zpow_le_zpow_right₀ one_le_two (by omega)
    _ = 2 ^ 127 := by norm_cast

/-- A difference that is shorter than the width by a bit needs no rounding. -/
theorem roundBits_of_short (hdvd : 128 ∣ d.man) (hman : d.man < 2 ^ (p.width - 1)) :
    roundBits p.manBits d.magnitude = d.magnitude := by
  obtain ⟨m, hm⟩ := hdvd
  have hw := p.two_pow_width_eq_mul
  have hw1 := p.two_pow_width
  have hbits : |(m : ℤ)| ≤ 2 ^ p.manBits := by
    rw [Nat.abs_cast]
    exact_mod_cast (show m ≤ 2 ^ p.manBits by omega)
  apply roundBits_eq_self (manBits_pos p) hbits (k := d.exp + (7 : ℕ) - unitExp p)
  rw [two_zpow_add, magnitude, hm, unit]
  push_cast
  ring

/-- A stored value that stands for the magnitude `g` with a sign: zero where `g` is too small
to be stored, and otherwise less than one and a half of its own last places away. -/
structure StandsFor (z : Floating p) (neg : Bool) (g : ℚ) : Prop where
  isZero_iff : z.isZero = true ↔ g < 2 ^ (-128 : ℤ)
  neg_eq : z.isZero = false → z.neg = neg
  near : z.isZero = false →
    |z.unpack.magnitude - g| < 3 / 2 * 2 ^ ((z.exponent : ℤ) - 128 - p.manBits)

/-- A working value whose rounded magnitude is near `g` is stored as something near `g`. -/
theorem pack_of_near {g : ℚ} (hvanish : d.vanishes = false)
    (hfit : roundBits p.manBits d.magnitude < 2 ^ 127)
    (hzero : roundBits p.manBits d.magnitude < 2 ^ (-128 : ℤ) ↔ g < 2 ^ (-128 : ℤ))
    (hnear : |roundBits p.manBits d.magnitude - g| < 3 / 2 * lastPlace p.manBits d.magnitude) :
    ∃ z, d.pack = .ok z ∧ StandsFor z d.neg g ∧
      (z.isZero = false → z.unpack.magnitude = roundBits p.manBits d.magnitude) := by
  have hman := ((vanishes_eq_false_iff d).mp hvanish).1
  obtain ⟨hisZero, hstored⟩ := saturate_of_lt hvanish hfit
  refine ⟨_, pack_of_lt hvanish hfit, ⟨hisZero.trans hzero, ?_, ?_⟩, ?_⟩
  · intro hz
    exact (hstored hz).1
  · intro hz
    obtain ⟨-, hmag, hexp⟩ := hstored hz
    have hlast := lastPlace_magnitude_le hman
    rw [hmag, hexp]
    linarith
  · intro hz
    exact (hstored hz).2.1

theorem Stored.man_add_le (h : d.Stored) : d.man + 256 ≤ 2 ^ p.width := by
  have hguard := h.guard
  have hlt := h.aligned.man_lt
  have hw := p.two_pow_width_eq_mul
  omega

/-- A difference of significands is no longer than the longer one. -/
theorem apart_add_le (hs : small.Stored) (hl : large.Stored) :
    apart small large + 256 ≤ 2 ^ p.width := by
  have hkept : kept small large ≤ small.man := Nat.div_le_self _ _
  have h1 := hs.man_add_le
  have h2 := hl.man_add_le
  unfold apart
  omega

/-- A working value that is exact is rounded once, and not at all if it is short enough. -/
theorem pack_of_exact (hdvd : 128 ∣ d.man) (h0 : d.man ≠ 0) (hman : d.man + 256 ≤ 2 ^ p.width)
    (hexp : 0 < d.exp) (hle : d.exp ≤ 255) :
    ∃ z, d.pack = .ok z ∧ StandsFor z d.neg d.magnitude ∧
      (d.man < 2 ^ (p.width - 1) → z.isZero = false → z.unpack.magnitude = d.magnitude) := by
  have hw := p.width_pos
  have hzero : roundBits p.manBits d.magnitude < 2 ^ (-128 : ℤ) ↔
      d.magnitude < 2 ^ (-128 : ℤ) := by
    rcases lt_or_ge d.man (2 ^ (p.width - 1)) with hshort | hlong
    · rw [roundBits_of_short hdvd hshort]
    · have hreach : 2 ^ (-128 : ℤ) ≤ d.magnitude :=
        two_zpow_le_mul_unit (by exact_mod_cast hlong) (by omega)
      exact iff_of_false (not_lt.mpr (two_zpow_le_roundBits (manBits_pos p) hreach))
        (not_lt.mpr hreach)
  have hnear : |roundBits p.manBits d.magnitude - d.magnitude|
      < 3 / 2 * lastPlace p.manBits d.magnitude := by
    have hhalf := abs_roundBits_sub_le_half p.manBits d.magnitude
    have hlast := lastPlace_pos p.manBits d.magnitude
    linarith
  obtain ⟨z, hpack, hstands, hround⟩ := pack_of_near ((vanishes_eq_false_iff d).mpr ⟨h0, hexp⟩)
    (roundBits_lt_of_man_le hman hle) hzero hnear
  refine ⟨z, hpack, hstands, ?_⟩
  intro hshort hz
  rw [hround hz, roundBits_of_short hdvd hshort]

theorem standsFor_zero (neg : Bool) : StandsFor (Floating.zero : Floating p) neg 0 := by
  refine ⟨iff_of_true rfl (by positivity), ?_, ?_⟩
  · intro hz
    exact absurd hz (by simp)
  · intro hz
    exact absurd hz (by simp)

/-- **Exponents at most one apart:** the exact difference is stored. -/
theorem pack_difference_of_close (hs : small.Stored) (hl : large.Stored)
    (hexp : small.exp ≤ large.exp) (hneg : small.neg ≠ large.neg) (hk : shiftTo small large ≤ 1) :
    ∃ z, (addOrdered small large).pack = .ok z ∧
      StandsFor z (addOrdered small large).neg (gap small large) ∧
      (gap small large = 0 → z = .zero) ∧
      (apart small large < 2 ^ (p.width - 1) → z.isZero = false →
        z.unpack.magnitude = gap small large) := by
  obtain ⟨hman, hdvd, hmag⟩ := addOrdered_of_close hs hl hexp hneg hk
  have hdexp : (addOrdered small large).exp = large.exp := by rw [addOrdered_of_ne hneg]
  have hapart := apart_add_le hs hl
  have hpos := hl.exp_pos
  have hle := hl.exp_le
  rw [← hman] at hdvd hapart ⊢
  rw [← hmag]
  by_cases h0 : (addOrdered small large).man = 0
  · have hzero : (addOrdered small large).magnitude = 0 := by
      rw [magnitude, h0, Nat.cast_zero, zero_mul]
    have hvanish : (addOrdered small large).vanishes = true := by simp [vanishes, h0]
    rw [hzero]
    refine ⟨.zero, pack_of_vanishes hvanish, standsFor_zero _, ?_, ?_⟩
    · intro _
      rfl
    · intro _ hz
      exact absurd hz (by simp)
  · obtain ⟨z, hpack, hstands, hexact⟩ := pack_of_exact hdvd h0 hapart (by omega) (by omega)
    refine ⟨z, hpack, hstands, ?_, hexact⟩
    intro hzero
    exact absurd hzero (mul_ne_zero (by exact_mod_cast h0) (unit_pos _).ne')

/-- The trimmed significand of exponents further apart keeps one of the top two places. -/
theorem man_addOrdered_of_far (hs : small.Stored) (hl : large.Stored)
    (hexp : small.exp ≤ large.exp) (hneg : small.neg ≠ large.neg) (hk : 2 ≤ shiftTo small large) :
    2 ^ (p.width - 2) ≤ (addOrdered small large).man ∧
      (addOrdered small large).man + 256 ≤ 2 ^ p.width := by
  obtain ⟨hlo, hhi, -⟩ := apart_of_far hs hl hexp hk
  have hlarge := hl.man_add_le
  rw [p.two_pow_width_sub_two] at hlo
  obtain ⟨hmem, hmem'⟩ := trimDifference_mem (small.man % 2 ^ shiftTo small large != 0) hlo
  rw [addOrdered_of_ne hneg, p.two_pow_width_sub_two]
  exact ⟨hmem, by simp only; omega⟩

/-- **Exponents further apart:** trimming and rounding together are near enough. -/
theorem pack_difference_of_far (hs : small.Stored) (hl : large.Stored)
    (hexp : small.exp ≤ large.exp) (hneg : small.neg ≠ large.neg) (hk : 2 ≤ shiftTo small large) :
    gap small large ≠ 0 ∧ ∃ z, (addOrdered small large).pack = .ok z ∧
      StandsFor z (addOrdered small large).neg (gap small large) := by
  have h1 := dropped_lt_one small large
  have hw := p.two_le_width
  have hle := hl.exp_le
  obtain ⟨hlo, hhi, hgap⟩ := apart_of_far hs hl hexp hk
  obtain ⟨hdlo, hdhi⟩ := man_addOrdered_of_far hs hl hexp hneg hk
  have hdexp : (addOrdered small large).exp = large.exp := by rw [addOrdered_of_ne hneg]
  have hexp3 : 3 ≤ large.exp := by
    have hpos := hs.exp_pos
    unfold shiftTo at hk
    omega
  -- neither the exact difference nor the working one is small enough to be stored as zero
  have hreach : 2 ^ (-128 : ℤ) ≤ gap small large := by
    have hcast : (2 : ℚ) ^ (p.width - 2) + 1 ≤ apart small large := by exact_mod_cast hlo
    rw [hgap]
    exact two_zpow_le_mul_unit (by linarith) (by omega)
  have hreach' : 2 ^ (-128 : ℤ) ≤ roundBits p.manBits (addOrdered small large).magnitude := by
    apply two_zpow_le_roundBits (manBits_pos p)
    exact two_zpow_le_mul_unit (j := p.width - 2) (by exact_mod_cast hdlo) (by omega)
  have hnear : |roundBits p.manBits (addOrdered small large).magnitude - gap small large|
      < 3 / 2 * lastPlace p.manBits (addOrdered small large).magnitude := by
    rw [addOrdered_of_ne hneg] at hdlo hdhi ⊢
    rw [hgap]
    exact abs_roundBits_trim_sub_lt (dropped_nonneg small large) h1 hdlo (by simp only at hdhi; omega) _
  have hpos : (0 : ℚ) < 2 ^ (-128 : ℤ) := by positivity
  have hpow := Nat.two_pow_pos (p.width - 2)
  obtain ⟨z, hpack, hstands, -⟩ := pack_of_near
    ((vanishes_eq_false_iff _).mpr ⟨by omega, by omega⟩)
    (roundBits_lt_of_man_le hdhi (by omega))
    (iff_of_false (not_lt.mpr hreach') (not_lt.mpr hreach)) hnear
  exact ⟨(hpos.trans_le hreach).ne', z, hpack, hstands⟩

/-- Operands within a factor of two have exponents at most one apart, and a short difference. -/
theorem apart_lt_of_le_two_mul (hs : small.Stored) (hl : large.Stored)
    (hexp : small.exp ≤ large.exp) (h : large.magnitude ≤ 2 * small.magnitude) :
    shiftTo small large ≤ 1 ∧ apart small large < 2 ^ (p.width - 1) := by
  have h0 := dropped_nonneg small large
  have h1 := dropped_lt_one small large
  have hlo := hl.aligned.le_man
  have hhi := hl.aligned.man_lt
  have hw := p.two_pow_width
  have hw1 := p.two_pow_width_sub_one
  have hman : (large.man : ℚ) ≤ 2 * (kept small large + dropped small large) := by
    rw [magnitude_eq_kept_add_dropped hexp, magnitude, ← mul_assoc] at h
    exact le_of_mul_le_mul_right h large.unit_pos
  have hnat : large.man < 2 * (kept small large + 1) := by
    have hlt : (large.man : ℚ) < 2 * (kept small large + 1) := by linarith
    exact_mod_cast hlt
  have hk : shiftTo small large ≤ 1 := by
    by_contra hfar
    have hkept : kept small large < 2 ^ (p.width - 2) :=
      kept_lt_of_le hs.aligned p.two_le_width (not_le.mp hfar)
    omega
  refine ⟨hk, ?_⟩
  have hdvd : 128 ∣ kept small large := (kept_of_close hs hk).1
  have hguard := hl.guard
  unfold apart
  rcases Nat.eq_zero_or_pos (shiftTo small large) with hk0 | hk1
  · have hsmall : kept small large = small.man := by rw [kept, hk0, pow_zero, Nat.div_one]
    have hlo' := hs.aligned.le_man
    have hhi' := hs.aligned.man_lt
    omega
  · have hkept : kept small large < 2 ^ (p.width - 1) := kept_lt_of_le hs.aligned p.width_pos hk1
    omega

/-- **What is stored for a difference of two magnitudes.** -/
theorem pack_difference (hs : small.Stored) (hl : large.Stored) (hexp : small.exp ≤ large.exp)
    (hneg : small.neg ≠ large.neg) :
    ∃ z, (addOrdered small large).pack = .ok z ∧
      StandsFor z (addOrdered small large).neg (gap small large) ∧
      (gap small large = 0 → z = .zero) ∧
      (large.magnitude ≤ 2 * small.magnitude → z.isZero = false →
        z.unpack.magnitude = gap small large) := by
  rcases le_or_gt (shiftTo small large) 1 with hclose | hfar
  · obtain ⟨z, hpack, hstands, hzero, hexact⟩ := pack_difference_of_close hs hl hexp hneg hclose
    refine ⟨z, hpack, hstands, hzero, ?_⟩
    intro h
    exact hexact (apart_lt_of_le_two_mul hs hl hexp h).2
  · obtain ⟨hne, z, hpack, hstands⟩ := pack_difference_of_far hs hl hexp hneg hfar
    refine ⟨z, hpack, hstands, ?_, ?_⟩
    · intro h
      exact absurd h hne
    · intro h
      have hclose := (apart_lt_of_le_two_mul hs hl hexp h).1
      omega

end Scratch

namespace Floating

open Scratch

variable {p : Precision} {x y : Floating p}

/-- A difference, with its operands in the order of their exponents. -/
theorem exists_ordered_sub (hx : x.isZero = false) (hy : y.isZero = false) (hsign : x.neg = y.neg) :
    ∃ small large : Scratch p, small.Stored ∧ large.Stored ∧ small.exp ≤ large.exp ∧
      small.neg ≠ large.neg ∧
      signed large.neg large.magnitude + signed small.neg small.magnitude = x.exact - y.exact ∧
      (|y.exact| / 2 ≤ |x.exact| → |x.exact| ≤ 2 * |y.exact| →
        large.magnitude ≤ 2 * small.magnitude) ∧
      x.sub y = (addOrdered small large).pack := by
  have hdiff : signed x.neg x.unpack.magnitude + signed (!y.neg) y.unpack.magnitude
      = x.exact - y.exact := by
    rw [exact_eq_signed hx, exact_eq_signed hy, signed_not, sub_eq_add_neg]
  have hopp : y.unpack.negate.neg ≠ x.unpack.neg := by
    show (!y.neg) ≠ x.neg
    rw [hsign]
    exact Bool.not_ne_self _
  rw [abs_exact hx, abs_exact hy]
  obtain ⟨small, large, ⟨rfl, rfl⟩ | ⟨rfl, rfl⟩, hexp, hsub⟩ :=
    exists_addOrdered (stored_unpack hx) (stored_unpack hy).negate
  · refine ⟨_, _, stored_unpack hx, (stored_unpack hy).negate, hexp, hopp.symm, ?_, ?_, ?_⟩
    · rw [← hdiff, add_comm]
      rfl
    · intro hhalf _
      show y.unpack.magnitude ≤ 2 * x.unpack.magnitude
      linarith
    · rw [sub, hsub]
  · refine ⟨_, _, (stored_unpack hy).negate, stored_unpack hx, hexp, hopp, hdiff, ?_, ?_⟩
    · intro _ hdouble
      exact hdouble
    · rw [sub, hsub]

/-- **A difference of two values of one sign.** It never fails. It is zero exactly where the
exact difference is too small to be stored; otherwise it has the sign of the exact
difference, and is less than one and a half units of its last place away from it. Where
neither value is more than twice the other it is the exact difference. -/
theorem sub_of_same_sign (hx : x.isZero = false) (hy : y.isZero = false) (hsign : x.neg = y.neg) :
    x.add y.negate = x.sub y ∧
    ∃ z, x.sub y = .ok z ∧
      (z.isZero = true ↔ |x.exact - y.exact| < 2 ^ (-128 : ℤ)) ∧
      (x = y → z = zero) ∧
      (z.isZero = false →
        (z.neg = true ↔ x.exact < y.exact) ∧
        |z.exact - (x.exact - y.exact)| < 3 / 2 * 2 ^ ((z.exponent : ℤ) - 128 - p.manBits) ∧
        (|y.exact| / 2 ≤ |x.exact| → |x.exact| ≤ 2 * |y.exact| →
          z.exact = x.exact - y.exact)) := by
  refine ⟨rfl, ?_⟩
  obtain ⟨small, large, hs, hl, hexp, hneg, hdiff, hratio, hsub⟩ := exists_ordered_sub hx hy hsign
  obtain ⟨z, hpack, hstands, hzero, hexact⟩ := pack_difference hs hl hexp hneg
  rw [← signed_gap hs hl hexp hneg] at hdiff
  have hgap : |x.exact - y.exact| = gap small large := by
    rw [← hdiff, abs_signed, gap, abs_abs]
  rw [hgap, hsub]
  refine ⟨z, hpack, hstands.isZero_iff, ?_, ?_⟩
  · rintro rfl
    apply hzero
    rw [← hgap, sub_self, abs_zero]
  · intro hz
    have hzexact := exact_eq_signed hz
    rw [hstands.neg_eq hz] at hzexact ⊢
    refine ⟨?_, ?_, ?_⟩
    · have hpos : 0 < gap small large := by
        have hreach : 2 ^ (-128 : ℤ) ≤ gap small large := by
          rw [← not_lt, ← hstands.isZero_iff, Bool.not_eq_true]
          exact hz
        exact lt_of_lt_of_le (by positivity) hreach
      rw [← sub_neg, ← hdiff, signed_neg_iff hpos]
    · rw [hzexact, ← hdiff, ← signed_sub, abs_signed]
      exact hstands.near hz
    · intro hhalf hdouble
      rw [hzexact, ← hdiff, hexact (hratio hhalf hdouble) hz]

/-- A difference whose guard byte is trimmed, and whose leading bit moves down after that: it
is more than one unit of its last place off, and less than one and a half. -/
theorem sub_of_same_sign_trimmed :
    let x : Single := ofWord 0x89000000
    let y : Single := ofWord 0x8100015F
    let z : Single := ofWord 0x887EFFFC
    x.isZero = false ∧ y.isZero = false ∧ x.neg = y.neg ∧ x.sub y = .ok z ∧ z.isZero = false ∧
      2 ^ ((z.exponent : ℤ) - 128 - 24) < |z.exact - (x.exact - y.exact)| ∧
      |z.exact - (x.exact - y.exact)| < 3 / 2 * 2 ^ ((z.exponent : ℤ) - 128 - 24) := by
  intro x y z
  have hsub : x.sub y = .ok z := by decide +kernel
  obtain ⟨-, w, hw, -, -, hnonzero⟩ := sub_of_same_sign (x := x) (y := y) rfl rfl rfl
  obtain rfl : z = w := Except.ok.inj (hsub.symm.trans hw)
  refine ⟨rfl, rfl, rfl, hsub, rfl, ?_, (hnonzero rfl).2.1⟩
  norm_num [x, y, z, exact, isZero, ofWord, significand, Precision.manBits]

end Floating

end BasicNumerics
