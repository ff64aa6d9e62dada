/-
Numbers that come from outside.

A whole number and a pattern of the 64-bit interchange format take the same way in. The digits are
a significand of any length at an exponent that gives each its place; that working value is
aligned and then stored. Aligning cuts what is too long and leaves one bit for it, storing rounds
the guard byte, and the two together are one rounding of the number (`roundBits_align`). So the
nearest value is stored, and since rounding keeps the order, converting does.

The two ends of the range are not met at the same point. Whether a number is too small is seen on
the exponent of the aligned value, before it is rounded; whether it is too large, after that. A
number just below `2^-128` is therefore zero even where it would round up into the range, and one
just below `2^127` overflows if it rounds up out of it (`StoresNearest`).
-/
import BasicNumerics.Floating.Binary64
import BasicNumerics.Proofs.Floating.WholePart

set_option autoImplicit false

namespace BasicNumerics

namespace Rounding

theorem abs_roundBits (bits : ℕ) (v : ℚ) : |roundBits bits v| = roundBits bits |v| := by
  rcases le_total 0 v with hv | hv
  · rw [abs_of_nonneg hv, abs_of_nonneg (roundBits_nonneg hv)]
  · have hpos : 0 ≤ roundBits bits (-v) := roundBits_nonneg (neg_nonneg.mpr hv)
    rw [abs_of_nonpos hv, ← abs_neg, ← roundBits_neg, abs_of_nonneg hpos]

/-- A number whose magnitude fits is not rounded. -/
theorem roundBits_of_fits_abs {bits : ℕ} {v : ℚ} (h : Fits bits |v|) (hbits : 0 < bits) :
    roundBits bits v = v := by
  have hround := h.roundBits_eq hbits
  rcases abs_choice v with habs | habs
  · rwa [habs] at hround
  · rw [habs, roundBits_neg] at hround
    exact neg_inj.mp hround

/-- A whole number is the nearest one to itself. -/
theorem nearestAway_intCast (n : ℤ) : nearestAway (n : ℚ) = n := by
  have hnear := abs_lt.mp ((abs_nearestAway_sub_le n).trans_lt (by norm_num : (1 / 2 : ℚ) < 1))
  have hlo : n - 1 < nearestAway n := by
    have : ((n - 1 : ℤ) : ℚ) < nearestAway n := by
      push_cast
      linarith
    exact_mod_cast this
  have hhi : nearestAway n < n + 1 := by
    have : (nearestAway n : ℚ) < ((n + 1 : ℤ) : ℚ) := by
      push_cast
      linarith
    exact_mod_cast this
  omega

end Rounding

open Rounding

/-! ## Aligned and stored -/

namespace Scratch

variable {p : Precision} {d : Scratch p}

/-- **Aligning does not show in what is stored:** the value is rounded as if nothing had been
cut. -/
theorem roundBits_align (h : d.man ≠ 0) :
    roundBits p.manBits d.align.magnitude = roundBits p.manBits d.magnitude := by
  have ha := align_aligned h
  rw [roundBits_magnitude ha.man_ne_zero, ha.align_eq, roundBits_magnitude h]

theorem eq_saturate_of_pack {z : Floating p} (h : d.pack = .ok z) : z = d.saturate := by
  unfold pack at h
  split at h
  · exact absurd h (by simp)
  · exact (Except.ok.inj h).symm

/-- What storing gives for the number `v`: the clear zero below the range, the nearest value in it,
and an overflow where the nearest value would be past it. -/
structure StoresNearest (v : ℚ) (o : Outcome (Floating p) (Floating p)) : Prop where
  zero_iff : o = .ok .zero ↔ |v| < 2 ^ (-128 : ℤ)
  nearest : 2 ^ (-128 : ℤ) ≤ |v| → |roundBits p.manBits v| < 2 ^ 127 →
    ∃ z, o = .ok z ∧ z.exact = roundBits p.manBits v
  overflow : 2 ^ 127 ≤ |roundBits p.manBits v| → o = .error (.overflow (.max (decide (v < 0))))

/-- **A working value that is aligned and stored** is stored as the nearest value. -/
theorem storesNearest_pack_align (h : d.man ≠ 0) :
    StoresNearest (signed d.neg d.magnitude) d.align.pack := by
  have hcut := cutOf_align h
  have hround := roundBits_align h
  have hpos : 0 < d.magnitude := mul_pos (by exact_mod_cast Nat.pos_of_ne_zero h) d.unit_pos
  have hnearest : 2 ^ (-128 : ℤ) ≤ d.magnitude → roundBits p.manBits d.magnitude < 2 ^ 127 →
      ∃ z, d.align.pack = .ok z ∧ z.isZero = false ∧
        z.exact = signed d.neg (roundBits p.manBits d.magnitude) := by
    intro hlo hhi
    obtain ⟨z, hz, hnonzero, hexact, -⟩ := hcut.exists_pack_eq_ok hlo (by rw [hround]; exact hhi)
    exact ⟨z, hz, hnonzero, by rw [hexact, hround, align_neg]⟩
  have hoverflow : 2 ^ 127 ≤ roundBits p.manBits d.magnitude →
      d.align.pack = .error (.overflow (.max d.neg)) := by
    intro hlarge
    rw [hcut.aligned.pack_of_le (by rw [hround]; exact hlarge), align_neg]
  rw [← decide_signed_neg d.neg hpos] at hoverflow
  refine ⟨?_, ?_, ?_⟩
  · rw [abs_signed, abs_of_pos hpos]
    refine ⟨?_, hcut.pack_of_lt⟩
    -- what is not below the range is stored as something else, or not at all
    intro hzero
    by_contra hlo
    rcases lt_or_ge (roundBits p.manBits d.magnitude) (2 ^ 127) with hhi | hlarge
    · obtain ⟨z, hz, hnonzero, -⟩ := hnearest (not_lt.mp hlo) hhi
      obtain rfl : z = .zero := Except.ok.inj (hz.symm.trans hzero)
      exact absurd hnonzero (by simp)
    · rw [hoverflow hlarge] at hzero
      exact absurd hzero (by simp)
  · rw [abs_roundBits, abs_signed, abs_of_pos hpos]
    intro hlo hhi
    obtain ⟨z, hz, -, hexact⟩ := hnearest hlo hhi
    exact ⟨z, hz, by rw [hexact, roundBits_signed]⟩
  · rw [abs_roundBits, abs_signed, abs_of_pos hpos]
    exact hoverflow

end Scratch

/-! ## Whole numbers -/

namespace Floating

open Scratch

variable {p : Precision} {n : ℤ}

/-- A whole number as a working value is worth itself. -/
theorem signed_magnitude_ofInt (p : Precision) (n : ℤ) :
    signed (Scratch.ofInt p n).neg (Scratch.ofInt p n).magnitude = n := by
  rw [magnitude_ofInt_eq_abs]
  show signed (decide (n < 0)) |(n : ℚ)| = n
  rcases lt_or_ge n 0 with hneg | hpos
  · have hcast : (n : ℚ) < 0 := by exact_mod_cast hneg
    rw [decide_eq_true hneg, abs_of_neg hcast, signed, if_pos rfl, neg_neg]
  · have hcast : (0 : ℚ) ≤ n := by exact_mod_cast hpos
    rw [decide_eq_false (not_lt.mpr hpos), abs_of_nonneg hcast]
    rfl

/-- A word of 64 bits is rounded far inside the range. -/
theorem abs_roundBits_le_of_word (hn : |n| ≤ 2 ^ 63) : |roundBits p.manBits n| ≤ 2 ^ 63 := by
  have hone : |(1 : ℤ)| ≤ 2 ^ p.manBits := by
    rw [abs_one]
    exact one_le_pow₀ one_le_two
  have hlimit : |(n : ℚ)| ≤ (1 : ℤ) * 2 ^ (63 : ℤ) := by
    rw [Int.cast_one, one_mul]
    exact_mod_cast hn
  have hround := roundBits_le (manBits_pos p) hone hlimit
  rw [Int.cast_one, one_mul] at hround
  rw [abs_roundBits]
  exact_mod_cast hround

/-- **A whole number of 64 bits is stored as the nearest value,** and storing it does not fail. -/
theorem pack_align_ofInt_eq_ok (hn : |n| ≤ 2 ^ 63) :
    (Scratch.ofInt p n).align.pack = .ok (ofInt n) ∧
      (ofInt n : Floating p).exact = roundBits p.manBits n := by
  by_cases h0 : n = 0
  · subst h0
    refine ⟨pack_of_vanishes rfl, ?_⟩
    have hround : roundBits p.manBits ((0 : ℤ) : ℚ) = (0 : ℤ) :=
      roundBits_eq_self (m := 0) (manBits_pos p) (by simp) (k := 0) (by simp)
    rw [hround, Int.cast_zero]
    exact exact_of_isZero rfl
  · have hstores := storesNearest_pack_align (d := Scratch.ofInt p n) (Int.natAbs_ne_zero.mpr h0)
    rw [signed_magnitude_ofInt] at hstores
    have hone : (1 : ℚ) ≤ |(n : ℚ)| := by exact_mod_cast Int.one_le_abs h0
    obtain ⟨z, hz, hexact⟩ := hstores.nearest (le_trans (by norm_num) hone)
      ((abs_roundBits_le_of_word hn).trans_lt (by norm_num))
    obtain rfl : z = ofInt n := eq_saturate_of_pack hz
    exact ⟨hz, hexact⟩

/-- **A whole number of no more bits than the significand,** or the power of two after these, is
held exactly and read off again. -/
theorem toInt?_ofInt_of_le (hn : |n| ≤ 2 ^ p.manBits) :
    (ofInt n : Floating p).exact = n ∧ (ofInt n : Floating p).toInt? = some n := by
  have hword : |n| < 2 ^ 63 := hn.trans_lt (by cases p <;> decide)
  have hexact : (ofInt n : Floating p).exact = n := by
    rw [(pack_align_ofInt_eq_ok hword.le).2]
    -- the limit itself has one bit more, but it is a power of two
    exact roundBits_eq_self (m := n) (manBits_pos p) hn (k := 0) (by rw [zpow_zero, mul_one])
  refine ⟨hexact, ?_⟩
  rw [toInt?_eq, hexact, nearestAway_intCast, if_pos]
  exact_mod_cast hword

/-- **Whole numbers of 64 bits are converted to the nearest value,** a tie to the even one, and
storing them never fails. Up to the power of two that ends the significand they are held exactly
and read off again, and beyond it the order is kept. -/
theorem ofInt_nearest (hn : |n| ≤ 2 ^ 63) :
    (Scratch.ofInt p n).align.pack = .ok (ofInt n) ∧
    (ofInt n : Floating p).exact = roundBits p.manBits n ∧
    (|n| ≤ 2 ^ p.manBits →
      (ofInt n : Floating p).exact = n ∧ (ofInt n : Floating p).toInt? = some n) ∧
    ∀ m : ℤ, n ≤ m → |m| ≤ 2 ^ 63 → (ofInt n : Floating p).exact ≤ (ofInt m : Floating p).exact := by
  obtain ⟨hpack, hexact⟩ := pack_align_ofInt_eq_ok (p := p) hn
  refine ⟨hpack, hexact, toInt?_ofInt_of_le, ?_⟩
  intro m hle hm
  rw [hexact, (pack_align_ofInt_eq_ok hm).2]
  exact roundBits_mono (manBits_pos p) (by exact_mod_cast hle)

/-- The first whole number that a single does not hold is halfway between two that it does. -/
theorem ofInt_nearest_tie :
    |(2 ^ 24 + 1 : ℤ)| ≤ 2 ^ 63 ∧ (ofInt (2 ^ 24 + 1) : Single) = ofInt (2 ^ 24) ∧
      (ofInt (2 ^ 24 + 1) : Single).exact = roundBits 24 ((2 ^ 24 + 1 : ℤ) : ℚ) :=
  have hword : |(2 ^ 24 + 1 : ℤ)| ≤ 2 ^ 63 := by decide
  ⟨hword, by decide +kernel, (ofInt_nearest (p := .single) hword).2.1⟩

end Floating

/-! ## Patterns of the interchange format -/

namespace Binary64

/-- Whether the pattern is a number: the last exponent field is left to infinities and to what is
no number. -/
def IsFinite (b : Binary64) : Prop := b.exponentField ≠ 2047

/-- The number that a finite pattern stands for. With the exponent field at zero the leading one is
missing, and the exponent is that of the next field. -/
def exact (b : Binary64) : ℚ :=
  signed b.neg
    (if b.exponentField = 0 then b.fractionField / 2 ^ 52 * 2 ^ (-1022 : ℤ)
      else (1 + b.fractionField / 2 ^ 52) * 2 ^ ((b.exponentField : ℤ) - 1023))

instance (b : Binary64) : Decidable b.IsFinite :=
  inferInstanceAs (Decidable (b.exponentField ≠ 2047))

/-- The significand at its scale is the number. -/
theorem exact_eq (b : Binary64) : b.exact = signed b.neg (b.significand * 2 ^ b.scale) := by
  -- the fraction bits are 52 places below the leading one
  have hshift : ∀ e : ℤ, (2 : ℚ) ^ e = 2 ^ 52 * 2 ^ (e - 52) := by
    intro e
    rw [show (2 : ℚ) ^ 52 = 2 ^ (52 : ℤ) by norm_num, ← zpow_add₀ two_ne_zero, add_sub_cancel]
  rw [exact, significand, scale]
  congr 1
  by_cases h : b.exponentField = 0
  · rw [if_pos h, if_pos h, if_pos h, hshift (-1022), ← mul_assoc, div_mul_cancel₀ _ (by norm_num)]
    norm_num
  · rw [if_neg h, if_neg h, if_neg h, hshift, ← mul_assoc, add_mul, one_mul,
      div_mul_cancel₀ _ (by norm_num), sub_sub]
    push_cast
    norm_num

theorem significand_eq_zero_iff (b : Binary64) : b.significand = 0 ↔ b.isZero = true := by
  rw [significand, isZero, Bool.and_eq_true, beq_iff_eq, beq_iff_eq]
  by_cases h : b.exponentField = 0
  · simp [h]
  · simp [h]

theorem significand_lt (b : Binary64) : b.significand < 2 ^ 53 := by
  have hfraction : b.fractionField < 2 ^ 52 := Nat.mod_lt _ (by norm_num)
  rw [significand]
  split <;> omega

/-- **Only the two zeros are worth zero.** -/
theorem exact_eq_zero_iff (b : Binary64) : b.exact = 0 ↔ b.isZero = true := by
  rw [exact_eq, ← abs_eq_zero, abs_signed, abs_eq_zero, mul_eq_zero,
    or_iff_left (by positivity : ¬(2 : ℚ) ^ b.scale = 0), Nat.cast_eq_zero, significand_eq_zero_iff]

theorem IsFinite.isNaN {b : Binary64} (h : b.IsFinite) : b.isNaN = false := by
  rw [Binary64.isNaN, beq_eq_false_iff_ne.mpr h, Bool.false_and]

theorem IsFinite.isInfinite {b : Binary64} (h : b.IsFinite) : b.isInfinite = false := by
  rw [Binary64.isInfinite, beq_eq_false_iff_ne.mpr h, Bool.false_and]

/-- A pattern has 53 bits at most. -/
theorem fits_abs_exact (b : Binary64) : Fits 53 |b.exact| := by
  refine ⟨b.significand, b.scale, b.significand_lt, ?_⟩
  rw [exact_eq, abs_signed, abs_of_nonneg (by positivity)]

end Binary64

namespace Floating

open Scratch

variable {p : Precision} {b : Binary64}

/-- **A finite pattern other than zero is stored as the nearest value.** -/
theorem storesNearest_ofBinary64 (hfinite : b.IsFinite) (hzero : b.isZero = false) :
    StoresNearest b.exact (ofBinary64 b : Outcome (Floating p) (Floating p)) := by
  set d : Scratch p := { exp := b.scale + unitExp p, man := b.significand, neg := b.neg } with hd
  have hpack : ofBinary64 b = d.align.pack := by
    rw [ofBinary64, if_neg (by simp [hzero]), if_neg (by simp [hfinite.isNaN]),
      if_neg (by simp [hfinite.isInfinite])]
  have hman : d.man ≠ 0 := by
    show b.significand ≠ 0
    rw [Ne, b.significand_eq_zero_iff]
    simp [hzero]
  have hexact : b.exact = signed d.neg d.magnitude := by
    rw [b.exact_eq, magnitude, unit, hd, add_sub_cancel_right]
  rw [hpack, hexact]
  exact storesNearest_pack_align hman

/-- **A double has bits to spare** for every pattern in range. -/
theorem exists_ofBinary64_double (hfinite : b.IsFinite) (hlo : 2 ^ (-128 : ℤ) ≤ |b.exact|)
    (hhi : |b.exact| < 2 ^ 127) : ∃ z : Double, ofBinary64 b = .ok z ∧ z.exact = b.exact := by
  have hzero : b.isZero = false := by
    rw [← Bool.not_eq_true, ← b.exact_eq_zero_iff]
    intro h0
    rw [h0, abs_zero] at hlo
    exact absurd hlo (not_le.mpr (by positivity))
  have hround : roundBits Precision.double.manBits b.exact = b.exact :=
    roundBits_of_fits_abs (b.fits_abs_exact.mono (by decide)) (manBits_pos .double)
  have hstores := storesNearest_ofBinary64 (p := .double) hfinite hzero
  obtain ⟨z, hz, hexact⟩ := hstores.nearest hlo (by rw [hround]; exact hhi)
  exact ⟨z, hz, hexact.trans hround⟩

/-- **The bridge from the interchange format is correctly rounded.** A finite pattern other than
the zeros is stored as the nearest value; it is the clear zero exactly below `2^-128`, and an
overflow where the nearest value is past the range. Zeros are zero, infinities overflow with the
maximum of their sign, and what is no number is an illegal function call. Doubles hold every
pattern in range as it is. -/
theorem ofBinary64_nearest (b : Binary64) :
    (b.IsFinite → b.exact ≠ 0 →
      StoresNearest b.exact (ofBinary64 b : Outcome (Floating p) (Floating p))) ∧
    (b.IsFinite → b.exact = 0 → (ofBinary64 b : Outcome (Floating p) (Floating p)) = .ok zero) ∧
    (b.exponentField = 2047 → b.fractionField = 0 →
      (ofBinary64 b : Outcome (Floating p) (Floating p)) = .error (.overflow (max b.neg))) ∧
    (b.exponentField = 2047 → b.fractionField ≠ 0 →
      (ofBinary64 b : Outcome (Floating p) (Floating p))
        = .error (.fault (.ofCause .illegalFunctionCall))) ∧
    (b.IsFinite → 2 ^ (-128 : ℤ) ≤ |b.exact| → |b.exact| < 2 ^ 127 →
      ∃ z : Double, ofBinary64 b = .ok z ∧ z.exact = b.exact) := by
  refine ⟨?_, ?_, ?_, ?_, exists_ofBinary64_double⟩
  · intro hfinite hne
    rw [Ne, b.exact_eq_zero_iff, Bool.not_eq_true] at hne
    exact storesNearest_ofBinary64 hfinite hne
  · intro _ hzero
    exact if_pos (b.exact_eq_zero_iff.mp hzero)
  · intro hexp hfraction
    rw [ofBinary64, if_neg (by simp [Binary64.isZero, hexp]),
      if_neg (by simp [Binary64.isNaN, hfraction]),
      if_pos (by simp [Binary64.isInfinite, hexp, hfraction])]
  · intro hexp hfraction
    rw [ofBinary64, if_neg (by simp [Binary64.isZero, hexp]),
      if_pos (by simp [Binary64.isNaN, hexp, hfraction])]

/-- The last pattern below the range of singles is rounded out of it, and is a double as it
stands. -/
theorem ofBinary64_nearest_rounded_out :
    let b : Binary64 := ⟨0x47DFFFFFFFFFFFFF⟩
    b.IsFinite ∧ b.exact = (2 ^ 53 - 1) * 2 ^ 74 ∧
      (ofBinary64 b : Outcome Single Single) = .error (.overflow (max false)) ∧
      ∃ z : Double, ofBinary64 b = .ok z ∧ z.exact = b.exact := by
  intro b
  have hfinite : b.IsFinite := by decide +kernel
  have hexact : b.exact = (2 ^ 53 - 1) * 2 ^ 74 := by
    have hneg : b.neg = false := by decide +kernel
    have hsignificand : b.significand = 2 ^ 53 - 1 := by decide +kernel
    have hscale : b.scale = 74 := by decide +kernel
    rw [b.exact_eq, hneg, hsignificand, hscale]
    norm_num [signed]
  refine ⟨hfinite, hexact, by decide +kernel, ?_⟩
  apply (ofBinary64_nearest (p := .double) b).2.2.2.2 hfinite
  · rw [hexact]
    norm_num
  · rw [hexact]
    norm_num

end Floating

end BasicNumerics
