/-
Decimal numbers survive the way into binary and back.

A decimal number of at most six digits for singles, fifteen for doubles, that can be
stored at all is read back digit by digit, whatever its power of ten and whatever
digit count is asked for, as long as its own digits fit in it.

The argument is a count of steps. Going in takes at most 59 steps of scaling and one
rounding, coming out at most 105 more steps, and a rounding counts for 64; so the
scaled value is at most 256 steps from the decimal it stands for, which is less than
half a unit in its last digit. What is left is to see that the scaling stops at the
right power. It can stop one power too late only for a power of ten that has drifted
below the limit; then the digit that rounding up makes too many is the one that is
dropped again.
-/
import BasicNumerics.Proofs.Floating.Scaling
import Mathlib.Data.Nat.Digits.Lemmas

set_option autoImplicit false

namespace BasicNumerics

open Rounding

/-- The decimal digits that a precision holds whatever the power of ten. -/
def Precision.faithfulDigits : Precision → ℕ
  | single => 6
  | double => 15

namespace Precision

theorem faithfulDigits_lt_digits (p : Precision) : p.faithfulDigits < p.digits := by
  cases p <;> decide

theorem ten_pow_faithfulDigits_lt (p : Precision) : 10 ^ p.faithfulDigits < 2 ^ p.manBits := by
  cases p <;> decide

/-- What 256 steps can miss, as a share of the value. -/
def drift (p : Precision) : ℚ := 1 / 2 ^ (p.width - 11)

theorem drift_pos (p : Precision) : 0 < p.drift := by
  unfold drift
  positivity

theorem stepRatio_pow_le {p : Precision} {n : ℕ} (hn : n ≤ 256) :
    p.stepRatio ^ n ≤ 1 + p.drift := by
  refine (pow_le_pow_right₀ p.one_le_stepRatio hn).trans ?_
  cases p <;> norm_num [stepRatio, drift, width, manBits]

/-- **The digits fit:** the drift is less than half a unit of the last one. -/
theorem drift_mul_lt {p : Precision} {d : ℕ} (hd : d ≤ p.faithfulDigits) :
    p.drift * 10 ^ d < 1 / 2 := by
  have h1 : (10 : ℚ) ^ d ≤ 10 ^ p.faithfulDigits := pow_le_pow_right₀ (by norm_num) hd
  have h2 : p.drift * 10 ^ p.faithfulDigits < 1 / 2 := by
    cases p <;> norm_num [drift, width, manBits, faithfulDigits]
  exact (mul_le_mul_of_nonneg_left h1 p.drift_pos.le).trans_lt h2

end Precision

/-- Magnitudes that are at most 256 steps apart differ by at most the drift. -/
theorem Near.abs_sub_le {p : Precision} {n : ℕ} {a b : ℚ} (h : Near p n a b) (hn : n ≤ 256)
    (ha : 0 ≤ a) (hb : 0 ≤ b) : |a - b| ≤ p.drift * b := by
  have hpow := Precision.stepRatio_pow_le (p := p) hn
  have h1 : a ≤ (1 + p.drift) * b := h.left.trans (mul_le_mul_of_nonneg_right hpow hb)
  have h2 : b ≤ (1 + p.drift) * a := h.right.trans (mul_le_mul_of_nonneg_right hpow ha)
  rcases le_total a b with hab | hab
  · have h3 : p.drift * a ≤ p.drift * b := mul_le_mul_of_nonneg_left hab p.drift_pos.le
    rw [abs_sub_comm, abs_of_nonneg (by linarith)]
    linarith
  · rw [abs_of_nonneg (by linarith)]
    linarith

namespace Scratch

variable {p : Precision}

theorem nearestNat_eq_of_abs_sub_lt {d : Scratch p} {n : ℕ} (h : |d.magnitude - n| < 1 / 2) :
    d.nearestNat = n := by
  obtain ⟨h1, h2⟩ := d.nearestNat_bounds
  have h3 := abs_lt.mp h
  have hlt : (d.nearestNat : ℚ) < n + 1 := by linarith
  have hgt : (n : ℚ) < d.nearestNat + 1 := by linarith
  have hlt' : d.nearestNat < n + 1 := by exact_mod_cast hlt
  have hgt' : n < d.nearestNat + 1 := by exact_mod_cast hgt
  omega

end Scratch

/-! ## Which power the scaling stops at -/

/-- **A scaled value knows its decimal.** If `y` lies between the limits for `t + 1`
digits and is within the drift of `M · 10^s`, where `M` has `t + 1` digits, then it is
`M` up to less than a half, or it is the power of ten that has one digit more. -/
theorem digits_of_near {p : Precision} {t M : ℕ} {s : ℤ} {y : ℚ}
    (ht : t + 1 ≤ p.faithfulDigits) (hM : 10 ^ t ≤ M) (hM' : M < 10 ^ (t + 1))
    (hnear : |y - M * 10 ^ s| ≤ p.drift * (M * 10 ^ s)) (hlo : 10 ^ t ≤ y)
    (hhi : y ≤ p.stepRatio * 10 ^ (t + 1)) :
    (s = 0 ∧ |y - M| < 1 / 2)
      ∨ (s = 1 ∧ M = 10 ^ t ∧ |y - (10 ^ (t + 1) : ℕ)| < 1 / 2) := by
  have hdrift := Precision.drift_mul_lt ht
  have hpos := p.drift_pos
  have hpow : (10 : ℚ) ^ (t + 1) = 10 * 10 ^ t := by ring
  have hone : (1 : ℚ) ≤ 10 ^ t := one_le_pow₀ (by norm_num)
  have hMq : (10 : ℚ) ^ t ≤ M := by exact_mod_cast hM
  have hMq' : (M : ℚ) + 1 ≤ 10 ^ (t + 1) := by exact_mod_cast hM'
  obtain ⟨h1, h2⟩ := abs_le.mp hnear
  have hratio : p.stepRatio ≤ 1 + p.drift := by
    simpa using Precision.stepRatio_pow_le (p := p) (n := 1) (by norm_num)
  rcases lt_trichotomy s 0 with hs | hs | hs
  · -- below: a tenth of `M` is already under the lower limit
    exfalso
    have hten : (10 : ℚ) ^ s ≤ 1 / 10 := by
      have := zpow_le_zpow_right₀ (a := (10 : ℚ)) (by norm_num) (show s ≤ -1 by omega)
      simpa using this
    have hb : (M : ℚ) * 10 ^ s ≤ M * (1 / 10) := mul_le_mul_of_nonneg_left hten (by positivity)
    have hd : p.drift * (M * 10 ^ s) ≤ p.drift * (M * (1 / 10)) :=
      mul_le_mul_of_nonneg_left hb hpos.le
    have hd' : p.drift * M ≤ p.drift * 10 ^ (t + 1) :=
      mul_le_mul_of_nonneg_left (by linarith) hpos.le
    linarith
  · left
    subst hs
    rw [zpow_zero, mul_one] at hnear
    refine ⟨rfl, hnear.trans_lt ?_⟩
    have : p.drift * M ≤ p.drift * 10 ^ (t + 1) := mul_le_mul_of_nonneg_left (by linarith) hpos.le
    linarith
  · -- above: only ten times the least `M` is not far beyond the upper limit
    right
    have hten : (10 : ℚ) ≤ 10 ^ s := by
      have := zpow_le_zpow_right₀ (a := (10 : ℚ)) (by norm_num) (show (1 : ℤ) ≤ s by omega)
      simpa using this
    have hdsmall : p.drift ≤ 1 / 20 := by
      have : p.drift * 10 ≤ p.drift * 10 ^ (t + 1) :=
        mul_le_mul_of_nonneg_left (by linarith) hpos.le
      linarith
    have hup : y ≤ 10 ^ (t + 1) + 1 / 2 := by
      have : p.stepRatio * 10 ^ (t + 1) ≤ (1 + p.drift) * 10 ^ (t + 1) :=
        mul_le_mul_of_nonneg_right hratio (by positivity)
      linarith
    have hb : (M : ℚ) * 10 ^ s * (1 - p.drift) ≤ 10 ^ (t + 1) + 1 / 2 := by linarith
    have hM10 : (M : ℚ) * 10 ≤ M * 10 ^ s := mul_le_mul_of_nonneg_left hten (by positivity)
    have hMeq : M = 10 ^ t := by
      by_contra hne
      have h3 : 10 ^ t + 1 ≤ M := by omega
      have h3' : (10 : ℚ) ^ t + 1 ≤ M := by exact_mod_cast h3
      have h4 : (10 : ℚ) ^ (t + 1) + 10 ≤ M * 10 ^ s := by linarith
      have h5 : (10 ^ (t + 1) + 10) * (1 - p.drift) ≤ (M : ℚ) * 10 ^ s * (1 - p.drift) :=
        mul_le_mul_of_nonneg_right h4 (by linarith)
      linarith
    have hs1 : s = 1 := by
      by_contra hne
      have h3 : (10 : ℚ) ^ (2 : ℤ) ≤ 10 ^ s :=
        zpow_le_zpow_right₀ (by norm_num) (show (2 : ℤ) ≤ s by omega)
      have h4 : (M : ℚ) * 100 ≤ M * 10 ^ s :=
        mul_le_mul_of_nonneg_left (by linarith) (by positivity)
      have h5 : (M : ℚ) * 100 * (1 - p.drift) ≤ (M : ℚ) * 10 ^ s * (1 - p.drift) :=
        mul_le_mul_of_nonneg_right h4 (by linarith)
      have h6 : (M : ℚ) * 100 * (1 - p.drift) = M * 100 - 100 * (p.drift * M) := by ring
      have h7 : p.drift * M ≤ 1 / 20 * M := mul_le_mul_of_nonneg_right hdsmall (by positivity)
      linarith
    subst hs1
    have hMval : (M : ℚ) * 10 ^ (1 : ℤ) = 10 ^ (t + 1) := by
      rw [hMeq, zpow_one]
      push_cast
      ring
    rw [hMval] at hnear
    refine ⟨rfl, hMeq, ?_⟩
    push_cast
    exact hnear.trans_lt hdrift

/-! ## Into binary -/

namespace Floating

open Scratch

variable {p : Precision}

/-- **What was stored was within the byte**, and keeps its sign. -/
theorem stored_of_pack {d : Scratch p} {x : Floating p} (hd : d.Aligned) (hpack : d.pack = .ok x)
    (hx : x.isZero = false) :
    (0 < d.exp ∧ d.exp ≤ 255) ∧ x.neg = d.neg ∧ Near p 64 x.unpack.magnitude d.magnitude := by
  obtain ⟨hv, hlo, hhi, hsat⟩ := pack_eq_ok_nonzero hpack hx
  have hpos := ((vanishes_eq_false_iff d).mp hv).2
  have hneg := congrArg Scratch.neg (unpack_saturate hv hhi hlo.le)
  have hround := d.align.round_snd_mem
  rw [hd.align_eq] at hround hhi
  refine ⟨⟨hpos, by omega⟩, ?_, near_of_pack hd hpack hx⟩
  rw [hsat]
  exact hneg

/-- **What is stored for a decimal** is at most 123 steps from it: 59 of scaling, since
the exponent starts below 180 and ends inside its byte, and one rounding. -/
theorem near_of_ofDecimal {m : ℕ} {e : ℤ} {x : Floating p} (hm : m ≠ 0)
    (hm' : m < 10 ^ p.faithfulDigits) (h : ofDecimal ⟨m, e⟩ = .ok x) (hx : x.isZero = false) :
    x.neg = false ∧ Near p 123 x.unpack.magnitude (m * 10 ^ e) := by
  have hfit : m < 2 ^ p.manBits := hm'.trans p.ten_pow_faithfulDigits_lt
  set start := (Scratch.ofInt p m).align with hstart
  have ha : start.Aligned := align_aligned (by rw [man_ofInt]; exact hm)
  have hexp : start.exp = 128 + bitLength m := exp_align_ofInt hm
  have hbits : 0 < bitLength m ∧ bitLength m ≤ 50 := by
    refine ⟨bitLength_pos hm, bitLength_le (hm'.trans_le ?_)⟩
    cases p <;> decide
  have hmag : start.magnitude = m := by
    rw [← magnitude_unpack_ofInt (p := p) hm hfit, unpack_ofInt hm hfit]
  have hneg : start.neg = false := by
    rw [hstart, align_neg]
    simp [Scratch.ofInt]
  rw [ofDecimal, if_neg (by simpa using hm)] at h
  simp only [← hstart] at h
  -- one of the two runs is empty, by the sign of the exponent
  rcases le_or_gt 0 e with he | he
  · obtain ⟨n, rfl⟩ : ∃ n : ℕ, e = n := ⟨e.toNat, by omega⟩
    have hdown : (-(n : ℤ)).toNat = 0 := by omega
    rw [hdown, overTen, Int.toNat_natCast] at h
    obtain ⟨hal, hsign, hrun⟩ := timesTen_spec n ha (by omega)
    obtain ⟨⟨hlo, hhi⟩, hxneg, hpack⟩ := stored_of_pack hal h hx
    rw [hsign.trans hneg] at hxneg
    refine ⟨hxneg, ?_⟩
    rcases hrun with hout | ⟨hmove, hnear⟩
    · omega
    · have h1 := hpack.trans hnear
      rw [hmag, mul_comm] at h1
      rw [zpow_natCast]
      exact h1.mono (by omega) (unpack_aligned x).magnitude_pos.le (by positivity)
  · obtain ⟨n, rfl⟩ : ∃ n : ℕ, e = -n := ⟨(-e).toNat, by omega⟩
    have hup : (-(n : ℤ)).toNat = 0 := by omega
    rw [hup, timesTen, neg_neg, Int.toNat_natCast] at h
    obtain ⟨hal, hsign, hrun⟩ := overTen_spec n ha
    obtain ⟨⟨hlo, hhi⟩, hxneg, hpack⟩ := stored_of_pack hal h hx
    rw [hsign.trans hneg] at hxneg
    refine ⟨hxneg, ?_⟩
    rcases hrun with hout | ⟨hmove, hnear⟩
    · omega
    · have hpos : (0 : ℚ) ≤ 10 ^ (-(n : ℤ)) := by positivity
      have h1 := hpack.trans (p := p) (m := n) (c := m * 10 ^ (-(n : ℤ))) (by
        have h2 := hnear.mul_left hpos
        rw [← mul_assoc, zpow_neg, zpow_natCast, inv_mul_cancel₀ (by positivity), one_mul, hmag,
          mul_comm] at h2
        rw [zpow_neg, zpow_natCast]
        exact h2)
      exact h1.mono (by omega) (unpack_aligned x).magnitude_pos.le (by positivity)

/-! ## Back to decimal -/

theorem digitCount_some {t : ℕ} (ht : t + 1 ≤ p.digits) :
    digitCount p (some (t + 1)) = t + 1 := by
  simp only [digitCount, Option.getD_some, Nat.min_eq_left ht]
  exact Nat.max_eq_right (Nat.succ_pos t)

/-- The digits read off a nonzero value, once the value is scaled. -/
theorem toDecimal_eq {x : Floating p} {t : ℕ} (hx : x.isZero = false) (ht : t + 1 ≤ p.digits) :
    let r := scaleBetween (ofInt (10 ^ t : ℕ) : Floating p).unpack
      (ofInt (10 ^ (t + 1) : ℕ) : Floating p).unpack { x.unpack with neg := false }
    x.toDecimal (some (t + 1)) =
      if 10 ^ (t + 1) ≤ r.1.nearestNat
      then ⟨if x.neg then -((r.1.nearestNat / 10 : ℕ) : ℤ) else (r.1.nearestNat / 10 : ℕ), r.2 + 1⟩
      else ⟨if x.neg then -(r.1.nearestNat : ℤ) else r.1.nearestNat, r.2⟩ := by
  have hcount := digitCount_some ht
  have hdiv : 10 ^ (t + 1) / 10 = 10 ^ t := by
    rw [Nat.pow_succ, Nat.mul_div_cancel _ (by norm_num)]
  intro r
  rw [toDecimal, if_neg (by simp [hx])]
  simp only [hcount, hdiv]
  by_cases hover : 10 ^ (t + 1) ≤ r.1.nearestNat
  · rw [if_pos hover]
    simp only [r] at hover ⊢
    simp only [if_pos hover]
  · rw [if_neg hover]
    simp only [r] at hover ⊢
    simp only [if_neg hover]

/-- A number filled up with zeros to `t + 1` digits has exactly these digits. -/
theorem filled_mem {m t : ℕ} (hm : 1 ≤ m) (hlen : (Nat.digits 10 m).length ≤ t + 1) :
    10 ^ t ≤ m * 10 ^ (t + 1 - (Nat.digits 10 m).length)
      ∧ m * 10 ^ (t + 1 - (Nat.digits 10 m).length) < 10 ^ (t + 1) := by
  set pad := t + 1 - (Nat.digits 10 m).length with hpad
  have hsum : t + 1 = (Nat.digits 10 m).length + pad := by omega
  constructor
  · have h1 : 10 ^ (Nat.digits 10 m).length ≤ 10 * m :=
      Nat.base_pow_length_digits_le 10 m (by norm_num) (by omega)
    have h2 : 10 * 10 ^ t ≤ 10 * (m * 10 ^ pad) := by
      calc 10 * 10 ^ t = 10 ^ (Nat.digits 10 m).length * 10 ^ pad := by
            rw [← pow_add, ← pow_succ', hsum]
        _ ≤ 10 * m * 10 ^ pad := Nat.mul_le_mul_right _ h1
        _ = 10 * (m * 10 ^ pad) := by ring
    omega
  · have h1 : m < 10 ^ (Nat.digits 10 m).length := Nat.lt_base_pow_length_digits (by norm_num)
    rw [hsum, pow_add]
    exact Nat.mul_lt_mul_of_pos_right h1 (by positivity)

/-- **Decimal round trip.** A number of at most six digits for singles, fifteen for
doubles, that is stored as a nonzero value reads back digit by digit: asked for `d`
digits, at least its own, the value gives the number filled up with zeros to `d`
digits. -/
theorem toDecimal_ofDecimal (m : ℕ) (e : ℤ) (d : ℕ) (x : Floating p) (hm : 1 ≤ m)
    (hm' : m < 10 ^ p.faithfulDigits) (h : ofDecimal ⟨m, e⟩ = .ok x) (hx : x.isZero = false)
    (hlen : (Nat.digits 10 m).length ≤ d) (hd : d ≤ p.faithfulDigits) :
    x.toDecimal (some d) = ⟨m * 10 ^ (d - (Nat.digits 10 m).length),
      e - (d - (Nat.digits 10 m).length : ℕ)⟩ := by
  obtain ⟨hneg, hin⟩ := near_of_ofDecimal (by omega) hm' h hx
  set pad := d - (Nat.digits 10 m).length with hpad
  have hlenpos : 0 < (Nat.digits 10 m).length :=
    List.length_pos_iff.mpr (Nat.digits_ne_nil_iff_ne_zero.mpr (by omega))
  obtain ⟨t, rfl⟩ : ∃ t, d = t + 1 := ⟨d - 1, by omega⟩
  obtain ⟨hge, hlt⟩ := filled_mem hm hlen
  have hexact : (m : ℚ) * 10 ^ e = (m * 10 ^ pad : ℕ) * 10 ^ (e - pad) := by
    rw [zpow_sub₀ (by norm_num), zpow_natCast]
    push_cast
    field_simp
  have hfit : 10 ^ (t + 1) < 2 ^ p.manBits :=
    (Nat.pow_le_pow_right (by norm_num) hd).trans_lt p.ten_pow_faithfulDigits_lt
  have hexp : 0 < x.unpack.exp ∧ x.unpack.exp ≤ 255 := by
    have h1 := x.exponent_lt
    have h2 : x.exponent ≠ 0 := by simpa [isZero] using hx
    show 0 < (x.exponent : ℤ) ∧ (x.exponent : ℤ) ≤ 255
    omega
  obtain ⟨hnear, hlo, hhi⟩ := scaleBetween_spec hfit (d := { x.unpack with neg := false })
    ⟨(unpack_aligned x).le_man, (unpack_aligned x).man_lt⟩ hexp.1 hexp.2
  rw [toDecimal_eq hx (hd.trans p.faithfulDigits_lt_digits.le)]
  set r := scaleBetween (ofInt (10 ^ t : ℕ) : Floating p).unpack
    (ofInt (10 ^ (t + 1) : ℕ) : Floating p).unpack { x.unpack with neg := false } with hr
  -- the two drifts add up, and `r.1` is compared with the number moved by what is left
  have hy : Near p 228 r.1.magnitude ((m * 10 ^ pad : ℕ) * 10 ^ (e - pad - r.2)) := by
    have h1 := hnear.trans (hin.mul_left (c := (10 : ℚ) ^ (-r.2)) (by positivity) |> fun h2 => by
      rw [mul_comm _ x.unpack.magnitude] at h2
      exact h2)
    rw [hexact, mul_left_comm, ← zpow_add₀ (by norm_num), neg_add_eq_sub] at h1
    exact h1
  have habs := hy.abs_sub_le (by norm_num) ((by positivity : (0 : ℚ) ≤ 10 ^ t).trans hlo)
    (by positivity)
  -- either the digits as they are, or one digit too many that is dropped again
  rcases digits_of_near hd hge hlt habs hlo hhi with ⟨hs, hclose⟩ | ⟨hs, hpow, hclose⟩
  · rw [nearestNat_eq_of_abs_sub_lt hclose, if_neg (by omega), hneg]
    simp only [Decimal.mk.injEq]
    refine ⟨by push_cast; rfl, by omega⟩
  · rw [nearestNat_eq_of_abs_sub_lt hclose, if_pos le_rfl, hneg]
    simp only [Decimal.mk.injEq]
    refine ⟨?_, by omega⟩
    rw [Nat.pow_succ, Nat.mul_div_cancel _ (by norm_num), ← hpow]
    push_cast
    rfl

/-- The double nearest to `1E-38` drifts just below the limit for fifteen digits, so it
is scaled once more and rounds to a number of sixteen. -/
theorem toDecimal_ofDecimal_drifted :
    let x : Double := ⟨false, 25271024615671586, 2, by decide, by decide⟩
    ofDecimal ⟨(1 : ℕ), -38⟩ = .ok x ∧ x.isZero = false
      ∧ x.toDecimal (some 15) = ⟨100000000000000, -52⟩ := by
  intro x
  have hin : ofDecimal ⟨(1 : ℕ), -38⟩ = .ok x := by decide +kernel
  refine ⟨hin, rfl, ?_⟩
  have h := toDecimal_ofDecimal 1 (-38) 15 x le_rfl (by decide) hin rfl (by norm_num) (by decide)
  norm_num at h
  exact h

end Floating

end BasicNumerics
