/-
From decimal: how far off, and when not at all.

The mantissa of a decimal is cut to the working width, multiplied by ten or divided by it as often
as the exponent says, and stored. Every step drifts by a unit, and the loops end early once they
are far outside of the range. What is left to store stands for the decimal all the same
(`TenRun.conveys`): sixty steps lead past the range from every mantissa, so either there were no
more of them, and the drift is less than half of a last place, or the decimal is past the same end
of the range as the working value.

A step loses nothing where its result fits, and the decimals that can be stored are reached
through numbers that fit: on the way up these are divisors of the result, on the way down they are
divisors of the mantissa (`TenRun.magnitude_eq`).
-/
import BasicNumerics.Proofs.Floating.Digits
import BasicNumerics.Proofs.Floating.Fits
import BasicNumerics.Proofs.Floating.ScalingRuns

set_option autoImplicit false

namespace BasicNumerics

open Rounding

/-! ## Sixty steps -/

namespace Precision

theorem drift_sixty_le (p : Precision) : (1 + p.unitShare) ^ 60 - 1 ≤ 61 * p.unitShare := by
  cases p <;> norm_num [unitShare, width, manBits]

theorem unitShare_le (p : Precision) : p.unitShare ≤ 1 / 2 ^ 31 := by
  cases p <;> norm_num [unitShare, width, manBits]

theorem two_pow_width_mul_unitShare (p : Precision) : 2 ^ p.width * p.unitShare = 2 := by
  cases p <;> norm_num [unitShare, width, manBits]

/-- Half a last place below the end of the range. -/
theorem two_zpow_sub_manBits_half (p : Precision) :
    (2 : ℚ) ^ ((127 : ℤ) - p.manBits) / 2 = 64 * p.unitShare * 2 ^ 127 := by
  cases p <;> norm_num [unitShare, width, manBits]

/-- The last place of a significand is 256 units, as a share of the least one. -/
theorem two_zpow_one_sub_manBits (p : Precision) :
    (2 : ℚ) ^ (1 - (p.manBits : ℤ)) = 256 * p.unitShare := by
  cases p <;> norm_num [unitShare, width, manBits]

end Precision

variable {p : Precision} {v a : ℚ}

/-- What sixty steps drift, as a share of the result. -/
def Drifted (p : Precision) (v a : ℚ) : Prop := |a - v| ≤ 61 * p.unitShare * a

theorem Drift.drifted {n : ℕ} (h : Drift p n a v) (hn : n ≤ 60) (ha : 0 ≤ a) : Drifted p v a :=
  (h.abs_sub_le ha hn).trans (mul_le_mul_of_nonneg_right p.drift_sixty_le ha)

/-- So little drift does not double a number, nor halve it. -/
theorem Drifted.le_two_mul (h : Drifted p v a) (ha : 0 ≤ a) : a ≤ 2 * v ∧ v ≤ 2 * a := by
  have hshare := mul_le_mul_of_nonneg_right p.unitShare_le ha
  have hmiss := abs_le.mp h
  constructor <;> linarith

/-- A working magnitude `a` stands for `v`: it drifted by sixty steps at most, or both are past
the same end of the range. -/
inductive Conveys (p : Precision) (v a : ℚ) : Prop
  | near (h : Drifted p v a)
  | above (hv : 2 ^ 127 ≤ v) (ha : 2 ^ 127 ≤ a)
  | below (hv : v < 2 ^ (-128 : ℤ)) (ha : a < 2 ^ (-128 : ℤ))

/-! ## Storing what was scaled -/

/-- **Rounding reaches the next power of two** from less than half of a last place below it. -/
theorem Rounding.two_zpow_le_roundBits_of_lt {bits : ℕ} {e : ℤ} (hbits : 0 < bits)
    (hv : 2 ^ e - 2 ^ (e - bits) / 2 < v) : 2 ^ e ≤ roundBits bits v := by
  rcases le_or_gt (2 ^ e) v with hle | hlt
  · exact two_zpow_le_roundBits hbits hle
  have hplace : (0 : ℚ) < 2 ^ (e - bits) := by positivity
  have hmost : (2 : ℚ) ^ (e - bits) ≤ 2 ^ (e - 1) := zpow_le_zpow_right₀ one_le_two (by omega)
  have hdouble : (2 : ℚ) ^ e = 2 * 2 ^ (e - 1) := by
    rw [← zpow_one_add₀ two_ne_zero, add_sub_cancel]
  have hscale : (2 : ℚ) ^ e = 2 ^ bits * 2 ^ (e - bits) := by
    rw [← zpow_natCast, ← zpow_add₀ two_ne_zero, add_sub_cancel]
  have hpos : 0 < v := by linarith
  have hlast : lastPlace bits v = 2 ^ (e - bits) := by
    rw [lastPlace_eq (e := e - 1), sub_add_cancel]
    · rw [abs_of_pos hpos]
      linarith
    · rwa [abs_of_pos hpos, sub_add_cancel]
  have hquotient : 2 ^ bits - 1 / 2 < v / 2 ^ (e - bits) := by
    rw [lt_div_iff₀ hplace]
    linarith
  -- the nearest whole number of last places is past the one below the power
  have hnear := abs_le.mp (abs_nearestInt_sub_le (v / 2 ^ (e - bits)))
  have hnext : (2 : ℤ) ^ bits ≤ nearestInt (v / 2 ^ (e - bits)) := by
    have hgt : ((2 ^ bits - 1 : ℤ) : ℚ) < nearestInt (v / 2 ^ (e - bits)) := by
      push_cast
      linarith
    exact Int.le_of_sub_one_lt (by exact_mod_cast hgt)
  rw [roundBits, hlast, hscale]
  exact mul_le_mul_of_nonneg_right (by exact_mod_cast hnext) hplace.le

namespace Scratch

variable {d s w : Scratch p} {r : Floating p} {e : ℤ}

/-- The three ways to store a working value. -/
inductive StoredAs (d : Scratch p) : Outcome (Floating p) (Floating p) → Prop
  | small (h : d.magnitude < 2 ^ (-128 : ℤ)) : StoredAs d (.ok .zero)
  | large (h : 2 ^ 127 ≤ roundBits p.manBits d.magnitude) :
      StoredAs d (.error (.overflow (.max d.neg)))
  | rounded (z : Floating p) (hlo : 2 ^ (-128 : ℤ) ≤ d.magnitude)
      (hhi : roundBits p.manBits d.magnitude < 2 ^ 127) (hz : z.isZero = false)
      (hneg : z.neg = d.neg) (hmag : z.unpack.magnitude = roundBits p.manBits d.magnitude)
      (hplace : lastPlace p.manBits d.magnitude ≤ 2 ^ ((z.exponent : ℤ) - 128 - p.manBits)) :
      StoredAs d (.ok z)

theorem Aligned.storedAs (h : d.Aligned) : StoredAs d d.pack := by
  rcases lt_or_ge d.magnitude (2 ^ (-128 : ℤ)) with hsmall | hlo
  · have hself : CutOf Even d.magnitude d := h.cutOf
    rw [hself.pack_of_lt hsmall]
    exact .small hsmall
  rcases lt_or_ge (roundBits p.manBits d.magnitude) (2 ^ 127) with hhi | hlarge
  · have hexp := (h.two_zpow_le_iff (-128)).mp hlo
    obtain ⟨z, hz, hnonzero, hneg, hmag, hplace⟩ := h.exists_pack_eq_ok (by omega) hhi
    rw [hz]
    exact .rounded z hlo hhi hnonzero hneg hmag hplace
  · rw [h.pack_of_le hlarge]
    exact .large hlarge

/-- Rounding moves an aligned value by half of the guard byte at most. -/
theorem Aligned.abs_roundBits_sub_le (h : d.Aligned) :
    |roundBits p.manBits d.magnitude - d.magnitude| ≤ 128 * d.unit := by
  have hhalf := abs_roundBits_sub_le_half p.manBits d.magnitude
  rw [h.lastPlace_magnitude] at hhalf
  linarith

/-- The drift is less than the half of the guard byte that rounding leaves. -/
theorem Aligned.abs_sub_lt_of_drifted (h : d.Aligned) (hv : Drifted p v d.magnitude) :
    |d.magnitude - v| < 128 * d.unit := by
  have hshare := p.unitShare_mem.1
  have hlt := mul_lt_mul_of_pos_left h.magnitude_lt hshare
  have hwidth : p.unitShare * (2 ^ p.width * d.unit) = 2 * d.unit := by
    rw [← mul_assoc, mul_comm p.unitShare, p.two_pow_width_mul_unitShare]
  have hmiss : |d.magnitude - v| ≤ 61 * p.unitShare * d.magnitude := hv
  have hunit := d.unit_pos
  linarith

/-- **What is stored is within one last place** of what it stands for. -/
theorem Aligned.abs_sub_lt_of_pack (ha : d.Aligned) (h : Conveys p v d.magnitude)
    (hr : d.pack = .ok r) (hz : r.isZero = false) :
    r.neg = d.neg ∧ |r.unpack.magnitude - v| < 2 ^ ((r.exponent : ℤ) - 128 - p.manBits) := by
  have hstored := ha.storedAs
  rw [hr] at hstored
  cases hstored with
  | small hsmall => exact absurd hz (by simp)
  | rounded _ hlo hhi _ hneg hmag hplace =>
    refine ⟨hneg, ?_⟩
    cases h with
    | near hnear =>
      have hround := ha.abs_roundBits_sub_le
      have hmiss := ha.abs_sub_lt_of_drifted hnear
      -- of the 256 units of a last place rounding takes half, and the drift not all of the rest
      rw [ha.lastPlace_magnitude] at hplace
      rw [hmag]
      calc |roundBits p.manBits d.magnitude - v|
          ≤ |roundBits p.manBits d.magnitude - d.magnitude| + |d.magnitude - v| := abs_sub_le _ _ _
        _ < 2 ^ ((r.exponent : ℤ) - 128 - p.manBits) := by linarith
    | above _ hlarge =>
      -- rounding does not take it back into the range
      have hlead : (2 : ℚ) ^ (127 : ℤ) ≤ d.magnitude := by exact_mod_cast hlarge
      have hround := two_zpow_le_roundBits (manBits_pos p) hlead
      exact absurd hhi (not_lt.mpr (by exact_mod_cast hround))
    | below _ hsmall => linarith

/-- **Zero is stored** only for what is hardly above the least value. -/
theorem Aligned.lt_of_pack_isZero (ha : d.Aligned) (h : Conveys p v d.magnitude)
    (hr : d.pack = .ok r) (hz : r.isZero = true) :
    v < (1 + 2 ^ (1 - (p.manBits : ℤ))) * 2 ^ (-128 : ℤ) := by
  have hshare := p.unitShare_mem.1
  have hleast : (0 : ℚ) < 2 ^ (-128 : ℤ) := by positivity
  have hstored := ha.storedAs
  rw [hr] at hstored
  rw [p.two_zpow_one_sub_manBits]
  cases hstored with
  | small hsmall =>
    have hmul := mul_lt_mul_of_pos_left hsmall hshare
    have hpos := mul_pos hshare hleast
    cases h with
    | near hnear =>
      have hmiss := abs_le.mp hnear
      linarith
    | above _ hlarge =>
      have hrange : (2 : ℚ) ^ (-128 : ℤ) ≤ 2 ^ 127 := by norm_num
      linarith
    | below hv _ => linarith
  | rounded _ _ _ hnonzero => simp [hz] at hnonzero

/-- **An overflow is reported** only for what is hardly below the end of the range. -/
theorem Aligned.lt_of_pack_error {f : Failure (Floating p)} (ha : d.Aligned)
    (h : Conveys p v d.magnitude) (hf : d.pack = .error f) :
    f = .overflow (.max d.neg) ∧ (1 - 2 ^ (1 - (p.manBits : ℤ))) * 2 ^ 127 < v := by
  have hshare := p.unitShare_mem.1
  have hlittle := p.unitShare_le
  have hunit := ha.unit_le
  have hround := abs_le.mp ha.abs_roundBits_sub_le
  have hpos := ha.magnitude_pos
  have hstored := ha.storedAs
  rw [hf] at hstored
  rw [p.two_zpow_one_sub_manBits]
  cases hstored with
  | large hlarge =>
    refine ⟨rfl, ?_⟩
    -- rounding reached the end of the range, so half of a guard byte was missing at most
    have hreach : 2 ^ 127 ≤ (1 + 128 * p.unitShare) * d.magnitude := by linarith
    cases h with
    | near hnear =>
      have hmiss := abs_le.mp hnear
      have hshort : 0 < 1 - 256 * p.unitShare := by linarith
      have hsmall : 0 < p.unitShare * d.magnitude := mul_pos hshare hpos
      have hsquare : 0 ≤ p.unitShare * (p.unitShare * d.magnitude) :=
        mul_nonneg hshare.le hsmall.le
      calc (1 - 256 * p.unitShare) * 2 ^ 127
          ≤ (1 - 256 * p.unitShare) * ((1 + 128 * p.unitShare) * d.magnitude) :=
            mul_le_mul_of_nonneg_left hreach hshort.le
        _ < v := by linarith
    | above hv _ =>
      have htop : (0 : ℚ) < p.unitShare * 2 ^ 127 := mul_pos hshare (by norm_num)
      linarith
    | below _ hsmall =>
      have hrange : (2 : ℚ) ^ (-128 : ℤ) ≤ 1 := by norm_num
      have hone : p.unitShare * d.magnitude ≤ p.unitShare * 1 :=
        mul_le_mul_of_nonneg_left (hsmall.le.trans hrange) hshare.le
      linarith

/-- **An overflow is reported** for all that is past the range: the drift is less than what
rounding makes up for. -/
theorem Aligned.pack_of_le_of_conveys (ha : d.Aligned) (h : Conveys p v d.magnitude)
    (hv : 2 ^ 127 ≤ v) : d.pack = .error (.overflow (.max d.neg)) := by
  have hshare := p.unitShare_mem.1
  have hreach : (2 : ℚ) ^ (127 : ℤ) ≤ roundBits p.manBits d.magnitude := by
    cases h with
    | near hnear =>
      apply two_zpow_le_roundBits_of_lt (manBits_pos p)
      rw [p.two_zpow_sub_manBits_half]
      by_contra hshort
      have hend : (0 : ℚ) < p.unitShare * 2 ^ 127 := mul_pos hshare (by norm_num)
      have htop : d.magnitude ≤ 2 ^ 127 := by
        rw [not_lt] at hshort
        norm_num at hshort ⊢
        linarith
      have hmost := mul_le_mul_of_nonneg_left htop hshare.le
      have hmiss := abs_le.mp hnear
      norm_num at hshort hv hmiss hmost hend
      linarith
    | above _ hlarge => exact two_zpow_le_roundBits (manBits_pos p) (by exact_mod_cast hlarge)
    | below hsmall _ =>
      have hrange : (2 : ℚ) ^ (-128 : ℤ) ≤ 2 ^ 127 := by norm_num
      linarith
  exact ha.pack_of_le (by exact_mod_cast hreach)

/-! ## The two loops -/

/-- A loop of at most `n` steps that ends early once a result is `out`. -/
theorem exists_iterate_of_loop {α : Type} (loop : ℕ → α → α) {step : α → α} (out : α → Prop)
    [DecidablePred out] (hzero : ∀ a, loop 0 a = a)
    (hsucc : ∀ n a, loop (n + 1) a = if out (step a) then step a else loop n (step a)) (n : ℕ) :
    ∀ a, ∃ k ≤ n, loop n a = step^[k] a ∧ (k = n ∨ out (loop n a)) := by
  induction n with
  | zero =>
    intro a
    exact ⟨0, le_rfl, hzero a, Or.inl rfl⟩
  | succ n ih =>
    intro a
    rw [hsucc]
    by_cases hout : out (step a)
    · rw [if_pos hout]
      exact ⟨1, by omega, rfl, Or.inr hout⟩
    · rw [if_neg hout]
      obtain ⟨k, hk, heq, hend⟩ := ih (step a)
      refine ⟨k + 1, by omega, heq, ?_⟩
      rcases hend with rfl | hend
      · exact Or.inl rfl
      · exact Or.inr hend

/-- `w` comes from `s` by steps in one direction: as many as the exponent `e` says, or fewer that
led far out of the range. -/
inductive TenRun (e : ℤ) (s w : Scratch p) : Prop
  | up (n k : ℕ) (he : e = n) (hk : k ≤ n) (hw : w = tenfold^[k] s) (hend : k = n ∨ 0x1ff < w.exp)
  | down (n k : ℕ) (he : e = -n) (hk : k ≤ n) (hw : w = tenth^[k] s)
      (hend : k = n ∨ w.exp < -0x1ff)

theorem tenRun (s : Scratch p) (e : ℤ) : TenRun e s (overTen (-e).toNat (timesTen e.toNat s)) := by
  rcases le_total 0 e with he | he
  · obtain ⟨k, hk, heq, hend⟩ := exists_iterate_of_loop (timesTen (p := p))
      (fun d => 0x1ff < d.exp) (fun _ => rfl) (fun _ _ => rfl) e.toNat s
    rw [show (-e).toNat = 0 by omega, overTen]
    exact .up e.toNat k (by omega) hk heq hend
  · obtain ⟨k, hk, heq, hend⟩ := exists_iterate_of_loop (overTen (p := p))
      (fun d => d.exp < -0x1ff) (fun _ => rfl) (fun _ _ => rfl) (-e).toNat s
    rw [show e.toNat = 0 by omega, timesTen]
    exact .down (-e).toNat k (by omega) hk heq hend

theorem TenRun.aligned (hs : s.Aligned) (hexp : 0 < s.exp) (h : TenRun e s w) : w.Aligned := by
  rcases h with ⟨n, k, -, -, rfl, -⟩ | ⟨n, k, -, -, rfl, -⟩
  · exact (scales_tenfold.ok_iterate ⟨hs, hexp⟩ k).1
  · exact scales_tenth.ok_iterate hs k

/-! ## Drift of a run -/

theorem drift_of_cutOf (h : CutOf Even v s) : Drift p 1 s.magnitude v :=
  h.aligned.drift_of_abs_sub_le h.abs_sub_lt.le

/-- Cutting the mantissa is one more step. -/
theorem Scales.drifted_iterate {c : ℚ} {ok : Scratch p → Prop} {step : Scratch p → Scratch p}
    (h : Scales c ok step) (hc : 0 ≤ c) (hs : ok s) (hcut : CutOf Even v s) {k : ℕ} (hk : k ≤ 59) :
    Drifted p (c ^ k * v) (step^[k] s).magnitude := by
  have hrun := (h.drift_iterate hc hs k).trans ((drift_of_cutOf hcut).mul_left (pow_nonneg hc k))
  exact hrun.drifted (by omega) (h.aligned (h.ok_iterate hs k)).magnitude_pos.le

theorem ten_pow_mul_le {n k : ℕ} (hv : 0 ≤ v) (hk : k ≤ n) : (10 : ℚ) ^ k * v ≤ 10 ^ n * v :=
  mul_le_mul_of_nonneg_right (pow_le_pow_right₀ (by norm_num) hk) hv

theorem tenth_pow_mul_le {n k : ℕ} (hv : 0 ≤ v) (hk : k ≤ n) :
    (1 / 10 : ℚ) ^ n * v ≤ (1 / 10) ^ k * v :=
  mul_le_mul_of_nonneg_right (pow_le_pow_of_le_one (by norm_num) (by norm_num) hk) hv

theorem mul_ten_zpow_neg (v : ℚ) (n : ℕ) : v * 10 ^ (-(n : ℤ)) = (1 / 10) ^ n * v := by
  rw [zpow_neg, zpow_natCast, one_div, inv_pow, mul_comm]

theorem conveys_up {n k : ℕ} (hcut : CutOf Even v s) (hv : 1 ≤ v) (hk : k ≤ n)
    (hend : k = n ∨ 0x1ff < (tenfold^[k] s).exp) :
    Conveys p (v * 10 ^ n) (tenfold^[k] s).magnitude := by
  have hexp := (hcut.two_zpow_le_iff 0).mp (by rwa [zpow_zero])
  have ha := (scales_tenfold.ok_iterate ⟨hcut.aligned, (by omega : 0 < s.exp)⟩ k).1
  have hmove := exp_iterate_tenfold hcut.aligned (by omega) k
  rcases Nat.lt_or_ge 59 k with hmany | hfew
  · -- from one upwards, sixty steps lead out of the range
    have hpow : (10 : ℚ) ^ 60 ≤ 10 ^ n := pow_le_pow_right₀ (by norm_num) (by omega)
    have hout := (ha.two_zpow_le_iff 127).mpr (by omega)
    refine .above ?_ (by exact_mod_cast hout)
    calc (2 : ℚ) ^ 127 ≤ 10 ^ 60 := by norm_num
      _ ≤ 10 ^ n := hpow
      _ ≤ v * 10 ^ n := le_mul_of_one_le_left (by positivity) hv
  · have hdrift := scales_tenfold.drifted_iterate (by norm_num)
      ⟨hcut.aligned, (by omega : 0 < s.exp)⟩ hcut hfew
    rcases hend with rfl | hfar
    · rw [mul_comm v]
      exact .near hdrift
    · -- an early end: the rest of the steps would only have led further
      have hout := (ha.two_zpow_le_iff 128).mpr (by omega)
      have hlarge : (2 : ℚ) ^ 128 ≤ (tenfold^[k] s).magnitude := by exact_mod_cast hout
      have hhalf := (hdrift.le_two_mul ha.magnitude_pos.le).1
      have hpow := ten_pow_mul_le (by linarith : 0 ≤ v) hk
      exact .above (by linarith) (by linarith)

theorem lt_least_of_le_two_mul {b : ℚ} (h : a ≤ 2 * b) (hb : b < 2 ^ (-129 : ℤ)) :
    a < 2 ^ (-128 : ℤ) :=
  calc a ≤ 2 * b := h
    _ < 2 * 2 ^ (-129 : ℤ) := mul_lt_mul_of_pos_left hb two_pos
    _ = 2 ^ (-128 : ℤ) := by norm_num

theorem conveys_down {n k : ℕ} (hcut : CutOf Even v s) (hv : 1 ≤ v) (hhi : v ≤ 2 ^ 63) (hk : k ≤ n)
    (hend : k = n ∨ (tenth^[k] s).exp < -0x1ff) :
    Conveys p (v * 10 ^ (-(n : ℤ))) (tenth^[k] s).magnitude := by
  have hnonneg : 0 ≤ v := by linarith
  have ha := scales_tenth.ok_iterate hcut.aligned k
  rw [mul_ten_zpow_neg]
  rcases Nat.lt_or_ge 59 k with hmany | hfew
  · -- from the largest mantissa downwards, 59 steps lead out of the range already
    have ha' := scales_tenth.ok_iterate hcut.aligned 59
    have hdrift := scales_tenth.drifted_iterate (by norm_num) hcut.aligned hcut le_rfl
    have hleast : (1 / 10 : ℚ) ^ 59 * v < 2 ^ (-129 : ℤ) :=
      (mul_le_mul_of_nonneg_left hhi (by positivity)).trans_lt (by norm_num)
    have hlt := lt_least_of_le_two_mul (hdrift.le_two_mul ha'.magnitude_pos.le).1 hleast
    have hexp := (ha'.magnitude_lt_iff (-128)).mp hlt
    -- and the others lead further down
    have hmove := exp_iterate_tenth ha' (k - 59)
    rw [← Function.iterate_add_apply, show k - 59 + 59 = k by omega] at hmove
    have hdown := tenth_pow_mul_le hnonneg (by omega : 59 ≤ n)
    refine .below (hdown.trans_lt (hleast.trans (by norm_num))) ?_
    rw [ha.magnitude_lt_iff]
    omega
  · have hdrift := scales_tenth.drifted_iterate (by norm_num) hcut.aligned hcut hfew
    rcases hend with rfl | hfar
    · exact .near hdrift
    · have hout := (ha.magnitude_lt_iff (-129)).mpr (by omega)
      have hlt := lt_least_of_le_two_mul (hdrift.le_two_mul ha.magnitude_pos.le).2 hout
      refine .below ((tenth_pow_mul_le hnonneg hk).trans_lt hlt) ?_
      rw [ha.magnitude_lt_iff]
      omega

/-- **What a run gives stands for the decimal,** whether it ended early or not. -/
theorem TenRun.conveys (hcut : CutOf Even v s) (hv : 1 ≤ v) (hhi : v ≤ 2 ^ 63)
    (h : TenRun e s w) : Conveys p (v * 10 ^ e) w.magnitude := by
  rcases h with ⟨n, k, rfl, hk, rfl, hend⟩ | ⟨n, k, rfl, hk, rfl, hend⟩
  · rw [zpow_natCast]
    exact conveys_up hcut hv hk hend
  · exact conveys_down hcut hv hhi hk hend

/-! ## Exact runs -/

/-- **Steps that are exact where two neighbours fit make an exact run.** -/
theorem Scales.magnitude_iterate {c : ℚ} {ok : Scratch p → Prop} {step : Scratch p → Scratch p}
    {bits : ℕ} (h : Scales c ok step)
    (hexact : ∀ {d}, ok d → Fits bits d.magnitude → Fits bits (c * d.magnitude) →
      (step d).magnitude = c * d.magnitude)
    (hs : ok s) {n : ℕ} (hfit : ∀ i ≤ n, Fits bits (c ^ i * s.magnitude)) :
    (step^[n] s).magnitude = c ^ n * s.magnitude := by
  induction n with
  | zero => rw [pow_zero, one_mul, Function.iterate_zero_apply]
  | succ n ih =>
    have hrun := ih fun i hi => hfit i (by omega)
    have hnow := hfit n (by omega)
    have hnext := hfit (n + 1) le_rfl
    rw [pow_succ', mul_assoc, ← hrun] at hnext
    rw [← hrun] at hnow
    rw [Function.iterate_succ_apply', hexact (h.ok_iterate hs n) hnow hnext, hrun, pow_succ',
      mul_assoc]

/-- With an empty guard byte the sum of eight times and twice a value is exact. -/
theorem magnitude_tenfold (h : d.Aligned) (hexp : 0 < d.exp) (hfit : Fits p.manBits d.magnitude)
    (hten : Fits p.manBits (10 * d.magnitude)) : d.tenfold.magnitude = 10 * d.magnitude := by
  -- the two bits that twice the value loses against eight times it are clear
  obtain ⟨c, hc⟩ := (by norm_num : 4 ∣ 256).trans (h.guard_dvd hfit)
  have hsum : d.tenfoldSum.magnitude = 10 * d.magnitude := by
    have hman : d.tenfoldSum.man = 5 * c := by
      rw [← fiveQuarters_four_mul, ← hc]
      rfl
    rw [magnitude, magnitude, unit_tenfoldSum, hman, hc]
    push_cast
    ring
  have hne : d.tenfoldSum.man ≠ 0 := by
    have hle := le_fiveQuarters d.man
    have hpos := h.man_ne_zero
    show fiveQuarters d.man ≠ 0
    omega
  have hcut := cutOf_align hne
  rw [hsum] at hcut
  rw [tenfold_eq hexp]
  exact hcut.magnitude_eq (hten.mono (Nat.le_add_right _ _))

theorem magnitude_tenth (h : d.Aligned) (hten : Fits p.width (1 / 10 * d.magnitude)) :
    d.tenth.magnitude = 1 / 10 * d.magnitude := by
  rw [one_div_mul_eq_div] at hten ⊢
  exact (cutOf_tenth h).magnitude_eq hten

/-- A decimal that fits the significand divides into its smaller ones. -/
theorem fits_up {n i : ℕ} (hs : s.Aligned) (hfit : Fits p.manBits (s.magnitude * 10 ^ n))
    (hi : i ≤ n) : Fits p.manBits (10 ^ i * s.magnitude) := by
  have hwhole : ∀ j : ℕ, s.magnitude * 10 ^ j = ((s.man * 10 ^ j : ℕ) : ℚ) * 2 ^ (s.exp - unitExp p) := by
    intro j
    rw [magnitude, unit]
    push_cast
    ring
  rw [hwhole] at hfit
  rw [mul_comm, hwhole]
  apply hfit.of_dvd (Nat.mul_ne_zero hs.man_ne_zero (by positivity))
  exact Nat.mul_dvd_mul_left _ (pow_dvd_pow 10 hi)

/-- On the way down everything divides the mantissa, which fits the width. -/
theorem fits_down {n i : ℕ} (hs : s.Aligned) (hfit : Fits p.manBits (s.magnitude * 10 ^ (-(n : ℤ))))
    (hi : i ≤ n) : Fits p.width ((1 / 10) ^ i * s.magnitude) := by
  obtain ⟨m, j, -, hm⟩ := hfit
  have hwhole : ∀ {l : ℕ}, l ≤ n →
      (1 / 10) ^ l * s.magnitude = ((m * 10 ^ (n - l) : ℕ) : ℚ) * 2 ^ j := by
    intro l hl
    have hback : s.magnitude = m * 2 ^ j * 10 ^ n := by
      rw [← hm, zpow_neg, zpow_natCast, inv_mul_cancel_right₀ (by positivity)]
    have hpow : (10 : ℚ) ^ n = 10 ^ l * 10 ^ (n - l) := by rw [← pow_add, Nat.add_sub_cancel' hl]
    rw [hback, hpow, one_div, inv_pow]
    push_cast
    field_simp
  have hstart : Fits p.width (((m * 10 ^ n : ℕ) : ℚ) * 2 ^ j) := by
    have hzero := hwhole (Nat.zero_le n)
    rw [pow_zero, one_mul, Nat.sub_zero] at hzero
    rw [← hzero]
    exact ⟨s.man, _, hs.man_lt, rfl⟩
  have hne : m * 10 ^ n ≠ 0 := by
    intro hzero
    have hs0 := hwhole (Nat.zero_le n)
    rw [Nat.sub_zero, hzero, pow_zero, one_mul, Nat.cast_zero, zero_mul] at hs0
    exact hs.magnitude_pos.ne' hs0
  rw [hwhole hi]
  exact hstart.of_dvd hne (Nat.mul_dvd_mul_left _ (pow_dvd_pow 10 (Nat.sub_le n i))) j

/-- **A run to a number that fits the significand is exact,** and does not end early. -/
theorem TenRun.magnitude_eq (hs : s.Aligned) (hexp : 0 < s.exp) (h : TenRun e s w)
    (hfit : Fits p.manBits (s.magnitude * 10 ^ e)) (hlo : 2 ^ (-128 : ℤ) ≤ s.magnitude * 10 ^ e)
    (hhi : s.magnitude * 10 ^ e < 2 ^ 127) : w.magnitude = s.magnitude * 10 ^ e := by
  have ha := h.aligned hs hexp
  have hpos := hs.magnitude_pos
  rcases h with ⟨n, k, rfl, hk, rfl, hend⟩ | ⟨n, k, rfl, hk, rfl, hend⟩
  · rw [zpow_natCast] at hfit hhi ⊢
    have hrun := scales_tenfold.magnitude_iterate (fun hd => magnitude_tenfold hd.1 hd.2) ⟨hs, hexp⟩
      (n := k) fun i hi => fits_up hs hfit (hi.trans hk)
    rcases hend with rfl | hfar
    · rw [hrun, mul_comm]
    · -- an early end would be past the range
      have hlarge := (ha.two_zpow_le_iff 127).mpr (by omega)
      have hle := ten_pow_mul_le hpos.le hk
      rw [hrun] at hlarge
      norm_num at hlarge hhi
      linarith
  · rw [mul_ten_zpow_neg] at hlo ⊢
    have hrun := scales_tenth.magnitude_iterate (fun hd _ => magnitude_tenth hd) hs
      (n := k) fun i hi => fits_down hs hfit (hi.trans hk)
    rcases hend with rfl | hfar
    · exact hrun
    · have hsmall := (ha.magnitude_lt_iff (-128)).mpr (by omega)
      rw [hrun] at hsmall
      have hle := tenth_pow_mul_le hpos.le hk
      exact absurd (hlo.trans hle) (not_le.mpr hsmall)

/-! ## Mantissas -/

theorem magnitude_ofInt_eq_abs (m : ℤ) : (ofInt p m).magnitude = |(m : ℚ)| := by
  rw [magnitude, unit, ofInt, sub_self, zpow_zero, mul_one, Nat.cast_natAbs, Int.cast_abs]

/-- A mantissa that fits the width starts as it is. -/
theorem magnitude_align_ofInt {m : ℤ} (h : |m| < 2 ^ p.width) :
    (ofInt p m).align.magnitude = |(m : ℚ)| := by
  rw [magnitude_align_of_le, magnitude_ofInt_eq_abs]
  apply bitLength_le
  show m.natAbs < 2 ^ p.width
  zify
  exact h

end Scratch

theorem Decimal.value_nonneg {d : Decimal} (h : 0 ≤ d.mantissa) : 0 ≤ d.value := by
  have hm : (0 : ℚ) ≤ d.mantissa := by exact_mod_cast h
  rw [value]
  positivity

/-- A decimal has the sign of its mantissa. -/
theorem Decimal.value_eq_signed (d : Decimal) :
    d.value = signed (decide (d.mantissa < 0)) |d.value| := by
  have hpos : (0 : ℚ) < 10 ^ d.exponent := by positivity
  rcases lt_or_ge d.mantissa 0 with hneg | hnonneg
  · have hvalue : d.value < 0 := mul_neg_of_neg_of_pos (by exact_mod_cast hneg) hpos
    rw [decide_eq_true hneg, signed, if_pos rfl, abs_of_neg hvalue, neg_neg]
  · rw [decide_eq_false (not_lt.mpr hnonneg), signed, if_neg (by simp),
      abs_of_nonneg (value_nonneg hnonneg)]

namespace Floating

open Scratch

/-- What is stored for a decimal: the sign is that of the mantissa, the magnitude stands for that
of the decimal, and is it where nothing is lost. -/
structure HoldsDecimal (d : Decimal) (w : Scratch p) : Prop where
  aligned : w.Aligned
  neg_eq : w.neg = decide (d.mantissa < 0)
  conveys : Conveys p |d.value| w.magnitude
  exact : |d.mantissa| < 2 ^ p.width → Fits p.manBits |d.value| → 2 ^ (-128 : ℤ) ≤ |d.value| →
    |d.value| < 2 ^ 127 → w.magnitude = |d.value|

theorem exists_holdsDecimal {d : Decimal} (hm : d.mantissa ≠ 0) (hlo : -2 ^ 63 ≤ d.mantissa)
    (hhi : d.mantissa < 2 ^ 63) : ∃ w : Scratch p, ofDecimal d = w.pack ∧ HoldsDecimal d w := by
  have hvalue : |d.value| = |(d.mantissa : ℚ)| * 10 ^ d.exponent := by
    rw [Decimal.value, abs_mul, abs_of_pos (by positivity : (0 : ℚ) < 10 ^ d.exponent)]
  have hone : (1 : ℚ) ≤ |(d.mantissa : ℚ)| := by exact_mod_cast Int.one_le_abs hm
  have hmost : |(d.mantissa : ℚ)| ≤ 2 ^ 63 := by exact_mod_cast abs_le.mpr ⟨hlo, hhi.le⟩
  have hcut : CutOf Even |(d.mantissa : ℚ)| (Scratch.ofInt p d.mantissa).align := by
    rw [← magnitude_ofInt_eq_abs]
    exact cutOf_align (Int.natAbs_ne_zero.mpr hm)
  have hexp := (hcut.two_zpow_le_iff 0).mp (by rwa [zpow_zero])
  have hrun := tenRun (Scratch.ofInt p d.mantissa).align d.exponent
  obtain ⟨hup, hnegup, -⟩ := timesTen_spec d.exponent.toNat hcut.aligned (by omega)
  obtain ⟨ha, hnegdown, -⟩ := overTen_spec (-d.exponent).toNat hup
  refine ⟨_, by rw [ofDecimal, if_neg hm], ha, ?_, ?_, ?_⟩
  · rw [hnegdown, hnegup, align_neg]
    rfl
  · rw [hvalue]
    exact hrun.conveys hcut hone hmost
  · intro hwidth
    rw [hvalue, ← magnitude_align_ofInt hwidth]
    exact hrun.magnitude_eq hcut.aligned (by omega)

theorem sign_eq_of_neg_eq {r : Floating p} {m : ℤ} (hr : r.isZero = false) (hm : m ≠ 0)
    (h : r.neg = decide (m < 0)) : r.sign = m.sign := by
  rw [sign, if_neg (by simp [hr]), h]
  rcases lt_or_gt_of_ne hm with hneg | hpos
  · rw [if_pos (by simpa using hneg), Int.sign_eq_neg_one_of_neg hneg]
  · rw [if_neg (by simpa using hpos.le), Int.sign_eq_one_of_pos hpos]

/-- **A decimal is stored within one unit of the last place,** and exactly where it can be. For a
mantissa other than zero that fits a signed word of 64 bits, and every exponent:

* what is stored and is not zero has the sign of the mantissa and is off by less than one unit of
  its last place;
* zero is stored only for what is below the least value or hardly above it, and an overflow of
  the mantissa's sign is reported only for what is past the range or hardly below its end;
* if the mantissa fits the working width, and the decimal fits the significand and is in range,
  it is stored exactly. -/
theorem ofDecimal_accurate {d : Decimal} (hm : d.mantissa ≠ 0) (hlo : -2 ^ 63 ≤ d.mantissa)
    (hhi : d.mantissa < 2 ^ 63) :
    (∀ r : Floating p, ofDecimal d = .ok r → r.isZero = false → r.sign = d.mantissa.sign ∧
      |r.exact - d.value| < 2 ^ ((r.exponent : ℤ) - 128 - p.manBits)) ∧
    (∀ r : Floating p, ofDecimal d = .ok r → r.isZero = true →
      |d.value| < (1 + 2 ^ (1 - (p.manBits : ℤ))) * 2 ^ (-128 : ℤ)) ∧
    (∀ f : Failure (Floating p), ofDecimal d = .error f →
      f = .overflow (max (decide (d.mantissa < 0))) ∧
        (1 - 2 ^ (1 - (p.manBits : ℤ))) * 2 ^ 127 < |d.value|) ∧
    (|d.mantissa| < 2 ^ p.width → Fits p.manBits |d.value| → 2 ^ (-128 : ℤ) ≤ |d.value| →
      |d.value| < 2 ^ 127 → ∃ r : Floating p, ofDecimal d = .ok r ∧ r.exact = d.value) := by
  obtain ⟨w, hpack, hw⟩ := exists_holdsDecimal (p := p) hm hlo hhi
  rw [hpack]
  refine ⟨?_, ?_, ?_, ?_⟩
  · intro r hr hz
    obtain ⟨hneg, hnear⟩ := hw.aligned.abs_sub_lt_of_pack hw.conveys hr hz
    rw [hw.neg_eq] at hneg
    refine ⟨sign_eq_of_neg_eq hz hm hneg, ?_⟩
    rwa [exact_eq_signed hz, d.value_eq_signed, hneg, ← signed_sub, abs_signed]
  · intro r hr hz
    exact hw.aligned.lt_of_pack_isZero hw.conveys hr hz
  · intro f hf
    rw [← hw.neg_eq]
    exact hw.aligned.lt_of_pack_error hw.conveys hf
  · intro hwidth hfit hleast hmost
    have hmag := hw.exact hwidth hfit hleast hmost
    rw [← hmag] at hfit hleast hmost
    obtain ⟨z, hz, hnonzero, hneg, heq⟩ := hw.aligned.exists_pack_eq_ok_of_fits hfit hleast hmost
    refine ⟨z, hz, ?_⟩
    rw [exact_eq_signed hnonzero, d.value_eq_signed, hneg, hw.neg_eq, heq, hmag]

/-- As many steps as lead to the least exponent: the result is more than half of its last place
off. And a mantissa of 31 bits, more than the significand has, that comes down to a power of two
with nothing lost. -/
theorem ofDecimal_accurate_least :
    let d : Decimal := ⟨-5666587073038615373, -57⟩
    let r : Single := ofWord 0x01F6D08E
    let c : Decimal := ⟨5 ^ 13, -13⟩
    ofDecimal d = .ok r ∧ r.sign = -1 ∧
      1 / 2 * 2 ^ ((r.exponent : ℤ) - 128 - 24) < |r.exact - d.value| ∧
      |r.exact - d.value| < 2 ^ ((r.exponent : ℤ) - 128 - 24) ∧
      c.value = 2 ^ (-13 : ℤ) ∧ ∃ z : Single, ofDecimal c = .ok z ∧ z.exact = c.value := by
  intro d r c
  have hr : ofDecimal d = .ok r := by decide +kernel
  obtain ⟨hstored, -⟩ := ofDecimal_accurate (p := .single) (d := d) (by decide) (by decide)
    (by decide)
  obtain ⟨hsign, hnear⟩ := hstored r hr rfl
  obtain ⟨-, -, -, hexact⟩ := ofDecimal_accurate (p := .single) (d := c) (by decide) (by decide)
    (by decide)
  have hc : c.value = 2 ^ (-13 : ℤ) := by norm_num [c, Decimal.value]
  rw [hc, abs_of_pos (by positivity)] at hexact
  refine ⟨hr, hsign, ?_, hnear, hc, ?_⟩
  · norm_num [r, d, exact, isZero, neg, ofWord, significand, Precision.manBits, Decimal.value]
  · rw [hc]
    exact hexact (by decide) ⟨1, -13, by decide, by norm_num⟩ (by norm_num) (by norm_num)

end Floating

end BasicNumerics
