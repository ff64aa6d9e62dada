/-
Runs of scaling steps.

To read off digits a value is scaled down below the upper of two limits, and then up to the
lower one, which is a tenth of the upper. A tenth is a cut, and ten times a value is made of
two cuts, so both steps keep the order of values. From that alone three things follow:

* a value that is scaled down never lands below the lower limit, since the limit is its own
  cut; so only one of the two loops ever takes a step (`scaleBetween_scaledOnce`);
* of two values the smaller one does not take more steps down, nor fewer steps up;
* with equally many steps the order stays (`ScaledOnce.mono`).

A step also misses by at most one unit of its result, which is a small share of an aligned
value. `Drift` counts how often, more sharply than `Near` does, since it compares with the
result of a run only.
-/
import BasicNumerics.Proofs.Floating.Cut

set_option autoImplicit false

namespace BasicNumerics

open Rounding

/-! ## Loops that stop at the first value to pass a test -/

/-- What a counted loop gives: the first of the values of `step` from `a` on that passes the
test, and how many steps it takes to get there. -/
structure StopsAt {α : Type} (step : α → α) (stop : α → Prop) (a : α) (r : α × ℕ) : Prop where
  eq_iterate : r.1 = step^[r.2] a
  stops : stop r.1
  first : ∀ k < r.2, ¬stop (step^[k] a)

namespace StopsAt

variable {α : Type} {step : α → α} {stop : α → Prop} {a b : α} {r s : α × ℕ}

theorem zero (h : stop a) : StopsAt step stop a (a, 0) :=
  ⟨rfl, h, fun _ hk => absurd hk (Nat.not_lt_zero _)⟩

theorem succ (ha : ¬stop a) (h : StopsAt step stop (step a) r) :
    StopsAt step stop a (r.1, r.2 + 1) := by
  refine ⟨h.eq_iterate, h.stops, ?_⟩
  intro k hk
  cases k with
  | zero => exact ha
  | succ k => exact h.first k (Nat.lt_of_succ_lt_succ hk)

/-- A run that passes the test wherever another one does is not longer. -/
theorem count_le (hr : StopsAt step stop a r) (hs : StopsAt step stop b s)
    (h : stop (step^[s.2] b) → stop (step^[s.2] a)) : r.2 ≤ s.2 := by
  by_contra hlt
  have hstop := hs.stops
  rw [hs.eq_iterate] at hstop
  exact hr.first _ (not_le.mp hlt) (h hstop)

end StopsAt

/-! ## Drift -/

/-- The share that one unit is of an aligned value, at most. -/
def Precision.unitShare (p : Precision) : ℚ := 1 / 2 ^ (p.width - 1)

theorem Precision.unitShare_mem (p : Precision) : 0 < p.unitShare ∧ p.unitShare ≤ 1 := by
  have hone : (1 : ℚ) ≤ 2 ^ (p.width - 1) := one_le_pow₀ one_le_two
  unfold unitShare
  exact ⟨by positivity, (div_le_one (by positivity)).mpr hone⟩

/-- `a` may have missed `b` by one of its units at each of `n` steps. -/
structure Drift (p : Precision) (n : ℕ) (a b : ℚ) : Prop where
  lower : (1 - p.unitShare) ^ n * a ≤ b
  upper : b ≤ (1 + p.unitShare) ^ n * a

namespace Drift

variable {p : Precision} {n m : ℕ} {a b c : ℚ}

theorem trans (hab : Drift p n a b) (hbc : Drift p m b c) : Drift p (n + m) a c := by
  obtain ⟨hpos, hone⟩ := p.unitShare_mem
  refine ⟨?_, ?_⟩
  · calc (1 - p.unitShare) ^ (n + m) * a = (1 - p.unitShare) ^ m * ((1 - p.unitShare) ^ n * a) := by
          ring
      _ ≤ (1 - p.unitShare) ^ m * b :=
          mul_le_mul_of_nonneg_left hab.lower (pow_nonneg (by linarith) m)
      _ ≤ c := hbc.lower
  · calc c ≤ (1 + p.unitShare) ^ m * b := hbc.upper
      _ ≤ (1 + p.unitShare) ^ m * ((1 + p.unitShare) ^ n * a) :=
          mul_le_mul_of_nonneg_left hab.upper (pow_nonneg (by linarith) m)
      _ = (1 + p.unitShare) ^ (n + m) * a := by ring

theorem mul_left (h : Drift p n a b) (hc : 0 ≤ c) : Drift p n (c * a) (c * b) := by
  have hlower := mul_le_mul_of_nonneg_left h.lower hc
  have hupper := mul_le_mul_of_nonneg_left h.upper hc
  exact ⟨by linarith, by linarith⟩

/-- **Drift as a share:** downwards a run loses no more than it gains upwards. -/
theorem abs_sub_le (h : Drift p n a b) (ha : 0 ≤ a) (hnm : n ≤ m) :
    |a - b| ≤ ((1 + p.unitShare) ^ m - 1) * a := by
  obtain ⟨hpos, hone⟩ := p.unitShare_mem
  have hsymm : 1 - (1 - p.unitShare) ^ n ≤ (1 + p.unitShare) ^ n - 1 := by
    have hup := one_add_mul_le_pow (by linarith : -2 ≤ p.unitShare) n
    have hdown := one_add_mul_le_pow (by linarith : -2 ≤ -p.unitShare) n
    rw [← sub_eq_add_neg] at hdown
    linarith
  have hmore : (1 + p.unitShare) ^ n ≤ (1 + p.unitShare) ^ m :=
    pow_le_pow_right₀ (by linarith) hnm
  have hlower := h.lower
  have hupper := h.upper
  have hmul := mul_le_mul_of_nonneg_right hsymm ha
  have hmul' := mul_le_mul_of_nonneg_right hmore ha
  rw [abs_le]
  constructor <;> linarith

end Drift

namespace Scratch

variable {p : Precision} {d e low high : Scratch p}

theorem Aligned.unit_le (h : d.Aligned) : d.unit ≤ p.unitShare * d.magnitude := by
  have hpos : (0 : ℚ) < 2 ^ (p.width - 1) := by positivity
  have hle := h.le_magnitude
  rw [Precision.unitShare, one_div, ← div_eq_inv_mul, le_div_iff₀ hpos]
  linarith

/-- A result that misses by one unit drifts by one step. -/
theorem Aligned.drift_of_abs_sub_le {a : ℚ} (h : d.Aligned) (ha : |d.magnitude - a| ≤ d.unit) :
    Drift p 1 d.magnitude a := by
  have hunit := h.unit_le
  have hmiss := abs_le.mp ha
  exact ⟨by linarith, by linarith⟩

/-! ## Ten times a value -/

/-- Five quarters of a significand: the sum of eight times and twice a value, at the exponent of
the larger one. -/
def fiveQuarters (m : ℕ) : ℕ := joinMan (m / 4) m (m % 4 != 0)

theorem fiveQuarters_eq_marked (m : ℕ) :
    fiveQuarters m = marked IsTie ((5 * m : ℕ) / (4 : ℕ)) := by
  have hquot : 5 * m / 4 = m / 4 + m := by omega
  have hrem : 5 * m % 4 = m % 4 := by omega
  rw [marked_div _ (by norm_num), hquot, hrem, fiveQuarters, joinMan]
  simp only [IsTie, Bool.and_eq_true, bne_iff_ne, beq_iff_eq, and_comm]

theorem fiveQuarters_mono {m n : ℕ} (h : m ≤ n) : fiveQuarters m ≤ fiveQuarters n := by
  rw [fiveQuarters_eq_marked, fiveQuarters_eq_marked]
  apply marked_mono
  apply div_le_div_of_nonneg_right _ (by positivity)
  exact_mod_cast Nat.mul_le_mul_left 5 h

theorem fiveQuarters_four_mul (c : ℕ) : fiveQuarters (4 * c) = 5 * c := by
  have hquot : 4 * c / 4 = c := by omega
  have hrem : 4 * c % 4 = 0 := by omega
  rw [fiveQuarters, hquot, hrem, joinMan, if_neg (by simp)]
  omega

theorem le_fiveQuarters (m : ℕ) : m ≤ fiveQuarters m := by
  unfold fiveQuarters joinMan
  split <;> omega

/-- Eight times a value and twice it, added but not aligned. -/
def tenfoldSum (d : Scratch p) : Scratch p :=
  { d with exp := d.exp + 3, man := fiveQuarters d.man }

theorem tenfold_eq (hexp : 0 < d.exp) : d.tenfold = d.tenfoldSum.align := by
  rw [tenfold, add_eightfold_twofold hexp]
  rfl

theorem unit_tenfoldSum (d : Scratch p) : d.tenfoldSum.unit = 8 * d.unit := by
  have hunit := two_zpow_add (p := p) d.exp 3
  push_cast at hunit
  show (2 : ℚ) ^ (d.exp + 3 - unitExp p) = _
  rw [hunit, unit]
  norm_num

/-- Across a power of two the sums are apart: five quarters of it lie between them. -/
theorem fiveQuarters_le_two_mul (hd : d.Aligned) (he : e.Aligned) :
    fiveQuarters d.man ≤ 2 * fiveQuarters e.man := by
  have hw := p.two_pow_width
  have hw1 := p.two_pow_width_sub_one
  have hw2 := p.two_pow_width_sub_two
  have hhi := hd.man_lt
  have hlo := he.le_man
  obtain ⟨c, hc⟩ : ∃ c, 2 ^ (p.width - 1) = 4 * c := ⟨256 * 2 ^ (p.manBits - 3), by omega⟩
  calc fiveQuarters d.man ≤ fiveQuarters (4 * (2 * c)) := fiveQuarters_mono (by omega)
    _ = 2 * fiveQuarters (4 * c) := by
        rw [fiveQuarters_four_mul, fiveQuarters_four_mul]
        ring
    _ ≤ 2 * fiveQuarters e.man := Nat.mul_le_mul_left 2 (fiveQuarters_mono (by omega))

theorem magnitude_tenfoldSum_le (hd : d.Aligned) (he : e.Aligned)
    (h : d.magnitude ≤ e.magnitude) : d.tenfoldSum.magnitude ≤ e.tenfoldSum.magnitude := by
  have hmag : ∀ s : Scratch p, s.tenfoldSum.magnitude = fiveQuarters s.man * (8 * s.unit) := by
    intro s
    rw [magnitude, unit_tenfoldSum]
    rfl
  rw [hmag, hmag]
  rcases lt_trichotomy d.exp e.exp with hlt | heq | hgt
  · have hunit := two_mul_unit_le hlt
    have hman : (fiveQuarters d.man : ℚ) ≤ 2 * fiveQuarters e.man := by
      exact_mod_cast fiveQuarters_le_two_mul hd he
    calc (fiveQuarters d.man : ℚ) * (8 * d.unit)
        ≤ 2 * fiveQuarters e.man * (8 * d.unit) :=
          mul_le_mul_of_nonneg_right hman (mul_pos (by norm_num) d.unit_pos).le
      _ = fiveQuarters e.man * (8 * (2 * d.unit)) := by ring
      _ ≤ fiveQuarters e.man * (8 * e.unit) :=
          mul_le_mul_of_nonneg_left (by linarith) (Nat.cast_nonneg _)
  · have hunit : d.unit = e.unit := by rw [unit, unit, heq]
    rw [magnitude, magnitude, hunit, mul_le_mul_iff_left₀ e.unit_pos, Nat.cast_le] at h
    rw [hunit]
    exact mul_le_mul_of_nonneg_right (by exact_mod_cast fiveQuarters_mono h)
      (mul_pos (by norm_num) e.unit_pos).le
  · have hlt := he.magnitude_lt_of_exp_lt hd hgt
    linarith

/-- **Ten times a larger value is not smaller.** -/
theorem tenfold_mono (hd : d.Aligned) (he : e.Aligned) (hdexp : 0 < d.exp) (heexp : 0 < e.exp)
    (h : d.magnitude ≤ e.magnitude) : d.tenfold.magnitude ≤ e.tenfold.magnitude := by
  have hman : ∀ {s : Scratch p}, s.Aligned → s.tenfoldSum.man ≠ 0 := by
    intro s hs
    have hle : s.man ≤ s.tenfoldSum.man := le_fiveQuarters s.man
    have hne := hs.man_ne_zero
    omega
  rw [tenfold_eq hdexp, tenfold_eq heexp]
  exact (cutOf_align (hman hd)).mono (cutOf_align (hman he)) (magnitude_tenfoldSum_le hd he h)

/-! ## A tenth of a value -/

theorem cutOf_tenth (h : d.Aligned) : CutOf IsTie (d.magnitude / 10) d.tenth := by
  have hcut := cutOf_div h (unpack_aligned (Floating.ofInt 10 : Floating p))
  rwa [magnitude_ten, ← tenth_eq_div h] at hcut

/-- **A tenth of a larger value is not smaller.** -/
theorem tenth_mono (hd : d.Aligned) (he : e.Aligned) (h : d.magnitude ≤ e.magnitude) :
    d.tenth.magnitude ≤ e.tenth.magnitude :=
  (cutOf_tenth hd).mono (cutOf_tenth he) (by linarith)

/-- A tenth does not fall below an aligned value that is not above the exact tenth. -/
theorem le_tenth (hlow : low.Aligned) (hd : d.Aligned) (h : 10 * low.magnitude ≤ d.magnitude) :
    low.magnitude ≤ d.tenth.magnitude :=
  hlow.cutOf.mono (cutOf_tenth hd) (by linarith)

/-! ## Runs -/

/-- A step that scales by about `c`: on the values that are `ok` it keeps the order and misses
by at most one unit of its result. -/
structure Scales (c : ℚ) (ok : Scratch p → Prop) (step : Scratch p → Scratch p) : Prop where
  aligned : ∀ {d}, ok d → d.Aligned
  ok_step : ∀ {d}, ok d → ok (step d)
  near : ∀ {d}, ok d → |(step d).magnitude - c * d.magnitude| ≤ (step d).unit
  mono : ∀ {d e}, ok d → ok e → d.magnitude ≤ e.magnitude → (step d).magnitude ≤ (step e).magnitude

theorem scales_tenfold : Scales 10 (fun d : Scratch p => d.Aligned ∧ 0 < d.exp) tenfold where
  aligned hd := hd.1
  ok_step hd := by
    obtain ⟨ha, hexp, -, -⟩ := tenfold_spec hd.1 hd.2
    exact ⟨ha, by omega⟩
  near hd := (tenfold_spec hd.1 hd.2).2.2.2
  mono hd he := tenfold_mono hd.1 he.1 hd.2 he.2

theorem scales_tenth : Scales (1 / 10) (Aligned (p := p)) tenth where
  aligned hd := hd
  ok_step hd := (tenth_spec hd).1
  near hd := by
    rw [one_div_mul_eq_div]
    exact (tenth_spec hd).2.2.2
  mono := tenth_mono

namespace Scales

variable {c : ℚ} {ok : Scratch p → Prop} {step : Scratch p → Scratch p}

theorem ok_iterate (h : Scales c ok step) (hd : ok d) (n : ℕ) : ok (step^[n] d) := by
  induction n with
  | zero => exact hd
  | succ n ih =>
    rw [Function.iterate_succ_apply']
    exact h.ok_step ih

/-- **Runs of equal length keep the order.** -/
theorem iterate_mono (h : Scales c ok step) (hd : ok d) (he : ok e)
    (hde : d.magnitude ≤ e.magnitude) (n : ℕ) :
    (step^[n] d).magnitude ≤ (step^[n] e).magnitude := by
  induction n with
  | zero => exact hde
  | succ n ih =>
    rw [Function.iterate_succ_apply', Function.iterate_succ_apply']
    exact h.mono (h.ok_iterate hd n) (h.ok_iterate he n) ih

/-- **A run drifts by one unit at each step.** -/
theorem drift_iterate (h : Scales c ok step) (hc : 0 ≤ c) (hd : ok d) (n : ℕ) :
    Drift p n (step^[n] d).magnitude (c ^ n * d.magnitude) := by
  induction n with
  | zero => constructor <;> simp
  | succ n ih =>
    have hok := h.ok_iterate hd n
    have hstep := (h.aligned (h.ok_step hok)).drift_of_abs_sub_le (h.near hok)
    have hrun := hstep.trans (ih.mul_left hc)
    rwa [← mul_assoc, ← pow_succ', Nat.add_comm 1 n, ← Function.iterate_succ_apply' step] at hrun

end Scales

theorem exp_iterate_tenfold (h : d.Aligned) (hexp : 0 < d.exp) (n : ℕ) :
    d.exp + 3 * n ≤ (tenfold^[n] d).exp := by
  induction n with
  | zero => simp
  | succ n ih =>
    obtain ⟨ha, hpos⟩ := scales_tenfold.ok_iterate ⟨h, hexp⟩ n
    obtain ⟨-, hlo, -, -⟩ := tenfold_spec ha hpos
    rw [Function.iterate_succ_apply']
    push_cast
    omega

theorem exp_iterate_tenth (h : d.Aligned) (n : ℕ) : (tenth^[n] d).exp + 3 * n ≤ d.exp := by
  induction n with
  | zero => simp
  | succ n ih =>
    obtain ⟨-, -, hhi, -⟩ := tenth_spec (scales_tenth.ok_iterate h n)
    rw [Function.iterate_succ_apply']
    push_cast
    omega

/-! ## The two loops

The fuel is the distance of the exponents, and a step covers at least three of it, so a loop
ends at its own test. -/

theorem scaleDown_stopsAt (limit : Scratch p) (fuel : ℕ) : ∀ {d : Scratch p}, d.Aligned →
    d.exp - limit.exp < fuel →
      StopsAt tenth (fun e => e.lt limit = true) d (scaleDown limit fuel d) := by
  induction fuel with
  | zero =>
    intro d _ hfuel
    have hlt : d.exp < limit.exp := by omega
    exact StopsAt.zero (by simp [lt, hlt])
  | succ fuel ih =>
    intro d h hfuel
    rw [scaleDown]
    by_cases hlt : d.lt limit = true
    · rw [if_pos hlt]
      exact StopsAt.zero hlt
    · rw [if_neg hlt]
      obtain ⟨ha, -, hhi, -⟩ := tenth_spec h
      exact (ih ha (by push_cast at hfuel; omega)).succ hlt

theorem scaleUp_stopsAt (limit : Scratch p) (fuel : ℕ) : ∀ {d : Scratch p}, d.Aligned →
    0 < d.exp → limit.exp - d.exp < fuel →
      StopsAt tenfold (fun e => e.lt limit = false) d (scaleUp limit fuel d) := by
  induction fuel with
  | zero =>
    intro d _ _ hfuel
    have h1 : ¬d.exp < limit.exp := by omega
    have h2 : ¬d.exp = limit.exp := by omega
    exact StopsAt.zero (by simp [lt, h1, h2])
  | succ fuel ih =>
    intro d h hexp hfuel
    rw [scaleUp]
    by_cases hlt : d.lt limit = true
    · rw [if_pos hlt]
      obtain ⟨ha, hlo, -, -⟩ := tenfold_spec h hexp
      exact (ih ha (by omega) (by push_cast at hfuel; omega)).succ (by simp [hlt])
    · rw [if_neg hlt]
      exact StopsAt.zero (by simpa using hlt)

theorem not_lt_iff_magnitude_le (hd : d.Aligned) (he : e.Aligned) :
    d.lt e = false ↔ e.magnitude ≤ d.magnitude := by
  rw [← Bool.not_eq_true, lt_iff_magnitude_lt hd he, not_lt]

/-! ## One loop only -/

/-- A tenth of what is not below the upper limit is not below the lower one. -/
theorem tenth_not_lt (hlow : low.Aligned) (hhigh : high.Aligned)
    (hten : high.magnitude = 10 * low.magnitude) (hd : d.Aligned) (h : d.lt high = false) :
    d.tenth.lt low = false := by
  rw [not_lt_iff_magnitude_le (tenth_spec hd).1 hlow]
  apply le_tenth hlow hd
  rw [← hten]
  exact (not_lt_iff_magnitude_le hd hhigh).mp h

/-- What a run down to below `high` or up to `low` gives, and the power of ten that undoes it. -/
inductive ScaledOnce (low high d : Scratch p) (r : Scratch p × ℤ) : Prop
  | down (n : ℕ) (le : high.magnitude ≤ d.magnitude) (pos : 0 < n) (power : r.2 = n)
      (run : StopsAt tenth (fun e => e.lt high = true) d (r.1, n))
  | up (n : ℕ) (lt : d.magnitude < high.magnitude) (power : r.2 = -n)
      (run : StopsAt tenfold (fun e => e.lt low = false) d (r.1, n))

/-- **A value is scaled in one direction only:** what was scaled down came from above the upper
limit, so it is not below the lower one. -/
theorem scaleBetween_scaledOnce (hlow : low.Aligned) (hhigh : high.Aligned)
    (hten : high.magnitude = 10 * low.magnitude) (hd : d.Aligned) (hexp : 0 < d.exp) :
    ScaledOnce low high d (scaleBetween low high d) := by
  by_cases hlt : d.lt high = true
  · have hdown : scaleDown high ((d.exp - high.exp).toNat + 1) d = (d, 0) := by
      rw [scaleDown, if_pos hlt]
    have hup := scaleUp_stopsAt low ((low.exp - d.exp).toNat + 1) hd hexp (by push_cast; omega)
    refine .up (scaleUp low ((low.exp - d.exp).toNat + 1) d).2
      ((lt_iff_magnitude_lt hd hhigh).mp hlt) ?_ ?_
    · simp only [scaleBetween, hdown]
      omega
    · simp only [scaleBetween, hdown]
      exact hup
  · have hdown := scaleDown_stopsAt high ((d.exp - high.exp).toNat + 1) hd (by push_cast; omega)
    obtain ⟨⟨e, n⟩, he⟩ : ∃ q, scaleDown high ((d.exp - high.exp).toNat + 1) d = q := ⟨_, rfl⟩
    rw [he] at hdown
    have hpos : 0 < n := by
      rw [Nat.pos_iff_ne_zero]
      rintro rfl
      have hstop : (tenth^[0] d).lt high = true := hdown.eq_iterate ▸ hdown.stops
      exact hlt hstop
    -- the value before the last step
    have hnot : e.lt low = false := by
      obtain ⟨k, rfl⟩ : ∃ k, n = k + 1 := ⟨n - 1, by omega⟩
      have hok := scales_tenth.ok_iterate hd k
      have hge : (tenth^[k] d).lt high = false := by simpa using hdown.first k (Nat.lt_succ_self k)
      have hlast : e = (tenth^[k] d).tenth :=
        hdown.eq_iterate.trans (Function.iterate_succ_apply' tenth k d)
      rw [hlast]
      exact tenth_not_lt hlow hhigh hten hok hge
    have hup : scaleUp low ((low.exp - e.exp).toNat + 1) e = (e, 0) := by
      rw [scaleUp, if_neg (by simp [hnot])]
    have hr : scaleBetween low high d = (e, (n : ℤ)) := by
      simp only [scaleBetween, he, hup]
      simp
    rw [hr]
    exact .down n ((not_lt_iff_magnitude_le hd hhigh).mp (by simpa using hlt)) hpos rfl hdown

/-! ## Order -/

/-- **Scaling keeps the order:** the larger value has the higher power, or the same power and
a scaled value that is not smaller. -/
theorem ScaledOnce.mono {r s : Scratch p × ℤ} (hlow : low.Aligned) (hhigh : high.Aligned)
    (hd : d.Aligned) (he : e.Aligned) (hdexp : 0 < d.exp) (heexp : 0 < e.exp)
    (hr : ScaledOnce low high d r) (hs : ScaledOnce low high e s) (h : d.magnitude ≤ e.magnitude) :
    r.2 < s.2 ∨ (r.2 = s.2 ∧ r.1.magnitude ≤ s.1.magnitude) := by
  cases hr with
  | down n hle hn hpower hrun =>
    cases hs with
    | down m _ _ hpower' hrun' =>
      have hcount : n ≤ m := hrun.count_le hrun' fun hstop => by
        have hd' := scales_tenth.ok_iterate hd m
        have he' := scales_tenth.ok_iterate he m
        rw [lt_iff_magnitude_lt hd' hhigh]
        rw [lt_iff_magnitude_lt he' hhigh] at hstop
        exact (scales_tenth.iterate_mono hd he h m).trans_lt hstop
      rcases Nat.lt_or_eq_of_le hcount with hlt | rfl
      · exact Or.inl (by omega)
      · refine Or.inr ⟨by omega, ?_⟩
        rw [hrun.eq_iterate, hrun'.eq_iterate]
        exact scales_tenth.iterate_mono hd he h n
    | up m hlt _ _ => linarith
  | up n hlt hpower hrun =>
    cases hs with
    | down m _ hm hpower' _ => exact Or.inl (by omega)
    | up m _ hpower' hrun' =>
      have hcount : m ≤ n := hrun'.count_le hrun fun hstop => by
        have hd' := scales_tenfold.ok_iterate ⟨hd, hdexp⟩ n
        have he' := scales_tenfold.ok_iterate ⟨he, heexp⟩ n
        rw [not_lt_iff_magnitude_le he'.1 hlow]
        rw [not_lt_iff_magnitude_le hd'.1 hlow] at hstop
        exact hstop.trans (scales_tenfold.iterate_mono ⟨hd, hdexp⟩ ⟨he, heexp⟩ h n)
      rcases Nat.lt_or_eq_of_le hcount with hlt' | rfl
      · exact Or.inl (by omega)
      · refine Or.inr ⟨by omega, ?_⟩
        rw [hrun.eq_iterate, hrun'.eq_iterate]
        exact scales_tenfold.iterate_mono ⟨hd, hdexp⟩ ⟨he, heexp⟩ h m

/-! ## Steps and drift -/

/-- **How many steps a run takes, and how far it drifts.** -/
theorem ScaledOnce.exists_drift {r : Scratch p × ℤ} (hd : d.Aligned) (hexp : 0 < d.exp)
    (hr : ScaledOnce low high d r) :
    ∃ n : ℕ, Drift p n r.1.magnitude (d.magnitude * 10 ^ (-r.2)) ∧
      (3 * (n : ℤ) ≤ d.exp - high.exp + 3 ∨ n = 0 ∨ 3 * (n : ℤ) ≤ low.exp - d.exp + 3) := by
  cases hr with
  | down n _ hpos hpower hrun =>
    refine ⟨n, ?_, Or.inl ?_⟩
    · have hdrift := scales_tenth.drift_iterate (by norm_num) hd n
      rw [← hrun.eq_iterate, one_div, inv_pow, mul_comm] at hdrift
      rwa [hpower, zpow_neg, zpow_natCast]
    · have hlast := hrun.first (n - 1) (by simp only; omega)
      have hle := le_exp_of_not_lt (Bool.eq_false_iff.mpr hlast)
      have hmove := exp_iterate_tenth hd (n - 1)
      omega
  | up n _ hpower hrun =>
    refine ⟨n, ?_, Or.inr ?_⟩
    · have hdrift := scales_tenfold.drift_iterate (by norm_num) ⟨hd, hexp⟩ n
      rw [← hrun.eq_iterate, mul_comm] at hdrift
      rwa [hpower, neg_neg, zpow_natCast]
    · rcases Nat.eq_zero_or_pos n with hzero | hpos
      · exact Or.inl hzero
      · have hlast := hrun.first (n - 1) (by simp only; omega)
        have hle := exp_le_of_lt (by simpa using hlast)
        have hmove := exp_iterate_tenfold hd hexp (n - 1)
        exact Or.inr (by omega)

end Scratch

end BasicNumerics
