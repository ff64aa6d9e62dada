/-
Correct rounding, and that storing does it.

What a value of `n` significant bits should be for a rational is said here without any
working value: the multiple of the last place nearest to it, a tie going to the even
multiple, where the last place of a number is `n - 1` binary places below its leading bit
(`roundBits`). No number of that many bits is nearer (`abs_roundBits_sub_le`).

The engine does this in two cuts: aligning leaves one bit for all that is moved out on the
right, and storing rounds the guard byte of what is left. The bit is enough, since seven
bits of the guard byte stand above it (`nearestEven_sticky`). So whatever is stored for a
working value is its magnitude rounded once (`roundBits_magnitude`), and both limits of
the range are limits of the rounded number: from `2^127` on it is an overflow
(`pack_of_le`), and below `2^-128` it is zero (`saturate_of_lt`).
-/
import BasicNumerics.Proofs.Floating.Exact
import Mathlib.Data.Int.Log
import Mathlib.Data.Rat.Floor

set_option autoImplicit false

namespace BasicNumerics

namespace Rounding

/-! ## The nearest whole number -/

/-- The whole number nearest to `q`, a tie to the even one. -/
def nearestInt (q : ℚ) : ℤ :=
  if Int.fract q < 1 / 2 ∨ (Int.fract q = 1 / 2 ∧ Even ⌊q⌋) then ⌊q⌋ else ⌊q⌋ + 1

theorem nearestInt_of_low {n : ℤ} {t : ℚ} (h0 : 0 ≤ t)
    (h : t < 1 / 2 ∨ (t = 1 / 2 ∧ Even n)) : nearestInt (n + t) = n := by
  have h1 : t < 1 := by rcases h with h | h <;> linarith
  have hfloor : ⌊(n : ℚ) + t⌋ = n := Int.floor_eq_iff.mpr ⟨by linarith, by linarith⟩
  rw [nearestInt, Int.fract, hfloor, add_sub_cancel_left, if_pos h]

theorem nearestInt_of_high {n : ℤ} {t : ℚ} (h1 : t < 1)
    (h : 1 / 2 < t ∨ (t = 1 / 2 ∧ ¬Even n)) : nearestInt (n + t) = n + 1 := by
  have h0 : 0 ≤ t := by rcases h with h | h <;> linarith
  have hfloor : ⌊(n : ℚ) + t⌋ = n := Int.floor_eq_iff.mpr ⟨by linarith, by linarith⟩
  rw [nearestInt, Int.fract, hfloor, add_sub_cancel_left, if_neg]
  rintro (hlt | ⟨heq, heven⟩) <;> rcases h with h | ⟨h, hodd⟩
  · linarith
  · linarith
  · linarith
  · exact hodd heven

theorem abs_nearestInt_sub_le (q : ℚ) : |(nearestInt q : ℚ) - q| ≤ 1 / 2 := by
  have h0 := Int.fract_nonneg q
  have h1 := Int.fract_lt_one q
  have hq : (⌊q⌋ : ℚ) + Int.fract q = q := Int.floor_add_fract q
  unfold nearestInt
  split
  · next h =>
    have hle : Int.fract q ≤ 1 / 2 := by
      rcases h with h | h
      · exact h.le
      · exact h.1.le
    rw [abs_le]
    constructor <;> linarith
  · next h =>
    have hge : 1 / 2 ≤ Int.fract q := by
      by_contra hlt
      exact h (Or.inl (not_le.mp hlt))
    push_cast
    rw [abs_le]
    constructor <;> linarith

/-- **No whole number is nearer.** -/
theorem abs_nearestInt_sub_le_abs (q : ℚ) (n : ℤ) : |(nearestInt q : ℚ) - q| ≤ |(n : ℚ) - q| := by
  by_cases h : n = nearestInt q
  · rw [h]
  · -- another whole number is at least one away from this one
    have hone : (1 : ℚ) ≤ |(nearestInt q : ℚ) - n| := by
      have hint : 1 ≤ |nearestInt q - n| := Int.one_le_abs (sub_ne_zero.mpr (Ne.symm h))
      exact_mod_cast hint
    have htri := abs_sub_le (nearestInt q : ℚ) q n
    have hhalf := abs_nearestInt_sub_le q
    rw [abs_sub_comm q] at htri
    linarith

theorem nearestInt_neg (q : ℚ) : nearestInt (-q) = -nearestInt q := by
  have h0 := Int.fract_nonneg q
  have h1 := Int.fract_lt_one q
  have hq : q = (⌊q⌋ : ℚ) + Int.fract q := (Int.floor_add_fract q).symm
  generalize ⌊q⌋ = n, Int.fract q = t at h0 h1 hq
  subst hq
  -- the fraction turns into what it lacks to one, and the floor goes one further down
  have hneg : -((n : ℚ) + t) = ((-n - 1 : ℤ) : ℚ) + (1 - t) := by push_cast; ring
  have heven : Even (-n - 1) ↔ ¬Even n := by rw [Int.even_sub_one, even_neg]
  by_cases hzero : t = 0
  · subst hzero
    have hwhole : -((n : ℚ) + 0) = ((-n : ℤ) : ℚ) + 0 := by push_cast; ring
    rw [hwhole, nearestInt_of_low le_rfl (by norm_num), nearestInt_of_low le_rfl (by norm_num)]
  · have hpos : 0 < t := lt_of_le_of_ne h0 (Ne.symm hzero)
    by_cases hlow : t < 1 / 2 ∨ (t = 1 / 2 ∧ Even n)
    · rw [nearestInt_of_low h0 hlow, hneg, nearestInt_of_high (by linarith)]
      · ring
      · rcases hlow with h | ⟨h, hn⟩
        · exact Or.inl (by linarith)
        · exact Or.inr ⟨by linarith, by rw [heven]; exact not_not.mpr hn⟩
    · have hhigh : 1 / 2 < t ∨ (t = 1 / 2 ∧ ¬Even n) := by
        rcases lt_trichotomy t (1 / 2) with h | h | h
        · exact absurd (Or.inl h) hlow
        · exact Or.inr ⟨h, fun hn => hlow (Or.inr ⟨h, hn⟩)⟩
        · exact Or.inl h
      rw [nearestInt_of_high h1 hhigh, hneg, nearestInt_of_low (by linarith)]
      · ring
      · rcases hhigh with h | ⟨h, hn⟩
        · exact Or.inl (by linarith)
        · exact Or.inr ⟨by linarith, heven.mpr hn⟩

/-! ## A quotient by a power of two, with something below its last bit -/

variable {n k : ℕ} {f : ℚ}

/-- Quotient and remainder of a number from `n` to `n + 1`. -/
theorem div_two_pow_eq (n k : ℕ) (f : ℚ) :
    ((n : ℚ) + f) / 2 ^ k = ((n / 2 ^ k : ℕ) : ℤ) + ((n % 2 ^ k : ℕ) + f) / 2 ^ k := by
  have hn : (n : ℚ) = 2 ^ k * (n / 2 ^ k : ℕ) + (n % 2 ^ k : ℕ) := by
    exact_mod_cast (Nat.div_add_mod n (2 ^ k)).symm
  have hpos : (0 : ℚ) < 2 ^ k := by positivity
  rw [Int.cast_natCast]
  field_simp
  linarith

theorem floor_div_two_pow (n k : ℕ) (h0 : 0 ≤ f) (h1 : f < 1) :
    ⌊((n : ℚ) + f) / 2 ^ k⌋ = (n / 2 ^ k : ℕ) := by
  have hpos : (0 : ℚ) < 2 ^ k := by positivity
  have hrem : ((n % 2 ^ k : ℕ) : ℚ) + 1 ≤ 2 ^ k := by
    exact_mod_cast Nat.mod_lt n (Nat.two_pow_pos k)
  have hfract0 : (0 : ℚ) ≤ ((n % 2 ^ k : ℕ) + f) / 2 ^ k := by positivity
  have hfract1 : ((n % 2 ^ k : ℕ) + f) / 2 ^ k < 1 := by
    rw [div_lt_one hpos]
    linarith
  rw [div_two_pow_eq]
  exact Int.floor_eq_iff.mpr ⟨by linarith, by linarith⟩

theorem fract_div_two_pow (n k : ℕ) (h0 : 0 ≤ f) (h1 : f < 1) :
    Int.fract (((n : ℚ) + f) / 2 ^ k) = ((n % 2 ^ k : ℕ) + f) / 2 ^ k := by
  rw [Int.fract, floor_div_two_pow n k h0 h1, div_two_pow_eq, add_sub_cancel_left]

theorem even_quotient : Even ((n / 2 ^ k : ℕ) : ℤ) ↔ n / 2 ^ k % 2 = 0 := by
  rw [Int.even_coe_nat, Nat.even_iff]

theorem nearestInt_div_of_low (h0 : 0 ≤ f)
    (h : 2 * ((n % 2 ^ k : ℕ) + f) < 2 ^ k ∨
      (2 * ((n % 2 ^ k : ℕ) + f) = 2 ^ k ∧ n / 2 ^ k % 2 = 0)) :
    nearestInt (((n : ℚ) + f) / 2 ^ k) = (n / 2 ^ k : ℕ) := by
  have hpos : (0 : ℚ) < 2 ^ k := by positivity
  rw [div_two_pow_eq, nearestInt_of_low (by positivity)]
  rcases h with h | ⟨h, heven⟩
  · left
    rw [div_lt_div_iff₀ hpos two_pos]
    linarith
  · right
    rw [div_eq_div_iff hpos.ne' two_ne_zero]
    exact ⟨by linarith, even_quotient.mpr heven⟩

theorem nearestInt_div_of_high (h1 : f < 1)
    (h : 2 ^ k < 2 * ((n % 2 ^ k : ℕ) + f) ∨
      (2 * ((n % 2 ^ k : ℕ) + f) = 2 ^ k ∧ n / 2 ^ k % 2 = 1)) :
    nearestInt (((n : ℚ) + f) / 2 ^ k) = (n / 2 ^ k + 1 : ℕ) := by
  have hpos : (0 : ℚ) < 2 ^ k := by positivity
  have hrem : ((n % 2 ^ k : ℕ) : ℚ) + 1 ≤ 2 ^ k := by
    exact_mod_cast Nat.mod_lt n (Nat.two_pow_pos k)
  rw [div_two_pow_eq, nearestInt_of_high (by rw [div_lt_one hpos]; linarith), Nat.cast_succ]
  rcases h with h | ⟨h, hodd⟩
  · left
    rw [div_lt_div_iff₀ two_pos hpos]
    linarith
  · right
    rw [div_eq_div_iff hpos.ne' two_ne_zero, even_quotient]
    exact ⟨by linarith, by omega⟩

/-- The nearest whole number by quotient and remainder is the nearest one. -/
theorem nearestInt_div_two_pow (n k : ℕ) : nearestInt ((n : ℚ) / 2 ^ k) = nearestEven n k := by
  have hzero : (n : ℚ) / 2 ^ k = ((n : ℚ) + 0) / 2 ^ k := by rw [add_zero]
  rw [hzero, nearestEven]
  split
  · next hup =>
    apply nearestInt_div_of_high one_pos
    rw [add_zero]
    exact_mod_cast hup.imp id (And.imp_left Eq.symm)
  · next hlow =>
    apply nearestInt_div_of_low le_rfl
    rw [add_zero]
    have hnat : 2 * (n % 2 ^ k) < 2 ^ k ∨ (2 * (n % 2 ^ k) = 2 ^ k ∧ n / 2 ^ k % 2 = 0) := by
      omega
    exact_mod_cast hnat

/-- Something below the last bit breaks every tie: the half and all above it go up. -/
theorem nearestInt_div_of_pos (h0 : 0 < f) (h1 : f < 1) (hk : 0 < k) :
    nearestInt (((n : ℚ) + f) / 2 ^ k) =
      if n % 2 ^ k < 2 ^ (k - 1) then ((n / 2 ^ k : ℕ) : ℤ) else (n / 2 ^ k + 1 : ℕ) := by
  have hpow : (2 : ℚ) ^ k = 2 * 2 ^ (k - 1) := by rw [← pow_succ', Nat.sub_add_cancel hk]
  split
  · next hlow =>
    have hle : ((n % 2 ^ k : ℕ) : ℚ) + 1 ≤ 2 ^ (k - 1) := by exact_mod_cast hlow
    exact nearestInt_div_of_low h0.le (Or.inl (by linarith))
  · next hhigh =>
    have hle : (2 : ℚ) ^ (k - 1) ≤ (n % 2 ^ k : ℕ) := by exact_mod_cast not_lt.mp hhigh
    exact nearestInt_div_of_high h1 (Or.inl (by linarith))

/-- **One bit is enough for all that was cut,** as long as it stands below a guard byte. -/
theorem nearestEven_sticky (m k : ℕ) : nearestEven (sticky m k) 8 = nearestEven m (k + 8) := by
  have hk : 0 < 2 ^ k := Nat.two_pow_pos k
  have hr : m % 2 ^ k < 2 ^ k := Nat.mod_lt _ hk
  have hpow : 2 ^ (k + 8) = 2 ^ k * 256 := Nat.pow_add 2 k 8
  have hquot : m / 2 ^ (k + 8) = m / 2 ^ k / 256 := by rw [hpow, Nat.div_div_eq_div_mul]
  have hrem : m % 2 ^ (k + 8) = 2 ^ k * (m / 2 ^ k % 256) + m % 2 ^ k := by
    rw [hpow, Nat.mod_mul]
    omega
  unfold nearestEven sticky
  rw [hquot, hrem, hpow]
  clear hquot hrem hpow
  generalize m / 2 ^ k = q, m % 2 ^ k = r at hr ⊢
  generalize 2 ^ k = t at hk hr ⊢
  -- the guard byte is below, at or above the half, in units of what was cut
  rcases lt_trichotomy (q % 256) 128 with hlt | heq | hgt
  · have hle : t * (q % 256) ≤ t * 127 := Nat.mul_le_mul_left t (by omega)
    split_ifs <;> omega
  · rw [heq]
    split_ifs <;> omega
  · have hle : t * 129 ≤ t * (q % 256) := Nat.mul_le_mul_left t (by omega)
    split_ifs <;> omega

/-! ## Rounding to a number of bits -/

/-- What the last of `bits` significant bits of `v` is worth. -/
def lastPlace (bits : ℕ) (v : ℚ) : ℚ := 2 ^ (Int.log 2 |v| + 1 - bits)

/-- `v` to `bits` significant bits: the nearest multiple of its last place, a tie to the
even one. -/
def roundBits (bits : ℕ) (v : ℚ) : ℚ := nearestInt (v / lastPlace bits v) * lastPlace bits v

variable {bits : ℕ} {v : ℚ}

theorem lastPlace_pos (bits : ℕ) (v : ℚ) : 0 < lastPlace bits v := by
  unfold lastPlace
  positivity

/-- The leading bit of a number fixes its last place. -/
theorem lastPlace_eq {e : ℤ} (hlo : 2 ^ e ≤ |v|) (hhi : |v| < 2 ^ (e + 1)) :
    lastPlace bits v = 2 ^ (e + 1 - bits) := by
  have hpos : 0 < |v| := lt_of_lt_of_le (by positivity) hlo
  have hle : e ≤ Int.log 2 |v| := (Int.zpow_le_iff_le_log one_lt_two hpos).mp (by exact_mod_cast hlo)
  have hlt : Int.log 2 |v| < e + 1 :=
    (Int.lt_zpow_iff_log_lt one_lt_two hpos).mp (by exact_mod_cast hhi)
  rw [lastPlace, show Int.log 2 |v| = e by omega]

theorem lastPlace_neg (bits : ℕ) (v : ℚ) : lastPlace bits (-v) = lastPlace bits v := by
  rw [lastPlace, lastPlace, abs_neg]

theorem roundBits_neg (bits : ℕ) (v : ℚ) : roundBits bits (-v) = -roundBits bits v := by
  rw [roundBits, roundBits, lastPlace_neg, neg_div, nearestInt_neg]
  push_cast
  ring

theorem roundBits_nonneg (h : 0 ≤ v) : 0 ≤ roundBits bits v := by
  have hpos := lastPlace_pos bits v
  have hfloor : 0 ≤ ⌊v / lastPlace bits v⌋ := Int.floor_nonneg.mpr (div_nonneg h hpos.le)
  have hnear : 0 ≤ nearestInt (v / lastPlace bits v) := by
    unfold nearestInt
    split
    · exact hfloor
    · omega
  exact mul_nonneg (by exact_mod_cast hnear) hpos.le

theorem abs_roundBits_sub (bits : ℕ) (v : ℚ) (n : ℤ) :
    |(n : ℚ) * lastPlace bits v - v| = |n - v / lastPlace bits v| * lastPlace bits v := by
  have hpos := lastPlace_pos bits v
  rw [← abs_of_pos hpos, ← abs_mul, abs_of_pos hpos, sub_mul, div_mul_cancel₀ v hpos.ne']

/-- Rounding moves a number by at most half of its last place. -/
theorem abs_roundBits_sub_le_half (bits : ℕ) (v : ℚ) :
    |roundBits bits v - v| ≤ lastPlace bits v / 2 := by
  have hhalf := abs_nearestInt_sub_le (v / lastPlace bits v)
  rw [roundBits, abs_roundBits_sub]
  have := mul_le_mul_of_nonneg_right hhalf (lastPlace_pos bits v).le
  linarith

/-- No multiple of the last place is nearer. -/
theorem abs_roundBits_sub_le_multiple (bits : ℕ) (v : ℚ) (n : ℤ) :
    |roundBits bits v - v| ≤ |(n : ℚ) * lastPlace bits v - v| := by
  rw [roundBits, abs_roundBits_sub, abs_roundBits_sub]
  exact mul_le_mul_of_nonneg_right (abs_nearestInt_sub_le_abs _ n) (lastPlace_pos bits v).le

/-- **No number of that many bits is nearer.** -/
theorem abs_roundBits_sub_le {m : ℤ} (hbits : 0 < bits) (hm : |m| ≤ 2 ^ bits) (k : ℤ) :
    |roundBits bits v - v| ≤ |(m : ℚ) * 2 ^ k - v| := by
  set e : ℤ := Int.log 2 |v| + 1 - bits with he
  have hlast : lastPlace bits v = 2 ^ e := rfl
  rcases le_or_gt e k with hle | hlt
  · -- a multiple of the last place
    have hmul : (m : ℚ) * 2 ^ k = ((m * 2 ^ (k - e).toNat : ℤ) : ℚ) * lastPlace bits v := by
      have hk : k = ((k - e).toNat : ℤ) + e := by omega
      rw [hlast]
      conv_lhs => rw [hk, zpow_add₀ two_ne_zero, zpow_natCast]
      push_cast
      ring
    rw [hmul]
    exact abs_roundBits_sub_le_multiple bits v _
  · -- with a finer last place it does not even reach the leading bit of the number
    by_cases hzero : v = 0
    · have hround : roundBits bits 0 = 0 := by simp [roundBits, nearestInt]
      rw [hzero, hround, sub_zero, abs_zero]
      exact abs_nonneg _
    · have hlead : (2 : ℚ) ^ Int.log 2 |v| ≤ |v| := by
        exact_mod_cast Int.zpow_log_le_self one_lt_two (abs_pos.mpr hzero)
      have hsmall : |(m : ℚ) * 2 ^ k| ≤ 2 ^ Int.log 2 |v| := by
        have hm' : |(m : ℚ)| ≤ 2 ^ bits := by exact_mod_cast hm
        calc |(m : ℚ) * 2 ^ k| = |(m : ℚ)| * 2 ^ k := by
              rw [abs_mul, abs_of_pos (by positivity : (0 : ℚ) < 2 ^ k)]
          _ ≤ 2 ^ bits * 2 ^ (e - 1) :=
              mul_le_mul hm' (zpow_le_zpow_right₀ one_le_two (by omega)) (by positivity)
                (by positivity)
          _ = 2 ^ Int.log 2 |v| := by
              rw [← zpow_natCast, ← zpow_add₀ two_ne_zero]
              congr 1
              omega
      have hhalf : ((2 ^ (bits - 1) : ℤ) : ℚ) * lastPlace bits v = 2 ^ Int.log 2 |v| := by
        rw [hlast]
        push_cast
        rw [← zpow_natCast, ← zpow_add₀ two_ne_zero]
        congr 1
        omega
      have hreach := abs_sub_abs_le_abs_sub v ((m : ℚ) * 2 ^ k)
      rw [abs_sub_comm v] at hreach
      -- the leading bit alone is a multiple of the last place, and nearer
      rcases le_or_gt 0 v with hpos | hneg
      · have hnear := abs_roundBits_sub_le_multiple bits v (2 ^ (bits - 1))
        rw [hhalf] at hnear
        rw [abs_of_nonneg hpos] at hlead hreach hsmall hnear
        rw [abs_of_nonpos (by linarith : 2 ^ Int.log 2 v - v ≤ 0)] at hnear
        linarith
      · have hnear := abs_roundBits_sub_le_multiple bits v (-2 ^ (bits - 1))
        rw [Int.cast_neg, neg_mul, hhalf] at hnear
        rw [abs_of_neg hneg] at hlead hreach hsmall hnear
        rw [abs_of_nonneg (by linarith : (0 : ℚ) ≤ -2 ^ Int.log 2 (-v) - v)] at hnear
        linarith

/-- A number of that many bits is not rounded. -/
theorem roundBits_eq_self {m : ℤ} (hbits : 0 < bits) (hm : |m| ≤ 2 ^ bits) {k : ℤ}
    (hv : v = m * 2 ^ k) : roundBits bits v = v := by
  have hle := abs_roundBits_sub_le (v := v) hbits hm k
  rw [← hv, sub_self, abs_zero] at hle
  exact sub_eq_zero.mp (abs_nonpos_iff.mp hle)

/-- Rounding does not cross a number of that many bits. -/
theorem roundBits_le {m : ℤ} (hbits : 0 < bits) (hm : |m| ≤ 2 ^ bits) {k : ℤ}
    (hv : v ≤ m * 2 ^ k) : roundBits bits v ≤ m * 2 ^ k := by
  have hle := abs_roundBits_sub_le (v := v) hbits hm k
  rw [abs_of_nonneg (by linarith : 0 ≤ (m : ℚ) * 2 ^ k - v)] at hle
  have hself := le_abs_self (roundBits bits v - v)
  linarith

theorem le_roundBits {m : ℤ} (hbits : 0 < bits) (hm : |m| ≤ 2 ^ bits) {k : ℤ}
    (hv : m * 2 ^ k ≤ v) : m * 2 ^ k ≤ roundBits bits v := by
  have hle := abs_roundBits_sub_le (v := v) hbits hm k
  rw [abs_of_nonpos (by linarith : (m : ℚ) * 2 ^ k - v ≤ 0)] at hle
  have hself := neg_abs_le (roundBits bits v - v)
  linarith

theorem two_zpow_le_roundBits {e : ℤ} (hbits : 0 < bits) (hv : 2 ^ e ≤ v) :
    2 ^ e ≤ roundBits bits v := by
  have hone : |(1 : ℤ)| ≤ 2 ^ bits := by
    rw [abs_one]
    exact one_le_pow₀ one_le_two
  have hle := le_roundBits (v := v) hbits hone (k := e) (by rw [Int.cast_one, one_mul]; exact hv)
  rwa [Int.cast_one, one_mul] at hle

/-- What is rounded to so many bits has no more of them. -/
theorem exists_roundBits_eq (bits : ℕ) (v : ℚ) :
    ∃ m k : ℤ, |m| ≤ 2 ^ bits ∧ roundBits bits v = m * 2 ^ k := by
  refine ⟨nearestInt (v / lastPlace bits v), Int.log 2 |v| + 1 - bits, ?_, rfl⟩
  have hplace := lastPlace_pos bits v
  have hnext : |v| < 2 ^ bits * lastPlace bits v := by
    rw [lastPlace, ← zpow_natCast, ← zpow_add₀ two_ne_zero, add_sub_cancel]
    exact_mod_cast Int.lt_zpow_succ_log_self one_lt_two |v|
  have hquotient : |v / lastPlace bits v| < 2 ^ bits := by
    rwa [abs_div, abs_of_pos hplace, div_lt_iff₀ hplace]
  -- half a unit does not reach the whole number after the next power of two
  have hnear := abs_nearestInt_sub_le (v / lastPlace bits v)
  have hreach := abs_sub_abs_le_abs_sub (nearestInt (v / lastPlace bits v) : ℚ) (v / lastPlace bits v)
  have hlt : ((|nearestInt (v / lastPlace bits v)| : ℤ) : ℚ) < ((2 ^ bits + 1 : ℤ) : ℚ) := by
    push_cast
    linarith
  exact Int.lt_add_one_iff.mp (by exact_mod_cast hlt)

/-- **Rounding keeps the order.** Were the lower number rounded to the higher of two results, it
would be above their middle, and the higher number below it. -/
theorem roundBits_mono {w : ℚ} (hbits : 0 < bits) (h : v ≤ w) :
    roundBits bits v ≤ roundBits bits w := by
  obtain ⟨m, k, hm, hv⟩ := exists_roundBits_eq bits v
  obtain ⟨n, j, hn, hw⟩ := exists_roundBits_eq bits w
  by_contra hlt
  rw [not_le] at hlt
  have hnearv := abs_roundBits_sub_le (v := v) hbits hn j
  have hnearw := abs_roundBits_sub_le (v := w) hbits hm k
  rw [← hw] at hnearv
  rw [← hv] at hnearw
  have hupper : roundBits bits v - v ≤ v - roundBits bits w := by
    rcases abs_cases (roundBits bits v - v) with ⟨h1, h2⟩ | ⟨h1, h2⟩ <;>
      rcases abs_cases (roundBits bits w - v) with ⟨h3, h4⟩ | ⟨h3, h4⟩ <;> linarith
  have hlower : w - roundBits bits w ≤ roundBits bits v - w := by
    rcases abs_cases (roundBits bits w - w) with ⟨h1, h2⟩ | ⟨h1, h2⟩ <;>
      rcases abs_cases (roundBits bits v - w) with ⟨h3, h4⟩ | ⟨h3, h4⟩ <;> linarith
  have heq : v = w := by linarith
  rw [heq] at hlt
  exact lt_irrefl _ hlt

/-- A number that is given by its bits down to some place, and by what is below it. -/
theorem roundBits_of_bits {n k : ℕ} {f : ℚ} (h0 : 0 ≤ f) (h1 : f < 1) (hbits : 0 < bits)
    (hlo : 2 ^ (bits - 1 + k) ≤ n) (hhi : n < 2 ^ (bits + k)) (j : ℤ) :
    lastPlace bits ((n + f) * 2 ^ j) = 2 ^ k * 2 ^ j ∧
      roundBits bits ((n + f) * 2 ^ j) = nearestInt ((n + f) / 2 ^ k) * (2 ^ k * 2 ^ j) := by
  have hj : (0 : ℚ) < 2 ^ j := by positivity
  have hk : (0 : ℚ) < 2 ^ k := by positivity
  have hn : (0 : ℚ) ≤ n := Nat.cast_nonneg n
  have habs : |((n : ℚ) + f) * 2 ^ j| = (n + f) * 2 ^ j := abs_of_nonneg (by positivity)
  have hlo' : (2 : ℚ) ^ (bits - 1 + k) ≤ n := by exact_mod_cast hlo
  have hhi' : (n : ℚ) + 1 ≤ 2 ^ (bits + k) := by exact_mod_cast hhi
  have hlast : lastPlace bits (((n : ℚ) + f) * 2 ^ j) = 2 ^ k * 2 ^ j := by
    rw [lastPlace_eq (e := ((bits - 1 + k : ℕ) : ℤ) + j)]
    · rw [← zpow_natCast, ← zpow_add₀ two_ne_zero]
      congr 1
      omega
    · rw [habs, zpow_add₀ two_ne_zero, zpow_natCast]
      exact mul_le_mul_of_nonneg_right (by linarith) hj.le
    · rw [habs, show ((bits - 1 + k : ℕ) : ℤ) + j + 1 = ((bits + k : ℕ) : ℤ) + j by omega,
        zpow_add₀ two_ne_zero, zpow_natCast]
      exact mul_lt_mul_of_pos_right (by linarith) hj
  refine ⟨hlast, ?_⟩
  rw [roundBits, hlast, mul_div_mul_right _ _ hj.ne']

end Rounding

open Rounding

/-! ## Storing rounds once -/

namespace Scratch

variable {p : Precision} {d : Scratch p}

theorem manBits_pos (p : Precision) : 0 < p.manBits := by
  cases p <;> decide

/-- **Aligning and rounding away the guard byte is one rounding** of the magnitude. -/
theorem roundBits_magnitude (h : d.man ≠ 0) :
    roundBits p.manBits d.magnitude = nearestEven d.align.man 8 * 256 * d.align.unit := by
  have hwidth : p.width = p.manBits + 8 := rfl
  have hb := manBits_pos p
  have hbits : ∀ (n k : ℕ) (j : ℤ), 2 ^ (p.manBits - 1 + k) ≤ n → n < 2 ^ (p.manBits + k) →
      roundBits p.manBits (n * 2 ^ j) = nearestEven n k * (2 ^ k * 2 ^ j) := by
    intro n k j hlo hhi
    have hround := (roundBits_of_bits le_rfl one_pos hb hlo hhi j).2
    rw [add_zero, nearestInt_div_two_pow] at hround
    exact_mod_cast hround
  rcases Nat.le_total (bitLength d.man) p.width with hle | hge
  · have ha := align_aligned h
    rw [← magnitude_align_of_le hle, magnitude, unit, hbits _ 8]
    · ring
    · rw [show p.manBits - 1 + 8 = p.width - 1 by omega]
      exact ha.le_man
    · exact ha.man_lt
  · -- the bits moved out on the right and the guard byte are dropped together
    set k := bitLength d.man - p.width with hk
    have hunit : d.align.unit = 2 ^ k * d.unit := by
      rw [unit, unit, ← two_zpow_add, align_exp h]
      congr 2
      omega
    rw [align_man_of_ge hge, nearestEven_sticky, hunit, magnitude, unit, hbits _ (k + 8)]
    · rw [pow_add]
      ring
    · rw [show p.manBits - 1 + (k + 8) = bitLength d.man - 1 by omega]
      exact two_pow_le_of_pos (Nat.pos_of_ne_zero h)
    · rw [show p.manBits + (k + 8) = bitLength d.man by omega]
      exact lt_two_pow_bitLength d.man

theorem round_align_worth (h : d.man ≠ 0) :
    (d.align.round.1 : ℚ) * 256 * 2 ^ (d.align.round.2 - unitExp p)
      = roundBits p.manBits d.magnitude := by
  rw [round_worth, roundBits_magnitude h]

/-- **The exponent tells the leading bit** of what fills the working width. -/
theorem two_zpow_le_mul_iff {t : ℚ} (hlo : 2 ^ (p.width - 1) ≤ t) (hhi : t < 2 ^ p.width)
    (a e : ℤ) : 2 ^ a ≤ t * 2 ^ (e - unitExp p) ↔ a + 129 ≤ e := by
  have hpos : (0 : ℚ) < 2 ^ (e - unitExp p) := by positivity
  have hwidth := p.width_pos
  constructor
  · intro hle
    by_contra hlt
    have hout : (2 : ℚ) ^ p.width * 2 ^ (e - unitExp p) ≤ 2 ^ a := by
      rw [← zpow_natCast, ← zpow_add₀ two_ne_zero]
      apply zpow_le_zpow_right₀ one_le_two
      rw [unitExp_eq]
      omega
    have := mul_lt_mul_of_pos_right hhi hpos
    linarith
  · intro hle
    calc (2 : ℚ) ^ a ≤ 2 ^ (p.width - 1) * 2 ^ (e - unitExp p) := by
          rw [← zpow_natCast, ← zpow_add₀ two_ne_zero]
          apply zpow_le_zpow_right₀ one_le_two
          rw [unitExp_eq]
          omega
      _ ≤ _ := mul_le_mul_of_nonneg_right hlo hpos.le

/-- **The stored exponent tells the leading bit** of the rounded magnitude. -/
theorem two_zpow_le_roundBits_iff (h : d.man ≠ 0) (e : ℤ) :
    2 ^ e ≤ roundBits p.manBits d.magnitude ↔ e + 129 ≤ d.align.round.2 := by
  obtain ⟨hlo, hhi⟩ := round_fst_mem (align_aligned h)
  have hm := p.two_pow_manBits
  have hw := p.two_pow_width_eq_mul
  have hw1 := p.two_pow_width
  rw [← round_align_worth h]
  apply two_zpow_le_mul_iff
  · exact_mod_cast (show 2 ^ (p.width - 1) ≤ d.align.round.1 * 256 by omega)
  · exact_mod_cast (show d.align.round.1 * 256 < 2 ^ p.width by omega)

/-- The last place of what is stored is not finer than that of the magnitude. -/
theorem lastPlace_magnitude_le (h : d.man ≠ 0) :
    lastPlace p.manBits d.magnitude ≤ 2 ^ (d.align.round.2 - 128 - p.manBits) := by
  have hman : (0 : ℚ) < d.man := by exact_mod_cast Nat.pos_of_ne_zero h
  have hpos : 0 < d.magnitude := mul_pos hman d.unit_pos
  have hlead : (2 : ℚ) ^ Int.log 2 d.magnitude ≤ d.magnitude := by
    exact_mod_cast Int.zpow_log_le_self one_lt_two hpos
  have hexp := (two_zpow_le_roundBits_iff h _).mp (two_zpow_le_roundBits (manBits_pos p) hlead)
  rw [lastPlace, abs_of_pos hpos]
  apply zpow_le_zpow_right₀ one_le_two
  omega

theorem overflows_iff (hv : d.vanishes = false) :
    d.overflows = true ↔ 2 ^ 127 ≤ roundBits p.manBits d.magnitude := by
  have hman := ((vanishes_eq_false_iff d).mp hv).1
  have hlimit := two_zpow_le_roundBits_iff hman 127
  rw [show (2 : ℚ) ^ (127 : ℤ) = 2 ^ 127 by norm_cast] at hlimit
  rw [hlimit, overflows, hv]
  simp only [Bool.not_false, Bool.true_and, decide_eq_true_eq]
  omega

/-- **What is too large after rounding overflows,** and nothing else does. -/
theorem pack_of_le (hv : d.vanishes = false) (h : 2 ^ 127 ≤ roundBits p.manBits d.magnitude) :
    d.pack = .error (.overflow (.max d.neg)) := by
  have ho := (overflows_iff hv).mpr h
  rw [pack, if_pos ho, saturate_of_overflows ho]

theorem pack_of_lt (hv : d.vanishes = false) (h : roundBits p.manBits d.magnitude < 2 ^ 127) :
    d.pack = .ok d.saturate := by
  rw [pack, if_neg]
  rw [overflows_iff hv]
  exact not_le.mpr h

/-- **What is stored, as a number:** zero where the rounded magnitude is too small, and
otherwise the rounded magnitude, with the exponent byte that rounding gave it. -/
theorem saturate_of_lt (hv : d.vanishes = false) (h : roundBits p.manBits d.magnitude < 2 ^ 127) :
    (d.saturate.isZero = true ↔ roundBits p.manBits d.magnitude < 2 ^ (-128 : ℤ)) ∧
      (d.saturate.isZero = false → d.saturate.neg = d.neg ∧
        d.saturate.unpack.magnitude = roundBits p.manBits d.magnitude ∧
        (d.saturate.exponent : ℤ) = d.align.round.2) := by
  have hman := ((vanishes_eq_false_iff d).mp hv).1
  have hhi : d.align.round.2 ≤ 255 := by
    have hno : ¬d.overflows = true := by
      rw [overflows_iff hv]
      exact not_le.mpr h
    simp only [overflows, hv, Bool.not_false, Bool.true_and, decide_eq_true_eq] at hno
    omega
  have hexp : d.saturate.exponent = d.align.round.2.toNat := by
    rw [saturate, if_neg (by simp [hv]), dif_neg (by omega)]
  refine ⟨?_, ?_⟩
  · have hlimit := two_zpow_le_roundBits_iff hman (-128)
    rw [Floating.isZero, hexp, beq_iff_eq, ← not_le, hlimit]
    omega
  · intro hz
    rw [Floating.isZero, hexp, beq_eq_false_iff_ne] at hz
    have hunpack := unpack_saturate hv hhi (by omega)
    refine ⟨congrArg Scratch.neg hunpack, ?_, ?_⟩
    · rw [hunpack, magnitude, unit, ← round_align_worth hman]
      push_cast
      rfl
    · rw [hexp]
      omega

/-- An aligned value that rounding takes out of range is an overflow; its exponent is far above
the one that would be stored as zero. -/
theorem Aligned.pack_of_le (ha : d.Aligned) (h : 2 ^ 127 ≤ roundBits p.manBits d.magnitude) :
    d.pack = .error (.overflow (.max d.neg)) := by
  have hexp := (two_zpow_le_roundBits_iff ha.man_ne_zero 127).mp (by exact_mod_cast h)
  have hround := d.round_snd_mem
  rw [ha.align_eq] at hexp
  exact Scratch.pack_of_le ((vanishes_eq_false_iff d).mpr ⟨ha.man_ne_zero, by omega⟩) h

/-- **An aligned value in range is stored as its magnitude rounded,** and is not stored as
zero: rounding does not take it below its leading bit. The last place of what is stored is
not finer than its own. -/
theorem Aligned.exists_pack_eq_ok (ha : d.Aligned) (hexp : 0 < d.exp)
    (h : roundBits p.manBits d.magnitude < 2 ^ 127) :
    ∃ z, d.pack = .ok z ∧ z.isZero = false ∧ z.neg = d.neg ∧
      z.unpack.magnitude = roundBits p.manBits d.magnitude ∧
      lastPlace p.manBits d.magnitude ≤ 2 ^ ((z.exponent : ℤ) - 128 - p.manBits) := by
  have hv : d.vanishes = false := (vanishes_eq_false_iff d).mpr ⟨ha.man_ne_zero, hexp⟩
  obtain ⟨hzero, hstored⟩ := saturate_of_lt hv h
  have hz : d.saturate.isZero = false := by
    rw [← Bool.not_eq_true, hzero, not_lt, two_zpow_le_roundBits_iff ha.man_ne_zero, ha.align_eq]
    have := d.round_snd_mem
    omega
  obtain ⟨hneg, hmag, hexponent⟩ := hstored hz
  refine ⟨_, pack_of_lt hv h, hz, hneg, hmag, ?_⟩
  rw [hexponent]
  exact lastPlace_magnitude_le ha.man_ne_zero

end Scratch

/-! ## Signs -/

/-- A magnitude with a sign. -/
def signed (neg : Bool) (v : ℚ) : ℚ := if neg then -v else v

theorem abs_signed (neg : Bool) (v : ℚ) : |signed neg v| = |v| := by
  unfold signed
  split
  · exact abs_neg v
  · rfl

theorem signed_neg_iff {neg : Bool} {v : ℚ} (h : 0 < v) : signed neg v < 0 ↔ neg = true := by
  cases neg
  · exact iff_of_false (not_lt.mpr h.le) (by simp)
  · exact iff_of_true (neg_neg_of_pos h) rfl

theorem signed_not (neg : Bool) (v : ℚ) : signed (!neg) v = -signed neg v := by
  cases neg
  · rfl
  · exact (neg_neg v).symm

theorem signed_add (neg : Bool) (v w : ℚ) : signed neg (v + w) = signed neg v + signed neg w := by
  unfold signed
  split
  · ring
  · rfl

theorem signed_sub (neg : Bool) (v w : ℚ) : signed neg (v - w) = signed neg v - signed neg w := by
  unfold signed
  split
  · ring
  · rfl

theorem Rounding.lastPlace_signed (bits : ℕ) (neg : Bool) (v : ℚ) :
    lastPlace bits (signed neg v) = lastPlace bits v := by
  rw [lastPlace, lastPlace, abs_signed]

theorem Rounding.roundBits_signed (bits : ℕ) (neg : Bool) (v : ℚ) :
    roundBits bits (signed neg v) = signed neg (roundBits bits v) := by
  unfold signed
  split
  · exact roundBits_neg bits v
  · rfl

/-- A value that is not zero is its magnitude with its sign. -/
theorem Floating.exact_eq_signed {p : Precision} {x : Floating p} (h : x.isZero = false) :
    x.exact = signed x.neg x.unpack.magnitude := by
  rw [exact_eq, sign, if_neg (by simp [h]), signed]
  split
  · push_cast
    ring
  · push_cast
    ring

end BasicNumerics
