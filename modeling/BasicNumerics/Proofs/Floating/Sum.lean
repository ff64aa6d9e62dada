/-
Sums of two values of one sign.

A sum is taken at the larger exponent. The smaller significand is cut there, and of what
is cut off only one mark remains: whether it was anything. The mark is looked at where the
guard byte of the sum is a tie, and moves the sum off it. As long as the sum keeps to the
working width that is all correct rounding needs, because the guard byte alone decides
every other case.

A sum that carries out of the width is moved one place to the right after that, so the
guard byte that rounding sees is not the one that was looked at. One case slips through:
the bits moved into the guard byte read `80`, so that the sum looks like a tie, and what
would say otherwise has been cut off without a mark. Above an even significand it is
rounded down where it should go up. `CarriedTie` says in terms of the exact sum when this
happens (`carriedTie_iff`); in every other case the sum is rounded correctly.
-/
import BasicNumerics.Proofs.Floating.InPlace
import BasicNumerics.Proofs.Floating.Nearest

set_option autoImplicit false

namespace BasicNumerics

open Rounding

namespace Scratch

variable {p : Precision} {d l r small large : Scratch p}

/-! ## Operands -/

/-- A working value as it is read from a value that is not zero. -/
structure Stored (d : Scratch p) : Prop where
  aligned : d.Aligned
  guard : 256 ∣ d.man
  exp_pos : 0 < d.exp
  exp_le : d.exp ≤ 255

theorem stored_unpack {x : Floating p} (h : x.isZero = false) : x.unpack.Stored := by
  have hexp : x.exponent ≠ 0 := by simpa [Floating.isZero] using h
  have hlt := x.exponent_lt
  refine ⟨unpack_aligned x, Dvd.intro_left _ rfl, ?_, ?_⟩
  · show (0 : ℤ) < x.exponent
    omega
  · show (x.exponent : ℤ) ≤ 255
    omega

theorem Stored.negate (h : d.Stored) : d.negate.Stored :=
  ⟨⟨h.aligned.le_man, h.aligned.man_lt⟩, h.guard, h.exp_pos, h.exp_le⟩

/-- A sum is taken at the larger exponent. -/
theorem exists_addOrdered (hl : l.Stored) (hr : r.Stored) :
    ∃ small large : Scratch p, (small = l ∧ large = r ∨ small = r ∧ large = l) ∧
      small.exp ≤ large.exp ∧ l.add r = addOrdered small large := by
  have hl0 := hl.exp_pos
  have hr0 := hr.exp_pos
  unfold add
  rw [if_neg (by omega), if_neg (by omega)]
  by_cases hlt : r.exp < l.exp
  · exact ⟨r, l, Or.inr ⟨rfl, rfl⟩, hlt.le, if_pos hlt⟩
  · exact ⟨l, r, Or.inl ⟨rfl, rfl⟩, not_lt.mp hlt, if_neg hlt⟩

/-! ## The cut -/

/-- How far the smaller operand is moved to the right. -/
def shiftTo (small large : Scratch p) : ℕ := (large.exp - small.exp).toNat

/-- What is left of the smaller operand at the larger exponent. -/
def kept (small large : Scratch p) : ℕ := small.man / 2 ^ shiftTo small large

/-- What is cut off it, in units of the larger operand. -/
def dropped (small large : Scratch p) : ℚ :=
  (small.man % 2 ^ shiftTo small large : ℕ) / 2 ^ shiftTo small large

theorem dropped_nonneg (small large : Scratch p) : 0 ≤ dropped small large := by
  unfold dropped
  positivity

theorem dropped_lt_one (small large : Scratch p) : dropped small large < 1 := by
  have hlt : ((small.man % 2 ^ shiftTo small large : ℕ) : ℚ) < 2 ^ shiftTo small large := by
    exact_mod_cast Nat.mod_lt _ (Nat.two_pow_pos _)
  rw [dropped, div_lt_one (by positivity)]
  exact hlt

theorem dropped_ne_zero_iff :
    (small.man % 2 ^ shiftTo small large != 0) = true ↔ dropped small large ≠ 0 := by
  rw [bne_iff_ne, not_iff_not, dropped, div_eq_zero_iff, Nat.cast_eq_zero]
  constructor
  · exact Or.inl
  · rintro (h | h)
    · exact h
    · exact absurd h (by positivity)

/-- **Nothing is lost by the cut but what is dropped.** -/
theorem magnitude_eq_kept_add_dropped (h : small.exp ≤ large.exp) :
    small.magnitude = (kept small large + dropped small large) * large.unit := by
  have hexp : large.exp = small.exp + (shiftTo small large : ℕ) := by
    unfold shiftTo
    omega
  have hunit : large.unit = 2 ^ shiftTo small large * small.unit := by
    rw [unit, unit, hexp, two_zpow_add]
  have hman : (small.man : ℚ) = 2 ^ shiftTo small large * kept small large
      + (small.man % 2 ^ shiftTo small large : ℕ) := by
    exact_mod_cast (Nat.div_add_mod small.man (2 ^ shiftTo small large)).symm
  rw [magnitude, hunit, hman, dropped]
  field_simp

theorem kept_lt (h : small.Aligned) (large : Scratch p) : kept small large < 2 ^ p.width :=
  (Nat.div_le_self _ _).trans_lt h.man_lt

/-! ## Rounding a joined significand -/

/-- **Without a carry the mark is enough:** the joined significand is rounded as the exact
sum is. -/
theorem nearestInt_joined {s m : ℕ} {lost : Bool} {f : ℚ} (h0 : 0 ≤ f) (h1 : f < 1)
    (hlost : lost = true ↔ f ≠ 0) :
    nearestInt (((s + m : ℕ) + f) / 2 ^ 8) = nearestEven (joinMan s m lost) 8 := by
  unfold joinMan
  by_cases hf : f = 0
  · rw [if_neg (by simp [hlost, hf]), hf, add_zero, nearestInt_div_two_pow]
  · rw [nearestInt_div_of_pos (lt_of_le_of_ne h0 (Ne.symm hf)) h1 (by norm_num), hlost.mpr hf,
      Bool.true_and, nearestEven]
    simp only [beq_iff_eq, Nat.reducePow, Nat.reduceSub]
    split_ifs <;> omega

/-- **With a carry it is not:** an even significand with a half below it and something more
further down is left where it is. -/
theorem nearestInt_joined_carry {s m : ℕ} {lost : Bool} {f : ℚ} (h0 : 0 ≤ f) (h1 : f < 1)
    (hlost : lost = true ↔ f ≠ 0) :
    nearestInt (((s + m : ℕ) + f) / 2 ^ 9) = nearestEven (joinMan s m lost) 9 +
      if f ≠ 0 ∧ (s + m) % 512 = 256 ∧ (s + m) / 512 % 2 = 0 then 1 else 0 := by
  unfold joinMan
  by_cases hf : f = 0
  · rw [if_neg (by simp [hlost, hf]), if_neg (by simp [hf]), hf, add_zero, add_zero,
      nearestInt_div_two_pow]
  · rw [nearestInt_div_of_pos (lt_of_le_of_ne h0 (Ne.symm hf)) h1 (by norm_num), hlost.mpr hf,
      Bool.true_and, nearestEven]
    simp only [beq_iff_eq, Nat.reducePow, Nat.reduceSub, ne_eq, hf, not_false_eq_true, true_and]
    split_ifs <;> omega

/-- The joined significand of two operands of one sign. -/
def joined (small large : Scratch p) : ℕ :=
  joinMan (kept small large) large.man (small.man % 2 ^ shiftTo small large != 0)

theorem addOrdered_eq_joined (hneg : small.neg = large.neg) :
    addOrdered small large = { large with man := joined small large } := by
  rw [addOrdered, if_pos hneg]
  rfl

theorem magnitude_add_eq (h : small.exp ≤ large.exp) :
    small.magnitude + large.magnitude
      = ((kept small large + large.man : ℕ) + dropped small large) * 2 ^ (large.exp - unitExp p) := by
  rw [magnitude_eq_kept_add_dropped h, magnitude, unit]
  push_cast
  ring

/-- Joining moves a significand off a tie, and never across a multiple of the guard byte. -/
theorem joined_mem (small large : Scratch p) :
    joined small large = kept small large + large.man ∨
      (joined small large = kept small large + large.man + 1 ∧
        (kept small large + large.man) % 256 = 128) := by
  unfold joined joinMan
  split
  · next h =>
    rw [Bool.and_eq_true, beq_iff_eq] at h
    exact Or.inr ⟨rfl, h.2⟩
  · exact Or.inl rfl

/-- A sum that keeps to the width is rounded correctly. -/
theorem roundBits_addOrdered (hl : large.Aligned) (hexp : small.exp ≤ large.exp)
    (hneg : small.neg = large.neg) (hkeep : kept small large + large.man < 2 ^ p.width) :
    roundBits p.manBits (addOrdered small large).magnitude
      = roundBits p.manBits (small.magnitude + large.magnitude) := by
  have hwidth : p.width = p.manBits + 8 := rfl
  have hb := manBits_pos p
  have hw := p.two_pow_width_eq_mul
  have hlo : 2 ^ (p.manBits - 1 + 8) ≤ kept small large + large.man := by
    rw [show p.manBits - 1 + 8 = p.width - 1 by omega]
    exact hl.le_man.trans (Nat.le_add_left _ _)
  have hmem := joined_mem small large
  have hjoined : (addOrdered small large).magnitude
      = ((joined small large : ℕ) + 0) * 2 ^ (large.exp - unitExp p) := by
    rw [addOrdered_eq_joined hneg, magnitude, unit, add_zero]
  rw [hjoined, magnitude_add_eq hexp,
    (roundBits_of_bits le_rfl one_pos hb (by omega : 2 ^ (p.manBits - 1 + 8) ≤ _)
      (by rw [← hwidth]; omega) _).2,
    (roundBits_of_bits (dropped_nonneg small large) (dropped_lt_one small large) hb hlo hkeep _).2,
    nearestInt_joined (dropped_nonneg small large) (dropped_lt_one small large) dropped_ne_zero_iff,
    add_zero, nearestInt_div_two_pow]
  rfl

/-- A carry is by one bit. -/
theorem carry_bounds (hs : small.Aligned) (hl : large.Aligned)
    (hcarry : 2 ^ p.width ≤ kept small large + large.man) :
    2 ^ (p.manBits - 1 + 9) ≤ kept small large + large.man ∧
      kept small large + large.man < 2 ^ (p.manBits + 9) := by
  have hwidth : p.width = p.manBits + 8 := rfl
  have hb := manBits_pos p
  have hk := kept_lt hs large
  have hm := hl.man_lt
  rw [show p.manBits - 1 + 9 = p.width by omega, show p.manBits + 9 = p.width + 1 by omega,
    Nat.pow_succ]
  exact ⟨hcarry, by omega⟩

theorem lastPlace_carry (hs : small.Aligned) (hl : large.Aligned) (hexp : small.exp ≤ large.exp)
    (hcarry : 2 ^ p.width ≤ kept small large + large.man) :
    lastPlace p.manBits (small.magnitude + large.magnitude) = 512 * large.unit := by
  obtain ⟨hlo, hhi⟩ := carry_bounds hs hl hcarry
  rw [magnitude_add_eq hexp, (roundBits_of_bits (dropped_nonneg small large)
    (dropped_lt_one small large) (manBits_pos p) hlo hhi _).1, unit]
  norm_num

/-- The two roundings of a sum that carries out of the width, in its last place. -/
theorem roundBits_addOrdered_carry (hs : small.Aligned) (hl : large.Aligned)
    (hexp : small.exp ≤ large.exp) (hneg : small.neg = large.neg)
    (hcarry : 2 ^ p.width ≤ kept small large + large.man) :
    roundBits p.manBits (addOrdered small large).magnitude
        = nearestEven (joined small large) 9 * (512 * large.unit) ∧
      roundBits p.manBits (small.magnitude + large.magnitude)
        = (nearestEven (joined small large) 9 +
          if dropped small large ≠ 0 ∧ (kept small large + large.man) % 512 = 256 ∧
            (kept small large + large.man) / 512 % 2 = 0 then 1 else 0) * (512 * large.unit) := by
  have hb := manBits_pos p
  obtain ⟨hlo, hhi⟩ := carry_bounds hs hl hcarry
  have hpow : 2 ^ (p.manBits + 9) = 2 ^ p.manBits * 512 := Nat.pow_add 2 p.manBits 9
  have hmem := joined_mem small large
  have hunit : (2 : ℚ) ^ 9 * 2 ^ (large.exp - unitExp p) = 512 * large.unit := by
    rw [unit]
    norm_num
  refine ⟨?_, ?_⟩
  · have hjoined : (addOrdered small large).magnitude
        = ((joined small large : ℕ) + 0) * 2 ^ (large.exp - unitExp p) := by
      rw [addOrdered_eq_joined hneg, magnitude, unit, add_zero]
    rw [hjoined, (roundBits_of_bits le_rfl one_pos hb (by omega : 2 ^ (p.manBits - 1 + 9) ≤ _)
      (by omega) _).2, hunit, add_zero, nearestInt_div_two_pow]
    push_cast
    rfl
  · rw [magnitude_add_eq hexp, (roundBits_of_bits (dropped_nonneg small large)
      (dropped_lt_one small large) hb hlo hhi _).2, hunit, nearestInt_joined_carry
      (dropped_nonneg small large) (dropped_lt_one small large) dropped_ne_zero_iff]
    push_cast
    rfl

end Scratch

/-! ## Ties that are missed -/

/-- A sum `v` of magnitudes whose larger exponent is `e`, that carries past the bits of that
exponent and looks like a tie in the `512` parts of its last place that are not cut: it lies
above the middle of its two neighbours by less than one such part, and the lower neighbour
is even. -/
structure CarriedTie (p : Precision) (e : ℤ) (v : ℚ) : Prop where
  carries : 2 ^ (e - 128) ≤ v
  even : Even ⌊v / lastPlace p.manBits v⌋
  above : 1 / 2 < Int.fract (v / lastPlace p.manBits v)
  near : Int.fract (v / lastPlace p.manBits v) < 1 / 2 + 1 / 512

namespace Scratch

variable {p : Precision} {d small large : Scratch p}

theorem two_zpow_exp (large : Scratch p) :
    (2 : ℚ) ^ (large.exp - 128) = 2 ^ p.width * large.unit := by
  rw [unit, unitExp_eq, ← zpow_natCast, ← zpow_add₀ two_ne_zero]
  congr 1
  ring

theorem carries_iff (hexp : small.exp ≤ large.exp) :
    2 ^ (large.exp - 128) ≤ small.magnitude + large.magnitude ↔
      2 ^ p.width ≤ kept small large + large.man := by
  have h0 := dropped_nonneg small large
  have h1 := dropped_lt_one small large
  rw [magnitude_add_eq hexp, two_zpow_exp, ← unit, mul_le_mul_iff_left₀ large.unit_pos]
  constructor
  · intro hle
    by_contra hlt
    have hnat : ((kept small large + large.man : ℕ) : ℚ) + 1 ≤ 2 ^ p.width := by
      exact_mod_cast not_le.mp hlt
    linarith
  · intro hle
    have hnat : (2 : ℚ) ^ p.width ≤ (kept small large + large.man : ℕ) := by exact_mod_cast hle
    linarith

/-- **The tie that is missed, in bits and in exact terms.** -/
theorem carriedTie_iff (hs : small.Aligned) (hl : large.Aligned)
    (hexp : small.exp ≤ large.exp) :
    CarriedTie p large.exp (small.magnitude + large.magnitude) ↔
      2 ^ p.width ≤ kept small large + large.man ∧ dropped small large ≠ 0 ∧
        (kept small large + large.man) % 512 = 256 ∧
        (kept small large + large.man) / 512 % 2 = 0 := by
  have h0 := dropped_nonneg small large
  have h1 := dropped_lt_one small large
  by_cases hcarry : 2 ^ p.width ≤ kept small large + large.man
  · have hlast := lastPlace_carry hs hl hexp hcarry
    have hcarries := (carries_iff hexp).mpr hcarry
    have hquot : (small.magnitude + large.magnitude) / (512 * large.unit)
        = ((kept small large + large.man : ℕ) + dropped small large) / 2 ^ 9 := by
      rw [magnitude_add_eq hexp, ← unit, mul_div_mul_right _ _ large.unit_pos.ne']
      norm_num
    have hfloor := floor_div_two_pow (kept small large + large.man) 9 h0 h1
    have hfract := fract_div_two_pow (kept small large + large.man) 9 h0 h1
    rw [show (2 : ℕ) ^ 9 = 512 from rfl] at hfract
    generalize kept small large + large.man = n, dropped small large = f at *
    constructor
    · rintro ⟨-, heven, habove, hnear⟩
      rw [hlast, hquot, hfract] at habove hnear
      rw [hlast, hquot, hfloor, even_quotient] at heven
      rw [lt_div_iff₀ (by positivity)] at habove
      rw [div_lt_iff₀ (by positivity)] at hnear
      have hle : n % 512 ≤ 256 := by
        have hlt : ((n % 512 : ℕ) : ℚ) < 257 := by linarith
        have hnat : n % 512 < 257 := by exact_mod_cast hlt
        omega
      have hge : 256 ≤ n % 512 := by
        by_contra hlt
        have hnat : ((n % 512 : ℕ) : ℚ) + 1 ≤ 256 := by exact_mod_cast not_le.mp hlt
        linarith
      refine ⟨hcarry, ?_, le_antisymm hle hge, heven⟩
      intro hzero
      have hnat : ((n % 512 : ℕ) : ℚ) ≤ 256 := by exact_mod_cast hle
      linarith
    · rintro ⟨-, hdropped, hmod, heven⟩
      have hpos : 0 < f := lt_of_le_of_ne h0 (Ne.symm hdropped)
      have hmod' : ((n % 512 : ℕ) : ℚ) = 256 := by exact_mod_cast hmod
      refine ⟨hcarries, ?_, ?_, ?_⟩
      · rw [hlast, hquot, hfloor]
        exact even_quotient.mpr heven
      · rw [hlast, hquot, hfract, lt_div_iff₀ (by positivity)]
        linarith
      · rw [hlast, hquot, hfract, div_lt_iff₀ (by positivity)]
        linarith
  · constructor
    · intro h
      exact absurd ((carries_iff hexp).mp h.carries) hcarry
    · intro h
      exact absurd h.1 hcarry

/-! ## What is stored -/

theorem roundBits_addOrdered_of_not_tie (hs : small.Aligned) (hl : large.Aligned)
    (hexp : small.exp ≤ large.exp) (hneg : small.neg = large.neg)
    (ht : ¬CarriedTie p large.exp (small.magnitude + large.magnitude)) :
    roundBits p.manBits (addOrdered small large).magnitude
      = roundBits p.manBits (small.magnitude + large.magnitude) := by
  by_cases hcarry : 2 ^ p.width ≤ kept small large + large.man
  · obtain ⟨hcode, hexact⟩ := roundBits_addOrdered_carry hs hl hexp hneg hcarry
    rw [carriedTie_iff hs hl hexp, and_iff_right hcarry] at ht
    rw [hcode, hexact, if_neg ht, add_zero]
  · exact roundBits_addOrdered hl hexp hneg (not_le.mp hcarry)

/-- A tie that is missed: the significand stays even, and a whole last place is lost. -/
theorem roundBits_addOrdered_of_tie (hs : small.Aligned) (hl : large.Aligned)
    (hexp : small.exp ≤ large.exp) (hneg : small.neg = large.neg)
    (ht : CarriedTie p large.exp (small.magnitude + large.magnitude)) :
    roundBits p.manBits (addOrdered small large).magnitude
      = ((kept small large + large.man) / 512 : ℕ) * (512 * large.unit) ∧
    roundBits p.manBits (small.magnitude + large.magnitude)
      = ((kept small large + large.man) / 512 + 1 : ℕ) * (512 * large.unit) := by
  obtain ⟨hcarry, htie⟩ := (carriedTie_iff hs hl hexp).mp ht
  obtain ⟨hcode, hexact⟩ := roundBits_addOrdered_carry hs hl hexp hneg hcarry
  have heven : nearestEven (joined small large) 9 = (kept small large + large.man) / 512 := by
    have hmem := joined_mem small large
    have hjoined : joined small large = kept small large + large.man := by omega
    rw [hjoined, nearestEven, if_neg]
    omega
  rw [hcode, hexact, if_pos htie, heven, Nat.cast_succ]
  exact ⟨rfl, rfl⟩

/-- Where a sum carries, in the last places of what it carries to. -/
theorem two_zpow_exp_eq_places (large : Scratch p) :
    (2 : ℚ) ^ (large.exp - 128) = 2 ^ (p.manBits - 1) * (512 * large.unit) := by
  have hwidth : 2 ^ p.width = 2 ^ (p.manBits - 1) * 512 := by
    have hm := p.two_pow_manBits
    rw [p.two_pow_width_eq_mul]
    omega
  have hcast : (2 : ℚ) ^ p.width = 2 ^ (p.manBits - 1) * 512 := by exact_mod_cast hwidth
  rw [two_zpow_exp, hcast, mul_assoc]

/-- An even number of last places and the next one are on one side of the limit of the range,
if they have the bits of a sum that carried. -/
theorem two_pow_le_places_iff {q : ℕ} (hl : large.Stored) (hlo : 2 ^ (p.manBits - 1) ≤ q)
    (hhi : q + 1 < 2 ^ p.manBits) :
    2 ^ 127 ≤ (q : ℚ) * (512 * large.unit) ↔ 2 ^ 127 ≤ ((q + 1 : ℕ) : ℚ) * (512 * large.unit) := by
  have hpos : 0 < 512 * large.unit := mul_pos (by norm_num) large.unit_pos
  have hplaces := two_zpow_exp_eq_places large
  have hnext : (q : ℚ) * (512 * large.unit) ≤ ((q + 1 : ℕ) : ℚ) * (512 * large.unit) :=
    mul_le_mul_of_nonneg_right (by exact_mod_cast q.le_succ) hpos.le
  rcases le_or_gt 255 large.exp with htop | hlow
  · -- with the topmost exponent every carry is an overflow
    have hle : (2 : ℚ) ^ 127 ≤ q * (512 * large.unit) := by
      calc (2 : ℚ) ^ 127 = 2 ^ (large.exp - 128) := by
            rw [le_antisymm hl.exp_le htop]
            norm_num
        _ = 2 ^ (p.manBits - 1) * (512 * large.unit) := hplaces
        _ ≤ q * (512 * large.unit) :=
            mul_le_mul_of_nonneg_right (by exact_mod_cast hlo) hpos.le
    exact iff_of_true hle (hle.trans hnext)
  · -- and with any other none is
    have hlt : ((q + 1 : ℕ) : ℚ) * (512 * large.unit) < 2 ^ 127 := by
      calc ((q + 1 : ℕ) : ℚ) * (512 * large.unit)
          < 2 ^ p.manBits * (512 * large.unit) :=
            mul_lt_mul_of_pos_right (by exact_mod_cast hhi) hpos
        _ = 2 * 2 ^ (large.exp - 128) := by
            have hm : (2 : ℚ) ^ p.manBits = 2 * 2 ^ (p.manBits - 1) := by
              exact_mod_cast p.two_pow_manBits
            rw [hplaces, hm, mul_assoc]
        _ ≤ 2 * 2 ^ (126 : ℤ) := by
            apply mul_le_mul_of_nonneg_left _ two_pos.le
            exact zpow_le_zpow_right₀ one_le_two (by omega)
        _ = 2 ^ 127 := by norm_num
    exact iff_of_false (not_le.mpr (hnext.trans_lt hlt)) (not_le.mpr hlt)

/-- **A missed tie never moves a sum across the limit of the range:** the limit is an even
number of last places. -/
theorem two_pow_le_roundBits_addOrdered_iff (hs : small.Aligned) (hl : large.Stored)
    (hexp : small.exp ≤ large.exp) (hneg : small.neg = large.neg) :
    2 ^ 127 ≤ roundBits p.manBits (addOrdered small large).magnitude ↔
      2 ^ 127 ≤ roundBits p.manBits (small.magnitude + large.magnitude) := by
  by_cases ht : CarriedTie p large.exp (small.magnitude + large.magnitude)
  · obtain ⟨hcode, hexact⟩ := roundBits_addOrdered_of_tie hs hl.aligned hexp hneg ht
    obtain ⟨hcarry, -, -, heven⟩ := (carriedTie_iff hs hl.aligned hexp).mp ht
    obtain ⟨hlo, hhi⟩ := carry_bounds hs hl.aligned hcarry
    have hm := p.two_pow_manBits
    rw [Nat.pow_add] at hlo hhi
    rw [hcode, hexact]
    exact two_pow_le_places_iff hl (by omega) (by omega)
  · rw [roundBits_addOrdered_of_not_tie hs hl.aligned hexp hneg ht]

/-- What reaches far enough up in the width is not too small to be stored. -/
theorem two_zpow_le_mul_unit {t : ℚ} {j : ℕ} (ht : 2 ^ j ≤ t) (hj : (p.width : ℤ) ≤ j + d.exp) :
    2 ^ (-128 : ℤ) ≤ t * d.unit := by
  calc (2 : ℚ) ^ (-128 : ℤ) ≤ 2 ^ ((j : ℤ) + (d.exp - unitExp p)) := by
        apply zpow_le_zpow_right₀ one_le_two
        rw [unitExp_eq]
        omega
    _ = 2 ^ j * d.unit := by rw [zpow_add₀ two_ne_zero, zpow_natCast, unit]
    _ ≤ t * d.unit := mul_le_mul_of_nonneg_right ht d.unit_pos.le

/-- **What is stored for a sum of two magnitudes.** -/
theorem pack_addOrdered (hs : small.Stored) (hl : large.Stored) (hexp : small.exp ≤ large.exp)
    (hneg : small.neg = large.neg) {v : ℚ} (hv : small.magnitude + large.magnitude = v) :
    (2 ^ 127 ≤ roundBits p.manBits v →
      (addOrdered small large).pack = .error (.overflow (.max large.neg))) ∧
    (roundBits p.manBits v < 2 ^ 127 →
      ∃ z : Floating p, (addOrdered small large).pack = .ok z ∧ z.isZero = false ∧
        z.neg = large.neg ∧
        (¬CarriedTie p large.exp v → z.unpack.magnitude = roundBits p.manBits v) ∧
        (CarriedTie p large.exp v →
          z.unpack.magnitude = roundBits p.manBits v - lastPlace p.manBits v)) := by
  subst hv
  have hlimit := two_pow_le_roundBits_addOrdered_iff hs.aligned hl hexp hneg
  have hsum := addOrdered_eq_joined hneg
  have hman : 2 ^ (p.width - 1) ≤ (addOrdered small large).man := by
    have hmem := joined_mem small large
    have hle := hl.aligned.le_man
    rw [hsum]
    show 2 ^ (p.width - 1) ≤ joined small large
    omega
  have hexp0 : 0 < (addOrdered small large).exp := by
    rw [hsum]
    exact hl.exp_pos
  have hvanish : (addOrdered small large).vanishes = false := by
    have hpow := Nat.two_pow_pos (p.width - 1)
    exact (vanishes_eq_false_iff _).mpr ⟨by omega, hexp0⟩
  have hnonzero : 2 ^ (-128 : ℤ) ≤ roundBits p.manBits (addOrdered small large).magnitude := by
    have hw := p.width_pos
    apply two_zpow_le_roundBits (manBits_pos p)
    exact two_zpow_le_mul_unit (by exact_mod_cast hman) (by omega)
  refine ⟨?_, ?_⟩
  · intro hover
    rw [pack_of_le hvanish (hlimit.mpr hover), hsum]
  · intro hlt
    have hlt' : roundBits p.manBits (addOrdered small large).magnitude < 2 ^ 127 := by
      rw [← not_le, hlimit, not_le]
      exact hlt
    obtain ⟨hzero, hstored⟩ := saturate_of_lt hvanish hlt'
    have hz : (addOrdered small large).saturate.isZero = false := by
      rw [← Bool.not_eq_true, hzero, not_lt]
      exact hnonzero
    obtain ⟨hsign, hmag, -⟩ := hstored hz
    refine ⟨_, pack_of_lt hvanish hlt', hz, ?_, ?_, ?_⟩
    · rw [hsign, hsum]
    · intro ht
      rw [hmag, roundBits_addOrdered_of_not_tie hs.aligned hl.aligned hexp hneg ht]
    · intro ht
      obtain ⟨hcode, hexact⟩ := roundBits_addOrdered_of_tie hs.aligned hl.aligned hexp hneg ht
      have hcarry := ((carriedTie_iff hs.aligned hl.aligned hexp).mp ht).1
      rw [hmag, hcode, hexact, lastPlace_carry hs.aligned hl.aligned hexp hcarry, Nat.cast_succ]
      ring

end Scratch

namespace Floating

open Scratch

variable {p : Precision} {x y : Floating p}

/-- Taking the opposite away is adding. -/
theorem sub_negate (x y : Floating p) : x.sub y.negate = x.add y := by
  have hneg : y.negate.unpack.negate = y.unpack := by
    show ({ exp := y.exponent, man := y.significand * 256, neg := !!y.neg } : Scratch p) = _
    rw [Bool.not_not]
    rfl
  rw [sub, hneg, add]

theorem exact_add_exact (hx : x.isZero = false) (hy : y.isZero = false) (hsign : x.neg = y.neg) :
    x.exact + y.exact = signed x.neg (x.unpack.magnitude + y.unpack.magnitude) := by
  rw [exact_eq_signed hx, exact_eq_signed hy, ← hsign, signed_add]

/-- A sum, with its operands in the order of their exponents. -/
theorem exists_ordered (hx : x.isZero = false) (hy : y.isZero = false) (hsign : x.neg = y.neg) :
    ∃ small large : Scratch p, small.Stored ∧ large.Stored ∧ small.exp ≤ large.exp ∧
      small.neg = large.neg ∧ large.neg = x.neg ∧ large.exp = (x.exponent ⊔ y.exponent : ℕ) ∧
      small.magnitude + large.magnitude = x.unpack.magnitude + y.unpack.magnitude ∧
      x.add y = (addOrdered small large).pack := by
  obtain ⟨small, large, ⟨rfl, rfl⟩ | ⟨rfl, rfl⟩, hexp, hadd⟩ :=
    exists_addOrdered (stored_unpack hx) (stored_unpack hy)
  · have hle : x.exponent ≤ y.exponent := Int.ofNat_le.mp hexp
    refine ⟨_, _, stored_unpack hx, stored_unpack hy, hexp, hsign, hsign.symm, ?_, rfl, ?_⟩
    · rw [max_eq_right hle]
      rfl
    · rw [add, hadd]
  · have hle : y.exponent ≤ x.exponent := Int.ofNat_le.mp hexp
    refine ⟨_, _, stored_unpack hy, stored_unpack hx, hexp, hsign.symm, rfl, ?_, add_comm _ _, ?_⟩
    · rw [max_eq_left hle]
      rfl
    · rw [add, hadd]

/-- **A sum of two values of one sign** is the exact sum rounded to the nearest value, a tie
to the even one, but for a carried tie, which goes to the other neighbour. It overflows
where the rounded sum is out of range. In place, what is given or reported is what the buffer
holds afterwards. -/
theorem add_of_same_sign (hx : x.isZero = false) (hy : y.isZero = false) (hsign : x.neg = y.neg) :
    x.sub y.negate = x.add y ∧
    (2 ^ 127 ≤ |roundBits p.manBits (x.exact + y.exact)| →
      x.add y = .error (.overflow (.max x.neg))) ∧
    (|roundBits p.manBits (x.exact + y.exact)| < 2 ^ 127 →
      ∃ z, x.add y = .ok z ∧ z.neg = x.neg ∧
        (¬CarriedTie p (x.exponent ⊔ y.exponent : ℕ) |x.exact + y.exact| →
          z.exact = roundBits p.manBits (x.exact + y.exact)) ∧
        (CarriedTie p (x.exponent ⊔ y.exponent : ℕ) |x.exact + y.exact| →
          z.exact = roundBits p.manBits (x.exact + y.exact)
            - signed x.neg (lastPlace p.manBits (x.exact + y.exact)))) ∧
    x.buffer.add y.buffer = (x.add y).settle x.buffer ∧
    x.buffer.sub y.negate.buffer = (x.add y).settle x.buffer := by
  have hplace : x.buffer.sub y.negate.buffer = (x.add y).settle x.buffer := by
    rw [buffer_sub, sub_negate]
  have hplace' := buffer_add x y
  obtain ⟨small, large, hs, hl, hexp, hneg, hneg', hmax, hsum, hadd⟩ := exists_ordered hx hy hsign
  have hv : 0 ≤ x.unpack.magnitude + y.unpack.magnitude := by
    have h1 := (unpack_aligned x).magnitude_pos
    have h2 := (unpack_aligned y).magnitude_pos
    linarith
  obtain ⟨hover, hok⟩ := pack_addOrdered hs hl hexp hneg hsum
  rw [exact_add_exact hx hy hsign, roundBits_signed, abs_signed, abs_signed, abs_of_nonneg hv,
    abs_of_nonneg (roundBits_nonneg hv), lastPlace_signed, ← hmax, ← hneg']
  rw [hadd] at hplace hplace' ⊢
  refine ⟨by rw [sub_negate, hadd], hover, ?_, hplace', hplace⟩
  intro hlt
  obtain ⟨z, hz, hnonzero, hzneg, hnot, htie⟩ := hok hlt
  refine ⟨z, hz, hzneg, ?_, ?_⟩
  · intro h
    rw [exact_eq_signed hnonzero, hzneg, hnot h]
  · intro h
    rw [exact_eq_signed hnonzero, hzneg, htie h, signed_sub]

/-- A tie that is missed: the sum is half a last place and a little more above an even
significand, where it stays. -/
theorem add_of_same_sign_carried_tie :
    let x : Single := ofWord 0x8A7FFFFD
    let y : Single := ofWord 0x81000001
    x.isZero = false ∧ y.isZero = false ∧ x.neg = y.neg ∧
      CarriedTie .single (x.exponent ⊔ y.exponent : ℕ) |x.exact + y.exact| ∧
      ∃ z, x.add y = .ok z ∧
        z.exact = roundBits 24 (x.exact + y.exact) - lastPlace 24 (x.exact + y.exact) := by
  intro x y
  have hx : x.exact = 0xFFFFFD / 2 ^ 14 := by
    norm_num [x, exact, isZero, ofWord, significand, Precision.manBits]
  have hy : y.exact = 0x800001 / 2 ^ 23 := by
    norm_num [y, exact, isZero, ofWord, significand, Precision.manBits]
  have hv : x.exact + y.exact = 0x2007FFA01 / 2 ^ 23 := by
    rw [hx, hy]
    norm_num
  have hlast : lastPlace 24 (0x2007FFA01 / 2 ^ 23) = 1 / 2 ^ 13 := by
    rw [lastPlace_eq (e := 10)] <;> norm_num
  have hfloor : ⌊(0x2007FFA01 / 2 ^ 23 / (1 / 2 ^ 13) : ℚ)⌋ = 0x801FFE := by
    norm_num
  have hfract : Int.fract (0x2007FFA01 / 2 ^ 23 / (1 / 2 ^ 13) : ℚ) = 513 / 1024 := by
    rw [Int.fract, hfloor]
    norm_num
  have htie : CarriedTie .single (x.exponent ⊔ y.exponent : ℕ) |x.exact + y.exact| := by
    rw [hv, abs_of_pos (by norm_num)]
    refine ⟨?_, ?_, ?_, ?_⟩
    · norm_num [x, y, ofWord, Precision.manBits]
    · show Even ⌊_ / lastPlace 24 _⌋
      rw [hlast, hfloor]
      decide
    · show _ < Int.fract (_ / lastPlace 24 _)
      rw [hlast, hfract]
      norm_num
    · show Int.fract (_ / lastPlace 24 _) < _
      rw [hlast, hfract]
      norm_num
  have hround : roundBits 24 (x.exact + y.exact) = 0x801FFF / 2 ^ 13 := by
    rw [hv, roundBits, hlast, nearestInt, hfract, hfloor, if_neg (by norm_num)]
    norm_num
  have hlt : |roundBits 24 (x.exact + y.exact)| < 2 ^ 127 := by
    rw [hround]
    norm_num
  obtain ⟨-, -, hok, -⟩ := add_of_same_sign (x := x) (y := y) rfl rfl rfl
  obtain ⟨z, hz, -, -, hmissed⟩ := hok hlt
  exact ⟨rfl, rfl, rfl, htie, z, hz, hmissed htie⟩

/-- The sum of these two is not the nearest value: the next one is nearer. -/
theorem exists_nearer_than_add :
    let x : Single := ofWord 0x8A7FFFFD
    let y : Single := ofWord 0x81000001
    let z : Single := ofWord 0x8B001FFE
    let w : Single := ofWord 0x8B001FFF
    x.isZero = false ∧ y.isZero = false ∧ x.neg = y.neg ∧ x.add y = .ok z ∧
      |w.exact - (x.exact + y.exact)| < |z.exact - (x.exact + y.exact)| := by
  refine ⟨rfl, rfl, rfl, by decide +kernel, ?_⟩
  norm_num [exact, isZero, ofWord, significand, Precision.manBits]

end Floating

end BasicNumerics
