/-
Cuts that leave a mark.

Where a number is cut to the working width, its whole part is kept, and of what was below it
at most a mark: the whole part goes up by one if anything was there and the whole part is
one that asks for it. Moving bits out on the right asks at even numbers, so that the lowest
bit is set; a quotient asks where the guard byte is a tie; a product never asks. `marked`
says this of a rational, and `CutOf` of a working value.

No more than that is needed to see that a cut keeps the order, whichever numbers ask for the
mark (`CutOf.mono`), and that it misses by less than one unit. If it is the ties that ask,
rounding the guard byte away afterwards is rounding the number itself (`CutOf.roundBits_eq`).
-/
import BasicNumerics.Proofs.Floating.Scaling
import BasicNumerics.Proofs.Floating.Sum
import Mathlib.Algebra.Order.Floor.Semifield

set_option autoImplicit false

namespace BasicNumerics

namespace Rounding

variable {mark : ℕ → Prop} [DecidablePred mark] {s t : ℚ}

/-- The whole part of `t`, and one more where something is below it and `mark` asks for it. -/
def marked (mark : ℕ → Prop) [DecidablePred mark] (t : ℚ) : ℕ :=
  if mark ⌊t⌋₊ ∧ (⌊t⌋₊ : ℚ) < t then ⌊t⌋₊ + 1 else ⌊t⌋₊

/-- A guard byte of `80`. -/
def IsTie (n : ℕ) : Prop := n % 256 = 128

instance : DecidablePred IsTie := fun n => inferInstanceAs (Decidable (n % 256 = 128))

theorem floor_le_marked (mark : ℕ → Prop) [DecidablePred mark] (t : ℚ) :
    ⌊t⌋₊ ≤ marked mark t ∧ marked mark t ≤ ⌊t⌋₊ + 1 := by
  unfold marked
  split <;> omega

@[simp] theorem marked_natCast (n : ℕ) : marked mark (n : ℚ) = n := by
  rw [marked, Nat.floor_natCast, if_neg]
  exact fun h => lt_irrefl _ h.2

/-- **A marked cut keeps the order,** whatever the mark is asked for by. -/
theorem marked_mono (h : s ≤ t) : marked mark s ≤ marked mark t := by
  have hs := floor_le_marked mark s
  have ht := floor_le_marked mark t
  rcases Nat.lt_or_eq_of_le (Nat.floor_mono h) with hlt | heq
  · omega
  · -- with equal whole parts, what is below the one is below the other
    unfold marked
    rw [heq]
    by_cases hup : mark ⌊t⌋₊ ∧ (⌊t⌋₊ : ℚ) < s
    · rw [if_pos hup, if_pos ⟨hup.1, hup.2.trans_le h⟩]
    · rw [if_neg hup]
      exact ht.1

theorem abs_marked_sub_lt (ht : 0 ≤ t) : |(marked mark t : ℚ) - t| < 1 := by
  have hfloor := Nat.floor_le ht
  have hnext := Nat.lt_floor_add_one t
  unfold marked
  split
  · next h =>
    push_cast
    rw [abs_lt]
    constructor <;> linarith [h.2]
  · rw [abs_lt]
    constructor <;> linarith

/-- A cut of a quotient, by quotient and remainder. -/
theorem marked_div (n : ℕ) {m : ℕ} (hm : 0 < m) :
    marked mark ((n : ℚ) / m) = if mark (n / m) ∧ n % m ≠ 0 then n / m + 1 else n / m := by
  have hrest : ((n / m : ℕ) : ℚ) < (n : ℚ) / m ↔ n % m ≠ 0 := by
    rw [lt_div_iff₀ (by exact_mod_cast hm), ← Nat.cast_mul, Nat.cast_lt]
    have := Nat.div_add_mod' n m
    omega
  simp only [marked, Nat.floor_div_eq_div, hrest]

end Rounding

open Rounding

namespace Scratch

variable {p : Precision} {mark : ℕ → Prop} [DecidablePred mark] {v w : ℚ} {d e l r : Scratch p}

/-- `d` is the number `v` cut to the working width. -/
structure CutOf (mark : ℕ → Prop) [DecidablePred mark] (v : ℚ) (d : Scratch p) : Prop where
  le : 2 ^ (p.width - 1) * d.unit ≤ v
  man_eq : d.man = marked mark (v / d.unit)
  man_lt : d.man < 2 ^ p.width

namespace CutOf

theorem le_div (h : CutOf mark v d) : 2 ^ (p.width - 1) ≤ v / d.unit :=
  (le_div_iff₀ d.unit_pos).mpr h.le

theorem div_unit_nonneg (h : CutOf mark v d) : 0 ≤ v / d.unit :=
  (by positivity : (0 : ℚ) ≤ 2 ^ (p.width - 1)).trans h.le_div

theorem le_floor (h : CutOf mark v d) : 2 ^ (p.width - 1) ≤ ⌊v / d.unit⌋₊ :=
  Nat.le_floor (by exact_mod_cast h.le_div)

theorem floor_lt (h : CutOf mark v d) : ⌊v / d.unit⌋₊ < 2 ^ p.width := by
  have hle := (floor_le_marked mark (v / d.unit)).1
  rw [← h.man_eq] at hle
  exact hle.trans_lt h.man_lt

theorem div_lt (h : CutOf mark v d) : v / d.unit < 2 ^ p.width := by
  exact_mod_cast (Nat.floor_lt' (by positivity)).mp h.floor_lt

theorem aligned (h : CutOf mark v d) : d.Aligned := by
  refine ⟨?_, h.man_lt⟩
  rw [h.man_eq]
  exact h.le_floor.trans (floor_le_marked mark _).1

theorem div_mul_unit (v : ℚ) (d : Scratch p) : v / d.unit * d.unit = v :=
  div_mul_cancel₀ v d.unit_pos.ne'

/-- The exponent of a cut tells the leading bit of what was cut. -/
theorem two_zpow_le_iff (h : CutOf mark v d) (a : ℤ) : 2 ^ a ≤ v ↔ a + 129 ≤ d.exp := by
  have hiff := two_zpow_le_mul_iff h.le_div h.div_lt a d.exp
  rwa [← unit, div_mul_unit] at hiff

/-- What is too small before it is cut is stored as the clear zero. -/
theorem pack_of_lt (h : CutOf mark v d) (hv : v < 2 ^ (-128 : ℤ)) : d.pack = .ok .zero := by
  have hexp : ¬0 < d.exp := by
    intro hpos
    have hle := (h.two_zpow_le_iff (-128)).mpr (by omega)
    linarith
  apply pack_of_vanishes
  simp only [vanishes, Bool.or_eq_true, decide_eq_true_eq]
  exact Or.inr (not_lt.mp hexp)

theorem exp_pos (h : CutOf mark v d) (hv : 2 ^ (-128 : ℤ) ≤ v) : 0 < d.exp := by
  have hexp := (h.two_zpow_le_iff (-128)).mp hv
  omega

/-- **A cut misses by less than one unit.** -/
theorem abs_sub_lt (h : CutOf mark v d) : |d.magnitude - v| < d.unit := by
  have hlt : |(marked mark (v / d.unit) : ℚ) - v / d.unit| < 1 := abs_marked_sub_lt h.div_unit_nonneg
  rw [← h.man_eq] at hlt
  calc |d.magnitude - v| = |(d.man : ℚ) - v / d.unit| * d.unit := by
        rw [← abs_of_pos d.unit_pos, ← abs_mul, abs_of_pos d.unit_pos, sub_mul, div_mul_unit,
          magnitude]
    _ < d.unit := mul_lt_of_lt_one_left d.unit_pos hlt

/-- **Cuts keep the order.** -/
theorem mono (hd : CutOf mark v d) (he : CutOf mark w e) (h : v ≤ w) :
    d.magnitude ≤ e.magnitude := by
  rcases lt_trichotomy d.exp e.exp with hlt | heq | hgt
  · exact (hd.aligned.magnitude_lt_of_exp_lt he.aligned hlt).le
  · have hunit : d.unit = e.unit := by rw [unit, unit, heq]
    rw [magnitude, magnitude, hunit, hd.man_eq, he.man_eq, hunit]
    have hcut : marked mark (v / e.unit) ≤ marked mark (w / e.unit) :=
      marked_mono (div_le_div_of_nonneg_right h e.unit_pos.le)
    exact mul_le_mul_of_nonneg_right (by exact_mod_cast hcut) e.unit_pos.le
  · -- a number with a higher leading bit is not the smaller one
    have hlead := (hd.two_zpow_le_iff (d.exp - 129)).mpr (by omega)
    have hreach := (he.two_zpow_le_iff (d.exp - 129)).mp (hlead.trans h)
    omega

/-- What is below the whole part: nothing, or less than one. -/
theorem rest_mem (h : CutOf mark v d) :
    0 ≤ v / d.unit - ⌊v / d.unit⌋₊ ∧ v / d.unit - ⌊v / d.unit⌋₊ < 1 := by
  have hle := Nat.floor_le h.div_unit_nonneg
  have hlt := Nat.lt_floor_add_one (v / d.unit)
  constructor <;> linarith

theorem man_eq_joinMan (h : CutOf IsTie v d) :
    d.man = joinMan 0 ⌊v / d.unit⌋₊ (decide (v / d.unit - ⌊v / d.unit⌋₊ ≠ 0)) := by
  have hrest : (⌊v / d.unit⌋₊ : ℚ) < v / d.unit ↔ v / d.unit - ⌊v / d.unit⌋₊ ≠ 0 := by
    rw [← sub_pos, h.rest_mem.1.lt_iff_ne']
  rw [h.man_eq, marked, joinMan]
  simp only [hrest, IsTie, Bool.and_eq_true, decide_eq_true_eq, beq_iff_eq, Nat.zero_add, and_comm]

/-- **If ties are marked, nothing is lost for rounding:** the guard byte of the cut decides as
the number does. -/
theorem roundBits_eq (h : CutOf IsTie v d) :
    roundBits p.manBits d.magnitude = roundBits p.manBits v := by
  have hb := manBits_pos p
  have ha := h.aligned
  obtain ⟨h0, h1⟩ := h.rest_mem
  have hman := h.man_eq_joinMan
  have hlo : 2 ^ (p.manBits - 1 + 8) ≤ ⌊v / d.unit⌋₊ := by
    rw [show p.manBits - 1 + 8 = p.width - 1 by rw [Precision.width]; omega]
    exact h.le_floor
  have hhi : ⌊v / d.unit⌋₊ < 2 ^ (p.manBits + 8) := h.floor_lt
  have hv : v = ((⌊v / d.unit⌋₊ : ℚ) + (v / d.unit - ⌊v / d.unit⌋₊)) * 2 ^ (d.exp - unitExp p) := by
    rw [add_sub_cancel, ← unit, div_mul_unit]
  generalize ⌊v / d.unit⌋₊ = n at *
  generalize v / d.unit - n = rest at *
  have hjoined := nearestInt_joined (s := 0) (m := n) h0 h1 (decide_eq_true_iff (p := rest ≠ 0))
  rw [Nat.zero_add, ← hman] at hjoined
  rw [roundBits_magnitude ha.man_ne_zero, ha.align_eq, hv,
    (roundBits_of_bits h0 h1 hb hlo hhi _).2, hjoined, unit]
  push_cast
  ring

end CutOf

/-- A value that fills the width is its own cut. -/
theorem Aligned.cutOf (h : d.Aligned) : CutOf mark d.magnitude d := by
  have hdiv : d.magnitude / d.unit = d.man := mul_div_cancel_right₀ _ d.unit_pos.ne'
  refine ⟨h.le_magnitude, ?_, h.man_lt⟩
  rw [hdiv, marked_natCast]

/-- **Aligning is a cut** that marks the lowest bit. -/
theorem cutOf_align (h : d.man ≠ 0) : CutOf Even d.magnitude d.align := by
  have ha := align_aligned h
  rcases Nat.le_total (bitLength d.man) p.width with hle | hge
  · have hcut : CutOf Even d.align.magnitude d.align := ha.cutOf
    rwa [magnitude_align_of_le hle] at hcut
  · set k := bitLength d.man - p.width with hk
    have hunit : d.align.unit = 2 ^ k * d.unit := by
      rw [unit, unit, ← two_zpow_add, align_exp h]
      congr 2
      omega
    have hdiv : d.magnitude / d.align.unit = (d.man : ℚ) / (2 ^ k : ℕ) := by
      rw [hunit, magnitude, mul_div_mul_right _ _ d.unit_pos.ne']
      push_cast
      rfl
    refine ⟨?_, ?_, ha.man_lt⟩
    · rw [← le_div_iff₀ d.align.unit_pos, hdiv, le_div_iff₀ (by positivity)]
      have hbits := two_pow_le_of_pos (Nat.pos_of_ne_zero h)
      rw [show bitLength d.man - 1 = p.width - 1 + k by have := p.width_pos; omega,
        Nat.pow_add] at hbits
      exact_mod_cast hbits
    · rw [hdiv, marked_div _ (Nat.two_pow_pos k), align_man_of_ge hge, sticky]
      simp only [Nat.even_iff, and_comm]
      split <;> rfl

/-- **A quotient is a cut** of the exact quotient that marks ties. -/
theorem cutOf_div (hl : l.Aligned) (hr : r.Aligned) :
    CutOf IsTie (l.magnitude / r.magnitude) (div l r) := by
  have hr0 : 0 < r.man := Nat.pos_of_ne_zero hr.man_ne_zero
  have hexact := magnitude_div_magnitude (l := l) hr
  have hbits := (quotient_mem hl hr).1
  refine ⟨?_, ?_, (div_spec hl hr).1.man_lt⟩
  · rw [hexact]
    apply mul_le_mul_of_nonneg_right _ (unit_pos _).le
    rw [Nat.le_div_iff_mul_le hr0] at hbits
    rw [le_div_iff₀ (by exact_mod_cast hr0)]
    exact_mod_cast hbits
  · rw [hexact, mul_div_cancel_right₀ _ (unit_pos _).ne', marked_div _ hr0]
    simp only [div, IsTie, and_comm]

end Scratch

end BasicNumerics
