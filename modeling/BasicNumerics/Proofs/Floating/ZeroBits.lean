/-
The bits behind a zero exponent.

A value whose exponent byte is zero is zero, whatever its sign bit and its fraction
hold, and such values do arise: an underflow keeps its fraction, and turning the sign of
a zero turns its sign bit. Here it is proved which operations look at those bits. The
tool is `cleared`, the value with nothing behind a zero exponent: two values are equal
as numbers when they are one value cleared (`eq_iff_cleared`), and an operation that
factors through `cleared` cannot tell them apart.

All operations pass but one. A quotient by zero takes the sign of its substitute from
the sign bit of the dividend before it asks whether the dividend is zero, so zero over
zero is told by bits that should not count; `respects_eq` says exactly when.
-/
import BasicNumerics.Floating.Convert
import BasicNumerics.Printing.General
import Mathlib.Tactic.Common

set_option autoImplicit false

namespace BasicNumerics

/-! ## Numbers are cleared values -/

namespace Floating

variable {p : Precision} {x x' y y' : Floating p}

/-- The value with nothing behind a zero exponent. -/
def cleared (x : Floating p) : Floating p := if x.isZero then zero else x

theorem cleared_of_isZero (h : x.isZero = true) : x.cleared = zero := by
  rw [cleared, if_pos h]

theorem cleared_of_not_isZero (h : x.isZero = false) : x.cleared = x := by
  rw [cleared, if_neg (by simp [h])]

@[simp] theorem isZero_cleared (x : Floating p) : x.cleared.isZero = x.isZero := by
  by_cases h : x.isZero = true
  · rw [cleared_of_isZero h, h, isZero_zero]
  · rw [cleared_of_not_isZero (by simpa using h)]

/-- **Equality as numbers is equality of the cleared values.** -/
theorem eq_iff_cleared : x.eq y = true ↔ x.cleared = y.cleared := by
  by_cases hxy : x.isZero = y.isZero
  · by_cases hx : x.isZero = true
    · have hy : y.isZero = true := hxy ▸ hx
      simp [eq, hx, hy, cleared_of_isZero]
    · rw [Bool.not_eq_true] at hx
      have hy : y.isZero = false := hxy ▸ hx
      simp [eq, hx, hy, cleared_of_not_isZero]
  · -- one is zero and the other is not
    have hne : x.cleared ≠ y.cleared := by
      intro h
      have hz := congrArg isZero h
      rw [isZero_cleared, isZero_cleared] at hz
      exact hxy hz
    have heq : x.eq y = false := by
      by_cases hx : x.isZero = true <;> by_cases hy : y.isZero = true <;> simp_all [eq]
    simp [hne, heq]

@[simp] theorem eq_self (x : Floating p) : x.eq x = true := eq_iff_cleared.mpr rfl

theorem isZero_congr (h : x.eq x' = true) : x.isZero = x'.isZero := by
  rw [← isZero_cleared x, eq_iff_cleared.mp h, isZero_cleared]

/-- Values that are equal as numbers and not zero are one value. -/
theorem eq_of_not_isZero (h : x.eq x' = true) (hx : x.isZero = false) : x = x' := by
  have hx' : x'.isZero = false := by rw [← isZero_congr h, hx]
  rw [eq_iff_cleared, cleared_of_not_isZero hx, cleared_of_not_isZero hx'] at h
  exact h

/-- What makes no difference between zeros does not look behind a zero exponent. -/
theorem apply_cleared {α : Type} {f : Floating p → α}
    (hf : ∀ z : Floating p, z.isZero = true → f z = f zero) (x : Floating p) :
    f x.cleared = f x := by
  by_cases hx : x.isZero = true
  · rw [cleared_of_isZero hx, hf x hx]
  · rw [cleared_of_not_isZero (by simpa using hx)]

end Floating

/-! ## Sums and products -/

namespace Scratch

variable {p : Precision} {l l' r r' : Scratch p}

theorem pack_of_vanishes (h : l.vanishes = true) : l.pack = .ok .zero := by
  simp [pack, overflows, saturate, h]

theorem pack_of_exp_eq_zero (h : l.exp = 0) : l.pack = .ok .zero :=
  pack_of_vanishes (by simp [vanishes, h])

/-- A sum does not look at a working value of exponent zero, and stores one as zero. -/
theorem pack_add_congr (hl : l = l' ∨ l.exp = 0 ∧ l'.exp = 0)
    (hr : r = r' ∨ r.exp = 0 ∧ r'.exp = 0) : (l.add r).pack = (l'.add r').pack := by
  have hleft : ∀ s : Scratch p, (l.add s).pack = (l'.add s).pack := by
    intro s
    rcases hl with rfl | ⟨hl, hl'⟩
    · rfl
    -- with both zero the left one is stored, and what has exponent zero vanishes
    by_cases hs : s.exp = 0
    · simp only [add, if_pos hs, pack_of_exp_eq_zero hl, pack_of_exp_eq_zero hl']
    · simp only [add, if_neg hs, if_pos hl, if_pos hl']
  rw [hleft]
  rcases hr with rfl | ⟨hr, hr'⟩
  · rfl
  · simp only [add, if_pos hr, if_pos hr']

end Scratch

namespace Floating

variable {p : Precision} {x x' y y' : Floating p}

theorem unpack_cleared (x : Floating p) :
    x.cleared.unpack = x.unpack ∨ x.cleared.unpack.exp = 0 ∧ x.unpack.exp = 0 := by
  by_cases h : x.isZero = true
  · right
    have hexp : x.exponent = 0 := by simpa [isZero] using h
    rw [cleared_of_isZero h]
    exact ⟨rfl, by simp [unpack, hexp]⟩
  · left
    rw [cleared_of_not_isZero (by simpa using h)]

theorem add_cleared (x y : Floating p) : x.cleared.add y.cleared = x.add y :=
  Scratch.pack_add_congr (unpack_cleared x) (unpack_cleared y)

theorem sub_cleared (x y : Floating p) : x.cleared.sub y.cleared = x.sub y := by
  refine Scratch.pack_add_congr (unpack_cleared x) ?_
  rcases unpack_cleared y with h | h
  · exact Or.inl (by rw [h])
  · exact Or.inr h

theorem mul_of_isZero_right (x : Floating p) (h : y.isZero = true) : x.mul y = .ok zero := by
  rw [mul, if_pos (by simp [h])]

theorem mul_cleared (x y : Floating p) : x.cleared.mul y.cleared = x.mul y := by
  unfold mul
  rw [isZero_cleared, isZero_cleared]
  by_cases h : (x.isZero || y.isZero) = true
  · rw [if_pos h, if_pos h]
  · rw [if_neg h, if_neg h]
    rw [Bool.not_eq_true, Bool.or_eq_false_iff] at h
    rw [cleared_of_not_isZero h.1, cleared_of_not_isZero h.2]

/-! ## Powers -/

/-- A power of zero multiplies by zero at its highest bit, if it has one. -/
theorem powAux_of_isZero (acc : Floating p) (hy : y.isZero = true) {n : Nat} (hn : n ≠ 0) :
    powAux acc y n = .ok zero := by
  -- on the bits of the exponent; the base stays zero when it is squared
  induction n using Nat.strongRecOn generalizing acc y with
  | ind n ih =>
    have hhalf : ∀ acc : Floating p,
        (if n / 2 = 0 then .ok acc else do
          let base ← y.mul y
          powAux acc base (n / 2)) =
        if n / 2 = 0 then (.ok acc : Outcome (Floating p) (Floating p)) else .ok zero := by
      intro acc
      by_cases h : n / 2 = 0
      · rw [if_pos h, if_pos h]
      · rw [if_neg h, if_neg h, mul_of_isZero_right y hy]
        exact ih (n / 2) (by omega) acc isZero_zero h
    rw [powAux, if_neg hn]
    by_cases hodd : n % 2 = 1
    · rw [if_pos hodd, mul_of_isZero_right acc hy]
      refine (hhalf zero).trans ?_
      rw [ite_self]
    · rw [if_neg hodd]
      refine (hhalf acc).trans ?_
      rw [if_neg (by omega)]

theorem powNat_of_isZero (hx : x.isZero = true) (n : Nat) :
    x.powNat n = .ok (if n = 0 then one else zero) := by
  unfold powNat
  by_cases hn : n = 0
  · rw [if_pos hn, powAux, if_pos hn]
  · rw [if_neg hn, powAux_of_isZero one hx hn]

/-- The sign bit of the base is looked at after an overflow only, and no power of zero
overflows. -/
theorem pow_cleared (x : Floating p) (n : Int) : x.cleared.pow n = x.pow n := by
  refine apply_cleared (f := fun z => z.pow n) ?_ x
  intro z hz
  simp only [pow, powNat_of_isZero hz, powNat_of_isZero isZero_zero]

/-! ## Conversions and texts -/

theorem convert_cleared (q : Precision) (x : Floating p) : x.cleared.convert q = x.convert q := by
  refine apply_cleared (f := fun z => z.convert q) ?_ x
  intro z hz
  simp only [convert, hz, isZero_zero, if_true]

theorem toInt?_cleared (x : Floating p) : x.cleared.toInt? = x.toInt? := by
  refine apply_cleared (f := toInt?) ?_ x
  intro z hz
  simp only [toInt?, hz, isZero_zero, if_true]

theorem toDecimal_cleared (x : Floating p) (digits : Option Nat) :
    x.cleared.toDecimal digits = x.toDecimal digits := by
  refine apply_cleared (f := fun z => z.toDecimal digits) ?_ x
  intro z hz
  simp only [toDecimal, hz, isZero_zero, if_true]

theorem text_cleared (style : Style) (x : Floating p) : x.cleared.text style = x.text style := by
  unfold text
  rw [toDecimal_cleared]

/-! ## Order -/

theorem sign_cleared (x : Floating p) : x.cleared.sign = x.sign := by
  refine apply_cleared (f := sign) ?_ x
  intro z hz
  simp only [sign, hz, isZero_zero, if_true]

theorem sign_eq_zero_iff : x.sign = 0 ↔ x.isZero = true := by
  unfold sign
  by_cases hx : x.isZero = true
  · simp [hx]
  · rw [if_neg hx]
    by_cases hn : x.neg = true <;> simp [hn, hx]

/-- Magnitudes are compared only between values of one sign, none of which is zero. -/
theorem gt_cleared (x y : Floating p) : x.cleared.gt y.cleared = x.gt y := by
  unfold gt
  rw [sign_cleared, sign_cleared]
  by_cases hs : x.sign = y.sign
  · by_cases h0 : x.sign = 0
    · simp [← hs, h0]
    · have hx : x.isZero = false := by simpa [sign_eq_zero_iff] using h0
      have hy : y.isZero = false := by simpa [hs, sign_eq_zero_iff] using h0
      rw [cleared_of_not_isZero hx, cleared_of_not_isZero hy]
  · rw [if_pos hs, if_pos hs]

/-! ## Whole parts -/

theorem withWhole_of_isZero (choose : SplitMagnitude → Nat) (hx : x.isZero = true) :
    x.withWhole choose = x := by
  rw [withWhole, if_pos hx]

/-- What leaves zeros as they are keeps values equal, whatever else it does. -/
theorem eq_map_of_zeros_fixed {f : Floating p → Floating p}
    (hf : ∀ z : Floating p, z.isZero = true → f z = z) (h : x.eq x' = true) :
    (f x).eq (f x') = true := by
  by_cases hx : x.isZero = true
  · rw [hf x hx, hf x' (by rw [← isZero_congr h, hx])]
    exact h
  · rw [eq_of_not_isZero h (by simpa using hx)]
    exact eq_self _

/-! ## Quotients, and all operations together -/

/-- Outcomes that are the same as numbers: equal results, or one failure with equal
substitutes. -/
def sameOutcome : Outcome (Floating p) (Floating p) → Outcome (Floating p) (Floating p) → Bool
  | .ok x, .ok y => x.eq y
  | .error (.overflow x), .error (.overflow y) => x.eq y
  | .error (.divisionByZero x), .error (.divisionByZero y) => x.eq y
  | .error (.fault f), .error (.fault g) => f = g
  | _, _ => false

theorem sameOutcome_of_eq {o o' : Outcome (Floating p) (Floating p)} (h : o = o') :
    sameOutcome o o' = true := by
  subst h
  rcases o with (_ | _ | _) | _ <;> simp [sameOutcome]

theorem eq_max_max (b c : Bool) : (max b : Floating p).eq (max c) = decide (b = c) := by
  rcases b with _ | _ <;> rcases c with _ | _ <;> simp [eq, isZero, max]

/-- **Zero over zero looks behind the exponent of the dividend**, and no other quotient
does. -/
theorem sameOutcome_div_iff (hx : x.eq x' = true) (hy : y.eq y' = true) :
    sameOutcome (x.div y) (x'.div y') = true ↔
      ¬(x.isZero = true ∧ y.isZero = true ∧ x.neg ≠ x'.neg) := by
  by_cases hy0 : y.isZero = true
  · -- both fail, and the substitutes have the sign bits of the dividends
    have hy0' : y'.isZero = true := by rw [← isZero_congr hy, hy0]
    have hsame : sameOutcome (x.div y) (x'.div y') = decide (x.neg = x'.neg) := by
      rw [div, div, if_pos hy0, if_pos hy0']
      exact eq_max_max x.neg x'.neg
    rw [hsame, decide_eq_true_eq]
    by_cases hx0 : x.isZero = true
    · simp [hx0, hy0]
    · have hxx := eq_of_not_isZero hx (by simpa using hx0)
      simp [hxx]
  · have hyy := eq_of_not_isZero hy (by simpa using hy0)
    refine iff_of_true ?_ (fun h => hy0 h.2.1)
    rw [← hyy]
    by_cases hx0 : x.isZero = true
    · have hx0' : x'.isZero = true := by rw [← isZero_congr hx, hx0]
      rw [div, div, if_neg hy0, if_neg hy0, if_pos hx0, if_pos hx0']
      exact hx
    · rw [eq_of_not_isZero hx (by simpa using hx0)]
      exact sameOutcome_of_eq rfl

/-- **Equal values are interchangeable, but for zero over zero.** Operands that are equal
as numbers give outcomes that are the same as numbers, in every operation: sums,
differences, products, whole powers, whole parts, conversions, texts and comparisons. A
quotient has this property too unless both operands are zero and the two dividends
differ in the sign bit; then, and only then, the substitutes differ. -/
theorem respects_eq (hx : x.eq x' = true) (hy : y.eq y' = true) :
    sameOutcome (x.add y) (x'.add y') = true ∧ sameOutcome (x.sub y) (x'.sub y') = true ∧
      sameOutcome (x.mul y) (x'.mul y') = true ∧
      (∀ n : Int, sameOutcome (x.pow n) (x'.pow n) = true) ∧
      x.trunc.eq x'.trunc = true ∧ x.floor.eq x'.floor = true ∧
      x.roundWhole.eq x'.roundWhole = true ∧
      (∀ q, sameOutcome (x.convert q) (x'.convert q) = true) ∧ x.toInt? = x'.toInt? ∧
      (∀ digits, x.toDecimal digits = x'.toDecimal digits) ∧
      (∀ style, x.text style = x'.text style) ∧ x.gt y = x'.gt y' ∧ x.eq y = x'.eq y' ∧
      (sameOutcome (x.div y) (x'.div y') = true ↔
        ¬(x.isZero = true ∧ y.isZero = true ∧ x.neg ≠ x'.neg)) := by
  -- each operation goes through the cleared operands, which are the same
  have hcx : x.cleared = x'.cleared := eq_iff_cleared.mp hx
  have hcy : y.cleared = y'.cleared := eq_iff_cleared.mp hy
  refine ⟨sameOutcome_of_eq ?_, sameOutcome_of_eq ?_, sameOutcome_of_eq ?_,
    fun n => sameOutcome_of_eq ?_, ?_, ?_, ?_, fun q => sameOutcome_of_eq ?_, ?_,
    fun digits => ?_, fun style => ?_, ?_, ?_, sameOutcome_div_iff hx hy⟩
  · rw [← add_cleared, hcx, hcy, add_cleared]
  · rw [← sub_cleared, hcx, hcy, sub_cleared]
  · rw [← mul_cleared, hcx, hcy, mul_cleared]
  · rw [← pow_cleared, hcx, pow_cleared]
  · exact eq_map_of_zeros_fixed (fun z hz => withWhole_of_isZero _ hz) hx
  · exact eq_map_of_zeros_fixed (fun z hz => withWhole_of_isZero _ hz) hx
  · exact eq_map_of_zeros_fixed (fun z hz => withWhole_of_isZero _ hz) hx
  · rw [← convert_cleared, hcx, convert_cleared]
  · rw [← toInt?_cleared, hcx, toInt?_cleared]
  · rw [← toDecimal_cleared, hcx, toDecimal_cleared]
  · rw [← text_cleared, hcx, text_cleared]
  · rw [← gt_cleared, hcx, hcy, gt_cleared]
  · rw [Bool.eq_iff_iff, eq_iff_cleared, eq_iff_cleared, hcx, hcy]

/-- A zero with its sign bit set, and every other bit below the exponent, is the clear
zero to a quotient by one and to a power. -/
theorem respects_eq_full_zero :
    (ofWord 0xFFFFFF : Single).eq zero = true ∧ (one : Single).eq one = true ∧
      sameOutcome ((ofWord 0xFFFFFF : Single).pow (-1)) (zero.pow (-1)) = true ∧
      sameOutcome ((ofWord 0xFFFFFF : Single).div one) (zero.div one) = true := by
  have hx : (ofWord 0xFFFFFF : Single).eq zero = true := by decide
  have hy : (one : Single).eq one = true := eq_self one
  obtain ⟨-, -, -, hpow, -, -, -, -, -, -, -, -, -, hdiv⟩ := respects_eq hx hy
  exact ⟨hx, hy, hpow (-1), hdiv.mpr (by decide +kernel)⟩

/-- Two zeros, equal as numbers, whose quotients by zero are not. -/
theorem zero_div_zero_reads_sign_bit :
    (zero : Single).eq (ofWord 0x800000) = true ∧
      (zero : Single).div zero = .error (.divisionByZero (max false)) ∧
      (ofWord 0x800000 : Single).div zero = .error (.divisionByZero (max true)) ∧
      sameOutcome ((zero : Single).div zero) ((ofWord 0x800000).div zero) = false := by
  decide +kernel

end Floating

end BasicNumerics
