/-
Products.

The significands of two values have a product of twice the width, or of one bit less. It is
cut to the width without a mark, so what is rounded afterwards is not the product itself but
its leading bits (`cutBits`), and a tie may be one only because of the cut. That costs at most
the part of the last place that the guard byte tells apart (`mul_of_nonzero`).

A product whose low nibble is nine loses the lowest bit before it is rounded. The product fills
the width by then, so the nibble lies inside the guard byte, below the bit that makes a tie:
nine and eight are on the same side of it, and what is stored is the same (`pack_mul`).
-/
import BasicNumerics.Proofs.Floating.Cut

set_option autoImplicit false

namespace BasicNumerics

namespace Rounding

/-- `v` cut to its `bits` leading bits. -/
def cutBits (bits : ℕ) (v : ℚ) : ℚ := ⌊v / lastPlace bits v⌋ * lastPlace bits v

/-- A guard byte that ends in nine rounds as the one before it. -/
theorem nearestEven_of_nine {m : ℕ} (h : m % 16 = 9) : nearestEven (m - 1) 8 = nearestEven m 8 := by
  unfold nearestEven
  have hquot : (m - 1) / 2 ^ 8 = m / 2 ^ 8 := by omega
  rw [hquot]
  split_ifs <;> omega

end Rounding

open Rounding

namespace Scratch

variable {p : Precision} {d e l r : Scratch p} {v : ℚ}

/-! ## The cut -/

/-- The product cut to the working width, as it stands. -/
def cutProduct (l r : Scratch p) : Scratch p :=
  let cut := bitLength (l.man * r.man) - p.width
  { exp := l.exp + r.exp - unitExp p + cut
    man := l.man * r.man / 2 ^ cut
    neg := l.neg != r.neg }

/-- A product of significands has at least the bits of the width. -/
theorem width_le_bitLength_mul (hl : l.Aligned) (hr : r.Aligned) :
    p.width ≤ bitLength (l.man * r.man) := by
  have hr0 : 0 < r.man := Nat.pos_of_ne_zero hr.man_ne_zero
  have hlong : 2 ^ (p.width - 1) ≤ l.man * r.man := hl.le_man.trans (Nat.le_mul_of_pos_right _ hr0)
  have := lt_bitLength hlong
  omega

theorem magnitude_mul_magnitude (l r : Scratch p) :
    l.magnitude * r.magnitude
      = (l.man * r.man : ℕ) / (2 ^ (bitLength (l.man * r.man) - p.width) : ℕ)
        * (cutProduct l r).unit := by
  have hunit : (cutProduct l r).unit
      = 2 ^ (bitLength (l.man * r.man) - p.width) * (l.unit * r.unit) := by
    show (2 : ℚ) ^ (l.exp + r.exp - unitExp p + _ - unitExp p) = _
    rw [two_zpow_add, unit, unit, ← zpow_add₀ two_ne_zero]
    congr 2
    ring
  rw [hunit, magnitude, magnitude]
  push_cast
  field_simp

/-- **A product is cut without a mark.** -/
theorem cutOf_cutProduct (hl : l.Aligned) (hr : r.Aligned) :
    CutOf (fun _ => False) (l.magnitude * r.magnitude) (cutProduct l r) := by
  have hlong := width_le_bitLength_mul hl hr
  have hw := p.width_pos
  have hne : l.man * r.man ≠ 0 := Nat.mul_ne_zero hl.man_ne_zero hr.man_ne_zero
  have hexact := magnitude_mul_magnitude l r
  set cut := bitLength (l.man * r.man) - p.width with hcut
  have hlo : 2 ^ (p.width - 1) * 2 ^ cut ≤ l.man * r.man := by
    rw [← Nat.pow_add, show p.width - 1 + cut = bitLength (l.man * r.man) - 1 by omega]
    exact two_pow_le_of_pos (Nat.pos_of_ne_zero hne)
  have hhi : l.man * r.man < 2 ^ p.width * 2 ^ cut := by
    rw [← Nat.pow_add, show p.width + cut = bitLength (l.man * r.man) by omega]
    exact lt_two_pow_bitLength _
  refine ⟨?_, ?_, ?_⟩
  · rw [hexact]
    apply mul_le_mul_of_nonneg_right _ (unit_pos _).le
    rw [le_div_iff₀ (by positivity)]
    exact_mod_cast hlo
  · rw [hexact, mul_div_cancel_right₀ _ (unit_pos _).ne', marked_div _ (Nat.two_pow_pos cut),
      if_neg (fun h => h.1)]
    rfl
  · show l.man * r.man / 2 ^ cut < 2 ^ p.width
    rwa [Nat.div_lt_iff_lt_mul (Nat.two_pow_pos cut)]

/-- The unit of a cut is the last place of as many bits as the width has. -/
theorem CutOf.lastPlace_eq {mark : ℕ → Prop} [DecidablePred mark] (h : CutOf mark v d) :
    lastPlace p.width v = d.unit := by
  have hlead := (h.two_zpow_le_iff (d.exp - 129)).mpr (by omega)
  have hpos : 0 < v := lt_of_lt_of_le (by positivity) hlead
  have hnext : v < 2 ^ (d.exp - 129 + 1) := by
    rw [← not_le, h.two_zpow_le_iff]
    omega
  rw [Rounding.lastPlace_eq (by rwa [abs_of_pos hpos]) (by rwa [abs_of_pos hpos]), unit, unitExp_eq]
  congr 1
  ring

/-- The last place of the significand is 256 units, the guard byte. -/
theorem Aligned.lastPlace_magnitude (h : d.Aligned) :
    lastPlace p.manBits d.magnitude = 256 * d.unit := by
  have hself : CutOf Even d.magnitude d := h.cutOf
  rw [← hself.lastPlace_eq, lastPlace, lastPlace, show Int.log 2 |d.magnitude| + 1 - (p.manBits : ℤ)
    = 8 + (Int.log 2 |d.magnitude| + 1 - (p.width : ℕ)) by rw [Precision.width]; push_cast; ring,
    zpow_add₀ two_ne_zero]
  norm_num

/-- **Rounding and the cut together** miss by little more than half of the last place. -/
theorem CutOf.abs_roundBits_sub_lt {mark : ℕ → Prop} [DecidablePred mark] (h : CutOf mark v d) :
    |roundBits p.manBits d.magnitude - v|
      < (1 / 2 + 1 / 256) * lastPlace p.manBits d.magnitude := by
  have hplace := h.aligned.lastPlace_magnitude
  have hround := abs_roundBits_sub_le_half p.manBits d.magnitude
  have hmiss := h.abs_sub_lt
  calc |roundBits p.manBits d.magnitude - v|
      ≤ |roundBits p.manBits d.magnitude - d.magnitude| + |d.magnitude - v| := abs_sub_le _ _ _
    _ < (1 / 2 + 1 / 256) * lastPlace p.manBits d.magnitude := by linarith

/-- **What is stored for a number in range that was cut:** the cut rounded, with the sign, and
near the number itself. -/
theorem CutOf.exists_pack_eq_ok {mark : ℕ → Prop} [DecidablePred mark] (h : CutOf mark v d)
    (hlo : 2 ^ (-128 : ℤ) ≤ v) (hhi : roundBits p.manBits d.magnitude < 2 ^ 127) :
    ∃ z, d.pack = .ok z ∧ z.isZero = false ∧
      z.exact = signed d.neg (roundBits p.manBits d.magnitude) ∧
      |z.exact - signed d.neg v| < (1 / 2 + 1 / 256) * 2 ^ ((z.exponent : ℤ) - 128 - p.manBits) := by
  obtain ⟨z, hz, hnonzero, hneg, hmag, hplace⟩ := h.aligned.exists_pack_eq_ok (h.exp_pos hlo) hhi
  have hexact : z.exact = signed d.neg (roundBits p.manBits d.magnitude) := by
    rw [Floating.exact_eq_signed hnonzero, hneg, hmag]
  refine ⟨z, hz, hnonzero, hexact, ?_⟩
  rw [hexact, ← signed_sub, abs_signed]
  have herror := h.abs_roundBits_sub_lt
  linarith

/-- A cut without a mark leaves the leading bits. -/
theorem CutOf.magnitude_eq_cutBits (h : CutOf (fun _ => False) v d) :
    d.magnitude = cutBits p.width v := by
  have hman : d.man = ⌊v / d.unit⌋₊ := by
    rw [h.man_eq, marked, if_neg (fun h => h.1)]
  rw [magnitude, cutBits, h.lastPlace_eq, hman, natCast_floor_eq_intCast_floor h.div_unit_nonneg]

/-! ## The nibble -/

/-- What is stored for an aligned value hangs on its rounded significand only. -/
theorem pack_eq_of_nearestEven_eq (hd : d.Aligned) (he : e.Aligned) (hexp : d.exp = e.exp)
    (hneg : d.neg = e.neg) (h : nearestEven d.man 8 = nearestEven e.man 8) : d.pack = e.pack := by
  have hround : d.align.round = e.align.round := by
    rw [hd.align_eq, he.align_eq, round, round, h, hexp]
  have hvanish : d.vanishes = e.vanishes := by
    simp only [vanishes, hexp, beq_eq_false_iff_ne.mpr hd.man_ne_zero,
      beq_eq_false_iff_ne.mpr he.man_ne_zero]
  simp only [pack, overflows, saturate, hround, hvanish, hneg]
  rfl

theorem mul_eq (l r : Scratch p) :
    mul l r = { cutProduct l r with
      man := if (cutProduct l r).man % 16 = 9 then (cutProduct l r).man - 1
        else (cutProduct l r).man } :=
  rfl

/-- **The nibble has no effect on what is stored.** -/
theorem pack_mul (hl : l.Aligned) (hr : r.Aligned) : (mul l r).pack = (cutProduct l r).pack := by
  have ha := (cutOf_cutProduct hl hr).aligned
  have hlo := ha.le_man
  have hhi := ha.man_lt
  have hw1 := p.two_pow_width_sub_one
  have hw2 := p.two_pow_width_sub_two
  rw [mul_eq]
  split
  · next hnine =>
    -- the top bit alone ends in no nine, so the significand stays above it
    refine pack_eq_of_nearestEven_eq ⟨?_, ?_⟩ ha rfl rfl (nearestEven_of_nine hnine)
    · show 2 ^ (p.width - 1) ≤ (cutProduct l r).man - 1
      omega
    · show (cutProduct l r).man - 1 < 2 ^ p.width
      omega
  · rfl

end Scratch

theorem signed_mul (a b : Bool) (v w : ℚ) : signed a v * signed b w = signed (a != b) (v * w) := by
  cases a <;> cases b <;> simp [signed]

namespace Floating

open Scratch

variable {p : Precision} {x y : Floating p}

/-- The product of two significands fits 128 bits. -/
theorem man_mul_man_lt (x y : Floating p) : x.unpack.man * y.unpack.man < 2 ^ 128 := by
  have hw : 2 ^ p.width ≤ 2 ^ 64 := by cases p <;> decide
  calc x.unpack.man * y.unpack.man < 2 ^ 64 * 2 ^ 64 :=
        Nat.mul_lt_mul'' ((unpack_aligned x).man_lt.trans_le hw)
          ((unpack_aligned y).man_lt.trans_le hw)
    _ = 2 ^ 128 := by norm_num

theorem mul_eq_pack_cutProduct (hx : x.isZero = false) (hy : y.isZero = false) :
    x.mul y = (x.unpack.cutProduct y.unpack).pack := by
  rw [mul, if_neg (by simp [hx, hy]), pack_mul (unpack_aligned x) (unpack_aligned y)]

theorem exact_mul_exact (hx : x.isZero = false) (hy : y.isZero = false) :
    x.exact * y.exact = signed (x.neg != y.neg) (x.unpack.magnitude * y.unpack.magnitude) := by
  rw [exact_eq_signed hx, exact_eq_signed hy, signed_mul]

/-- Between the limits something other than zero is stored. -/
theorem exists_mul_eq_ok (hx : x.isZero = false) (hy : y.isZero = false)
    (hlo : 2 ^ (-128 : ℤ) ≤ x.unpack.magnitude * y.unpack.magnitude)
    (hhi : roundBits p.manBits (x.unpack.cutProduct y.unpack).magnitude < 2 ^ 127) :
    ∃ z, x.mul y = .ok z ∧ z.isZero = false ∧
      z.exact = signed (x.neg != y.neg)
        (roundBits p.manBits (x.unpack.cutProduct y.unpack).magnitude) ∧
      |z.exact - x.exact * y.exact|
        < (1 / 2 + 1 / 256) * 2 ^ ((z.exponent : ℤ) - 128 - p.manBits) := by
  have hcut := cutOf_cutProduct (unpack_aligned x) (unpack_aligned y)
  rw [mul_eq_pack_cutProduct hx hy, exact_mul_exact hx hy]
  exact hcut.exists_pack_eq_ok hlo hhi

/-- **Multiplication in closed form.** The leading bits of the exact product, as many as the
working width has, are rounded to the nearest value, a tie to the even one; the nibble changes
nothing. The product is the clear zero exactly below `2^-128`, and overflows exactly where the
rounded number is out of range; what is stored otherwise is within a half and a 256th of its
last place. In place, what is given or reported is what the buffer holds afterwards. -/
theorem mul_of_nonzero (hx : x.isZero = false) (hy : y.isZero = false) :
    let product := |x.exact * y.exact|
    let rounded := roundBits p.manBits (cutBits p.width product)
    x.unpack.man * y.unpack.man < 2 ^ 128 ∧
    x.mul y = (x.unpack.cutProduct y.unpack).pack ∧
    (x.mul y = .ok zero ↔ product < 2 ^ (-128 : ℤ)) ∧
    (x.mul y = .error (.overflow (.max (x.neg != y.neg))) ↔ 2 ^ 127 ≤ rounded) ∧
    (2 ^ (-128 : ℤ) ≤ product → rounded < 2 ^ 127 →
      ∃ z, x.mul y = .ok z ∧ z.isZero = false ∧ z.exact = signed (x.neg != y.neg) rounded ∧
        |z.exact - x.exact * y.exact|
          < (1 / 2 + 1 / 256) * 2 ^ ((z.exponent : ℤ) - 128 - p.manBits)) ∧
    x.buffer.mul y.buffer = (x.mul y).settle x.buffer := by
  have hcut := cutOf_cutProduct (unpack_aligned x) (unpack_aligned y)
  have hpos : 0 < x.unpack.magnitude * y.unpack.magnitude :=
    mul_pos (unpack_aligned x).magnitude_pos (unpack_aligned y).magnitude_pos
  have hproduct : |x.exact * y.exact| = x.unpack.magnitude * y.unpack.magnitude := by
    rw [exact_mul_exact hx hy, abs_signed, abs_of_pos hpos]
  rw [hproduct]
  intro product rounded
  have hrounded : roundBits p.manBits (x.unpack.cutProduct y.unpack).magnitude = rounded := by
    rw [hcut.magnitude_eq_cutBits]
  -- the three ranges have three outcomes, so each outcome has its range
  have hsmall : product < 2 ^ (-128 : ℤ) → x.mul y = .ok zero := by
    intro h
    rw [mul_eq_pack_cutProduct hx hy, hcut.pack_of_lt h]
  have hlarge : 2 ^ 127 ≤ rounded → x.mul y = .error (.overflow (.max (x.neg != y.neg))) := by
    intro h
    rw [mul_eq_pack_cutProduct hx hy, hcut.aligned.pack_of_le (hrounded ▸ h)]
    rfl
  have hok := exists_mul_eq_ok hx hy
  rw [hrounded] at hok
  refine ⟨man_mul_man_lt x y, mul_eq_pack_cutProduct hx hy, ⟨?_, hsmall⟩, ⟨?_, hlarge⟩, hok,
    buffer_mul x y⟩
  · intro hzero
    by_contra hlo
    rcases lt_or_ge rounded (2 ^ 127) with hlt | hge
    · obtain ⟨z, hz, hnonzero, -⟩ := hok (not_lt.mp hlo) hlt
      rw [hz, Except.ok.injEq] at hzero
      rw [hzero] at hnonzero
      exact absurd hnonzero (by simp)
    · rw [hlarge hge] at hzero
      exact absurd hzero (by simp)
  · intro herr
    by_contra hlt
    rcases lt_or_ge product (2 ^ (-128 : ℤ)) with hlo | hlo
    · rw [hsmall hlo] at herr
      exact absurd herr (by simp)
    · obtain ⟨z, hz, -⟩ := hok hlo (not_le.mp hlt)
      rw [hz] at herr
      exact absurd herr (by simp)

/-- A product that is a tie only after the cut: it goes down to the even significand, and is
more than half of the last place off. -/
theorem mul_of_nonzero_false_tie :
    let x : Single := ofWord 0x813316B0
    let y : Single := ofWord 0x81532811
    let z : Single := ofWord 0x8213B7BA
    x.isZero = false ∧ y.isZero = false ∧ x.mul y = .ok z ∧
      1 / 2 * 2 ^ ((z.exponent : ℤ) - 128 - 24) < |z.exact - x.exact * y.exact| ∧
      |z.exact - x.exact * y.exact| < (1 / 2 + 1 / 256) * 2 ^ ((z.exponent : ℤ) - 128 - 24) := by
  intro x y z
  have hmul : x.mul y = .ok z := by decide +kernel
  have hx : x.exact = 0xB316B0 / 2 ^ 23 := by
    norm_num [x, exact, isZero, ofWord, significand, Precision.manBits]
  have hy : y.exact = 0xD32811 / 2 ^ 23 := by
    norm_num [y, exact, isZero, ofWord, significand, Precision.manBits]
  obtain ⟨-, -, hzero, hover, hok, -⟩ := mul_of_nonzero (x := x) (y := y) rfl rfl
  have hlo : 2 ^ (-128 : ℤ) ≤ |x.exact * y.exact| := by
    rw [hx, hy]
    norm_num
  have hhi := not_le.mp fun h => by
    rw [hover.mpr h] at hmul
    exact absurd hmul (by simp)
  obtain ⟨w, hw, -, -, hnear⟩ := hok hlo hhi
  obtain rfl : z = w := Except.ok.inj (hmul.symm.trans hw)
  refine ⟨rfl, rfl, hmul, ?_, hnear⟩
  rw [hx, hy]
  norm_num [z, exact, isZero, ofWord, significand, Precision.manBits]

end Floating

end BasicNumerics
