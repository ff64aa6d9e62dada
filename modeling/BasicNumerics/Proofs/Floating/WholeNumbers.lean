/-
Sums, differences and products of whole numbers.

The adder has habits of its own: it cuts the smaller operand and marks what was cut, and it
trims the guard byte of a difference. None of them shows where the exact sum fits the
significand. The leading bit of the working sum is at most two places below the top of the
width, so a sum that fits has at least seven clear bits at its end; then nothing was cut, no
guard byte is a tie, and none is trimmed (`worth_addOrdered_of_fits`).

What is stored depends on the worth of a working value alone, as long as the value fits the
width. So a whole number that comes out of an operation is stored bit for bit as the same
number that was converted (`pack_of_worth_eq`), also one that has to be rounded: a product may
have up to eight bits more than a significand.
-/
import BasicNumerics.Proofs.Floating.Difference
import BasicNumerics.Proofs.Floating.OfDecimal

set_option autoImplicit false

namespace BasicNumerics

open Rounding

namespace Rounding

/-- **A long number that fits has clear bits at its end,** and nothing behind them. -/
theorem Fits.exists_eq_two_pow_mul {bits k : ℕ} {t : ℚ} {j : ℤ} (h : Fits bits (t * 2 ^ j))
    (hlong : 2 ^ (bits + k) ≤ t) : ∃ q : ℕ, t = (2 ^ (k + 1) * q : ℕ) := by
  obtain ⟨m, i, hm, heq⟩ := h
  have ht : t = m * 2 ^ (i - j) := by
    rw [zpow_sub₀ two_ne_zero, ← mul_div_assoc, ← heq, mul_div_cancel_right₀]
    positivity
  -- with fewer clear bits the number would be shorter than it is
  have hshift : ((k + 1 : ℕ) : ℤ) ≤ i - j := by
    by_contra hfew
    have hle : (2 : ℚ) ^ (i - j) ≤ 2 ^ (k : ℤ) := zpow_le_zpow_right₀ one_le_two (by omega)
    have hshort : t < 2 ^ (bits + k) := by
      calc t = m * 2 ^ (i - j) := ht
        _ ≤ m * 2 ^ (k : ℤ) := mul_le_mul_of_nonneg_left hle (Nat.cast_nonneg m)
        _ < 2 ^ bits * 2 ^ (k : ℤ) := by
            apply mul_lt_mul_of_pos_right _ (by positivity)
            exact_mod_cast hm
        _ = 2 ^ (bits + k) := by rw [zpow_natCast, pow_add]
    exact absurd hlong (not_le.mpr hshort)
  refine ⟨m * 2 ^ (i - j - (k + 1 : ℕ)).toNat, ?_⟩
  have hsplit : i - j = ((k + 1 : ℕ) : ℤ) + ((i - j - (k + 1 : ℕ)).toNat : ℕ) := by omega
  conv_lhs => rw [ht, hsplit, zpow_add₀ two_ne_zero, zpow_natCast, zpow_natCast]
  push_cast
  ring

/-- A whole number is as long as its digits. -/
theorem fits_abs_intCast {bits : ℕ} {n : ℤ} (h : n.natAbs < 2 ^ bits) : Fits bits |(n : ℚ)| := by
  refine ⟨n.natAbs, 0, h, ?_⟩
  rw [zpow_zero, mul_one, Nat.cast_natAbs, Int.cast_abs]

end Rounding

namespace Scratch

variable {p : Precision} {d l r small large : Scratch p} {n : ℤ}

/-! ## Working values as numbers -/

/-- The number a working value stands for. An exponent of zero marks the number zero. -/
def worth (d : Scratch p) : ℚ := if d.exp = 0 then 0 else signed d.neg d.magnitude

theorem worth_of_exp_ne_zero (h : d.exp ≠ 0) : d.worth = signed d.neg d.magnitude := if_neg h

theorem worth_unpack (x : Floating p) : x.unpack.worth = x.exact := by
  by_cases hx : x.isZero = true
  · have hexp : x.unpack.exp = 0 := by simpa [Floating.isZero, Floating.unpack] using hx
    rw [worth, if_pos hexp, Floating.exact_of_isZero hx]
  · rw [Bool.not_eq_true] at hx
    rw [worth_of_exp_ne_zero (stored_unpack hx).exp_pos.ne', Floating.exact_eq_signed hx]
    rfl

theorem worth_negate (d : Scratch p) : d.negate.worth = -d.worth := by
  have hexp : d.negate.exp = d.exp := rfl
  rw [worth, worth, hexp]
  by_cases h : d.exp = 0
  · rw [if_pos h, if_pos h, neg_zero]
  · rw [if_neg h, if_neg h]
    exact signed_not d.neg d.magnitude

/-! ## Sums that fit -/

/-- What was cut off a whole number of places is nothing. -/
theorem dropped_eq_zero_of_add_eq {a b : ℤ} (h : (a : ℚ) + dropped small large = b) :
    dropped small large = 0 := by
  have h0 := dropped_nonneg small large
  have h1 := dropped_lt_one small large
  have hdiff : dropped small large = ((b - a : ℤ) : ℚ) := by
    push_cast
    linarith
  rw [hdiff] at h0 h1 ⊢
  have hlo : 0 ≤ b - a := by exact_mod_cast h0
  have hhi : b - a < 1 := by exact_mod_cast h1
  exact_mod_cast (show b - a = 0 by omega)

/-- **Operands of one sign:** the joined significand of a sum that fits is the exact one. -/
theorem magnitude_addOrdered_of_fits (hl : large.Aligned) (hexp : small.exp ≤ large.exp)
    (hneg : small.neg = large.neg) (hfit : Fits p.manBits (small.magnitude + large.magnitude)) :
    (addOrdered small large).magnitude = small.magnitude + large.magnitude := by
  have h0 := dropped_nonneg small large
  have hsum := magnitude_add_eq hexp
  have hlong : (2 : ℚ) ^ (p.manBits + 7)
      ≤ (kept small large + large.man : ℕ) + dropped small large := by
    have hle : 2 ^ (p.manBits + 7) ≤ kept small large + large.man :=
      hl.le_man.trans (Nat.le_add_left _ _)
    have hcast : (2 : ℚ) ^ (p.manBits + 7) ≤ (kept small large + large.man : ℕ) := by
      exact_mod_cast hle
    linarith
  rw [hsum] at hfit ⊢
  -- with the guard byte clear nothing was cut, and joining sets no bit
  obtain ⟨q, hq⟩ := hfit.exists_eq_two_pow_mul hlong
  have hdropped : dropped small large = 0 :=
    dropped_eq_zero_of_add_eq (a := (kept small large + large.man : ℕ)) (b := (2 ^ (7 + 1) * q : ℕ))
      (by exact_mod_cast hq)
  rw [hdropped, add_zero] at hq ⊢
  have hnat : kept small large + large.man = 2 ^ (7 + 1) * q := by exact_mod_cast hq
  have hjoined : joined small large = kept small large + large.man := by
    have hmem := joined_mem small large
    omega
  rw [addOrdered_eq_joined hneg, magnitude, unit, hjoined]

/-- **Operands of two signs:** the working difference of magnitudes whose distance fits is the
exact one. -/
theorem magnitude_addOrdered_of_fits_gap (hs : small.Stored) (hl : large.Stored)
    (hexp : small.exp ≤ large.exp) (hneg : small.neg ≠ large.neg)
    (hfit : Fits p.manBits (gap small large)) :
    (addOrdered small large).magnitude = gap small large := by
  rcases le_or_gt (shiftTo small large) 1 with hclose | hfar
  · exact (addOrdered_of_close hs hl hexp hneg hclose).2.2
  · obtain ⟨hlo, -, hgap⟩ := apart_of_far hs hl hexp hfar
    have h1 := dropped_lt_one small large
    -- a difference of distant operands may lose its leading bit, so seven clear bits are left
    have hlong : (2 : ℚ) ^ (p.manBits + 6) ≤ apart small large - dropped small large := by
      have hsucc : 2 ^ (p.manBits + 6) + 1 ≤ apart small large := hlo
      have hcast : (2 : ℚ) ^ (p.manBits + 6) + 1 ≤ apart small large := by exact_mod_cast hsucc
      linarith
    rw [hgap, unit] at hfit
    obtain ⟨q, hq⟩ := hfit.exists_eq_two_pow_mul hlong
    have hdropped : dropped small large = 0 :=
      dropped_eq_zero_of_add_eq (a := (2 ^ (6 + 1) * q : ℕ)) (b := apart small large) (by
        rw [Int.cast_natCast, Int.cast_natCast, ← hq]
        ring)
    have hlost : (small.man % 2 ^ shiftTo small large != 0) = false := by
      rw [← Bool.not_eq_true, dropped_ne_zero_iff, not_not]
      exact hdropped
    rw [hdropped, sub_zero] at hq hgap
    have hnat : apart small large = 2 ^ (6 + 1) * q := by exact_mod_cast hq
    rw [hgap, addOrdered_of_ne hneg, hlost, trimDifference_of_dvd (by omega)]
    rfl

theorem addOrdered_exp (small large : Scratch p) : (addOrdered small large).exp = large.exp := by
  by_cases hneg : small.neg = large.neg
  · rw [addOrdered_eq_joined hneg]
  · rw [addOrdered_of_ne hneg]

/-- **A working sum that fits the significand is exact,** whatever the signs. -/
theorem worth_addOrdered_of_fits (hs : small.Stored) (hl : large.Stored)
    (hexp : small.exp ≤ large.exp) (hfit : Fits p.manBits |small.worth + large.worth|) :
    (addOrdered small large).worth = small.worth + large.worth := by
  have hexp0 : (addOrdered small large).exp ≠ 0 := by
    rw [addOrdered_exp]
    exact hl.exp_pos.ne'
  rw [worth_of_exp_ne_zero hs.exp_pos.ne', worth_of_exp_ne_zero hl.exp_pos.ne'] at hfit ⊢
  rw [worth_of_exp_ne_zero hexp0]
  by_cases hneg : small.neg = large.neg
  · have hpos : 0 ≤ small.magnitude + large.magnitude := by
      have h1 := hs.aligned.magnitude_pos
      have h2 := hl.aligned.magnitude_pos
      linarith
    rw [hneg, ← signed_add, abs_signed, abs_of_nonneg hpos] at hfit
    have hmag := magnitude_addOrdered_of_fits hl.aligned hexp hneg hfit
    rw [hmag, hneg, ← signed_add, addOrdered_eq_joined hneg]
  · have hgap := signed_gap hs hl hexp hneg
    rw [add_comm, ← hgap, abs_signed, gap, abs_abs, ← gap] at hfit
    have hmag := magnitude_addOrdered_of_fits_gap hs hl hexp hneg hfit
    rw [hmag, hgap, add_comm]

/-- A working value as an operand of a sum: what is read from a value, which may be zero. -/
def IsOperand (d : Scratch p) : Prop := d.exp = 0 ∨ d.Stored

theorem isOperand_unpack (x : Floating p) : x.unpack.IsOperand := by
  by_cases hx : x.isZero = true
  · exact Or.inl (by simpa [Floating.isZero, Floating.unpack] using hx)
  · exact Or.inr (stored_unpack (by simpa using hx))

theorem IsOperand.negate (h : d.IsOperand) : d.negate.IsOperand := h.imp id Stored.negate

theorem worth_add_of_fits (hl : l.IsOperand) (hr : r.IsOperand)
    (hfit : Fits p.manBits |l.worth + r.worth|) :
    (l.add r).worth = l.worth + r.worth ∧ 0 ≤ (l.add r).exp := by
  rcases hr with hr | hr
  · have hzero : r.worth = 0 := if_pos hr
    rw [add, if_pos hr, hzero, add_zero]
    exact ⟨rfl, hl.elim (fun h => h.ge) (fun h => h.exp_pos.le)⟩
  rcases hl with hl | hl
  · have hzero : l.worth = 0 := if_pos hl
    rw [add, if_neg hr.exp_pos.ne', if_pos hl, hzero, zero_add]
    exact ⟨rfl, hr.exp_pos.le⟩
  obtain ⟨small, large, ⟨rfl, rfl⟩ | ⟨rfl, rfl⟩, hexp, hadd⟩ := exists_addOrdered hl hr
  · rw [hadd, addOrdered_exp]
    exact ⟨worth_addOrdered_of_fits hl hr hexp hfit, hr.exp_pos.le⟩
  · rw [add_comm] at hfit ⊢
    rw [hadd, addOrdered_exp]
    exact ⟨worth_addOrdered_of_fits hr hl hexp hfit, hl.exp_pos.le⟩

/-! ## Storing whole numbers -/

/-- A value is aligned before it is stored, so it may be aligned before that. -/
theorem pack_align (hv : d.vanishes = false) (hv' : d.align.vanishes = false) :
    d.align.pack = d.pack := by
  have halign := (align_aligned ((vanishes_eq_false_iff d).mp hv).1).align_eq
  simp only [pack, overflows, saturate, halign, hv, hv', align_neg]

/-- Working values that stand for one number other than zero are one value once they are
aligned. -/
theorem align_eq_align_ofInt (h0 : n ≠ 0) (hn : n.natAbs < 2 ^ p.width)
    (h : signed d.neg d.magnitude = n) : d.man ≠ 0 ∧ d.align = (ofInt p n).align := by
  have hmag0 : 0 ≤ d.magnitude := mul_nonneg (Nat.cast_nonneg _) d.unit_pos.le
  have hmag : d.magnitude = |(n : ℚ)| := by rw [← h, abs_signed, abs_of_nonneg hmag0]
  have hpos : 0 < d.magnitude := by
    rw [hmag, abs_pos]
    exact_mod_cast h0
  have hman : d.man ≠ 0 := by
    intro hzero
    rw [magnitude, hzero, Nat.cast_zero, zero_mul] at hpos
    exact lt_irrefl _ hpos
  have hman' : (ofInt p n).man ≠ 0 := Int.natAbs_ne_zero.mpr h0
  have hcut := (cutOf_align hman).magnitude_eq (by rw [hmag]; exact fits_abs_intCast hn)
  -- aligned values of one magnitude agree in exponent and significand
  obtain ⟨hexpeq, hmaneq⟩ := (align_aligned hman).eq_of_magnitude_eq (align_aligned hman')
    (by rw [hcut, hmag, magnitude_align_ofInt (by zify at hn; exact hn)])
  have hnegeq : d.neg = (ofInt p n).neg := by
    rw [Bool.eq_iff_iff, ← signed_neg_iff hpos, h, Int.cast_lt_zero]
    exact decide_eq_true_iff.symm
  refine ⟨hman, ?_⟩
  rw [Scratch.mk.injEq, align_neg, align_neg]
  exact ⟨hexpeq, hmaneq, hnegeq⟩

/-- A whole number of the working width is in range. -/
theorem pack_align_ofInt (h0 : n ≠ 0) (hn : n.natAbs < 2 ^ p.width) :
    (ofInt p n).align.vanishes = false ∧ (ofInt p n).align.pack = .ok (.ofInt n) := by
  have ha : (ofInt p n).align.Aligned := align_aligned (Int.natAbs_ne_zero.mpr h0)
  have hexp : (ofInt p n).align.exp = 128 + bitLength n.natAbs := by
    rw [align_exp (Int.natAbs_ne_zero.mpr h0)]
    show unitExp p + bitLength n.natAbs - p.width = _
    rw [unitExp_eq]
    ring
  -- the exponent of one is in the middle of the range, and the width stays far from its end
  have hbits : bitLength n.natAbs ≤ p.width := bitLength_le hn
  have hwidth : p.width ≤ 64 := by cases p <;> decide
  refine ⟨(vanishes_eq_false_iff _).mpr ⟨ha.man_ne_zero, by omega⟩, ?_⟩
  apply pack_of_not_overflows
  exact not_overflows_of_exp_lt ha (by omega)

/-- **What is stored depends on the number alone:** a working value that stands for a whole
number of the working width is stored as this number is converted. -/
theorem pack_of_worth_eq (hexp : 0 ≤ d.exp) (hn : n.natAbs < 2 ^ p.width) (h : d.worth = n) :
    d.pack = .ok (.ofInt n) := by
  by_cases h0 : n = 0
  · subst h0
    apply pack_of_vanishes
    -- a value that does not vanish stands for something else than zero
    by_contra hv
    rw [Bool.not_eq_true, vanishes_eq_false_iff] at hv
    have hmag : d.magnitude = 0 := by
      rw [worth_of_exp_ne_zero hv.2.ne', Int.cast_zero, ← abs_eq_zero, abs_signed] at h
      exact abs_eq_zero.mp h
    exact absurd hmag (mul_ne_zero (by exact_mod_cast hv.1) d.unit_pos.ne')
  · have hexp0 : d.exp ≠ 0 := by
      intro hzero
      rw [worth, if_pos hzero] at h
      exact h0 (by exact_mod_cast h.symm)
    rw [worth_of_exp_ne_zero hexp0] at h
    obtain ⟨hman, halign⟩ := align_eq_align_ofInt h0 hn h
    obtain ⟨hv', hpack⟩ := pack_align_ofInt h0 hn
    have hv : d.vanishes = false := (vanishes_eq_false_iff d).mpr ⟨hman, by omega⟩
    rw [← pack_align hv (by rw [halign]; exact hv'), halign, hpack]

/-- **A sum that is a whole number of the significand** is stored as this number. -/
theorem pack_add_of_worth_eq (hl : l.IsOperand) (hr : r.IsOperand) (hn : n.natAbs < 2 ^ p.manBits)
    (h : l.worth + r.worth = n) : (l.add r).pack = .ok (.ofInt n) := by
  have hfit : Fits p.manBits |l.worth + r.worth| := by
    rw [h]
    exact fits_abs_intCast hn
  obtain ⟨hworth, hexp⟩ := worth_add_of_fits hl hr hfit
  have hwide : 2 ^ p.manBits ≤ 2 ^ p.width := Nat.pow_le_pow_right two_pos (Nat.le_add_right _ _)
  exact pack_of_worth_eq hexp (hn.trans_le hwide) (hworth.trans h)

end Scratch

namespace Floating

open Scratch

variable {p : Precision} {a b : ℤ}

theorem add_ofInt (ha : a.natAbs < 2 ^ p.manBits) (hb : b.natAbs < 2 ^ p.manBits)
    (h : (a + b).natAbs < 2 ^ p.manBits) :
    (ofInt a : Floating p).add (ofInt b) = .ok (ofInt (a + b)) := by
  apply pack_add_of_worth_eq (isOperand_unpack _) (isOperand_unpack _) h
  rw [worth_unpack, worth_unpack, exact_ofInt ha, exact_ofInt hb, Int.cast_add]

theorem sub_ofInt (ha : a.natAbs < 2 ^ p.manBits) (hb : b.natAbs < 2 ^ p.manBits)
    (h : (a - b).natAbs < 2 ^ p.manBits) :
    (ofInt a : Floating p).sub (ofInt b) = .ok (ofInt (a - b)) := by
  apply pack_add_of_worth_eq (isOperand_unpack _) (isOperand_unpack _).negate h
  rw [worth_negate, worth_unpack, worth_unpack, exact_ofInt ha, exact_ofInt hb, Int.cast_sub,
    sub_eq_add_neg]

/-- A whole number that fits the significand is zero only for zero. -/
theorem isZero_ofInt_eq_false (h0 : a ≠ 0) (ha : a.natAbs < 2 ^ p.manBits) :
    (ofInt a : Floating p).isZero = false := by
  by_contra hz
  rw [Bool.not_eq_false] at hz
  have hexact := exact_of_isZero hz
  rw [exact_ofInt ha, Int.cast_eq_zero] at hexact
  exact h0 hexact

/-- **A product of whole numbers is rounded once,** where it fits the working width: it is what
the exact product is converted to. -/
theorem mul_ofInt (ha : a.natAbs < 2 ^ p.manBits) (hb : b.natAbs < 2 ^ p.manBits)
    (h : (a * b).natAbs < 2 ^ p.width) :
    (ofInt a : Floating p).mul (ofInt b) = .ok (ofInt (a * b)) := by
  by_cases h0 : a * b = 0
  · rw [h0]
    rcases mul_eq_zero.mp h0 with rfl | rfl
    · rfl
    · exact if_pos (Bool.or_true _)
  have hx := isZero_ofInt_eq_false (p := p) (left_ne_zero_of_mul h0) ha
  have hy := isZero_ofInt_eq_false (p := p) (right_ne_zero_of_mul h0) hb
  have hcut := cutOf_cutProduct (unpack_aligned (ofInt a : Floating p))
    (unpack_aligned (ofInt b : Floating p))
  have habs : (ofInt a : Floating p).unpack.magnitude * (ofInt b : Floating p).unpack.magnitude
      = |((a * b : ℤ) : ℚ)| := by
    rw [← abs_exact hx, ← abs_exact hy, exact_ofInt ha, exact_ofInt hb, Int.cast_mul, abs_mul]
  -- a product other than zero is one at least, so it does not underflow
  have hone : (1 : ℚ) ≤ |((a * b : ℤ) : ℚ)| := by exact_mod_cast Int.one_le_abs h0
  have hexp := hcut.exp_pos (by rw [habs]; exact le_trans (by norm_num) hone)
  have hmag := hcut.magnitude_eq (by rw [habs]; exact fits_abs_intCast h)
  rw [mul_eq_pack_cutProduct hx hy]
  apply pack_of_worth_eq hexp.le h
  rw [worth_of_exp_ne_zero hexp.ne', hmag, Int.cast_mul, ← exact_ofInt ha, ← exact_ofInt hb,
    exact_mul_exact hx hy]
  rfl

end Floating

end BasicNumerics
