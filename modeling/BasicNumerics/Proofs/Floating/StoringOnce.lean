/-
Storing rounds once.

What the machine in place leaves in a buffer for a working value is the magnitude of that value
rounded to the bits of the precision, ties to even, whatever was in the buffer before. Past the
range it is the largest magnitude, which the failure reports; below the range the significand
and the sign stay behind a clear exponent byte.

That is so as long as the exponent, once the value is aligned and rounded, is still a word of 32
bits. The greatest exponents wrap (`exists_storeInto_wrapping`), and what should overflow is
then stored as too small. Nothing that is read from a buffer and computed with comes near that.
-/
import BasicNumerics.Proofs.Floating.Sum

set_option autoImplicit false

namespace BasicNumerics

open Rounding

namespace Scratch

variable {p : Precision} {d : Scratch p}

/-- The last place of the rounded magnitude, by the exponent that rounding gave it. -/
theorem lastPlace_roundBits_magnitude (h : d.man ≠ 0) :
    lastPlace p.manBits (roundBits p.manBits d.magnitude)
      = 256 * 2 ^ (d.align.round.2 - unitExp p) := by
  obtain ⟨hlo, hhi⟩ := round_fst_mem (align_aligned h)
  have hw := p.two_pow_width_eq_mul
  have hlo' : 2 ^ (p.manBits - 1 + 8) ≤ d.align.round.1 * 256 := by
    rw [Nat.pow_add]
    omega
  have hhi' : d.align.round.1 * 256 < 2 ^ (p.manBits + 8) := by
    rw [Nat.pow_add]
    omega
  have hbits := (roundBits_of_bits le_rfl one_pos (manBits_pos p) hlo' hhi'
    (d.align.round.2 - unitExp p)).1
  rw [add_zero] at hbits
  push_cast at hbits
  rw [← round_align_worth h, hbits]
  norm_num

/-- **What is too small keeps its significand and its sign** behind a clear exponent byte. -/
theorem saturate_of_roundBits_lt (hv : d.vanishes = false)
    (h : roundBits p.manBits d.magnitude < 2 ^ (-128 : ℤ)) :
    d.saturate.exponent = 0 ∧ d.saturate.neg = d.neg ∧
      d.saturate.significand * lastPlace p.manBits (roundBits p.manBits d.magnitude)
        = roundBits p.manBits d.magnitude := by
  have hman := ((vanishes_eq_false_iff d).mp hv).1
  -- aligning took the exponent below one: the byte holds zero, not the exponent of `w`
  have hsmall : ¬-128 + 129 ≤ d.align.round.2 := by
    rw [← two_zpow_le_roundBits_iff hman]
    exact not_le.mpr h
  obtain ⟨hneg, hsignificand, hexponent⟩ := saturate_parts hv (by omega)
  refine ⟨by omega, hneg, ?_⟩
  rw [hsignificand, lastPlace_roundBits_magnitude hman, ← mul_assoc, round_align_worth hman]

/-- **A value that is read is stored as it was.** -/
theorem saturate_unpack {x : Floating p} (hx : x.isZero = false) :
    x.unpack.overflows = false ∧ x.unpack.saturate = x := by
  have hstored := stored_unpack hx
  have hv : x.unpack.vanishes = false :=
    (vanishes_eq_false_iff _).mpr ⟨hstored.aligned.man_ne_zero, hstored.exp_pos⟩
  -- the guard byte is empty, so nothing is rounded and nothing carries
  have hround : x.unpack.align.round = (x.significand, (x.exponent : ℤ)) := by
    have hnear : nearestEven x.unpack.man 8 = x.significand :=
      nearestEven_mul_two_pow x.significand 8
    rw [hstored.aligned.align_eq, round, hnear, if_neg x.significand_lt.ne]
    rfl
  have hexp : x.unpack.align.round.2 ≤ 255 := by
    rw [hround]
    exact hstored.exp_le
  obtain ⟨hneg, hsignificand, hexponent⟩ := saturate_parts hv hexp
  rw [hround] at hsignificand hexponent
  refine ⟨by simp [overflows, not_lt.mpr hexp], ?_⟩
  rw [Floating.mk.injEq]
  exact ⟨hneg, Nat.add_left_cancel hsignificand, hexponent⟩

end Scratch

namespace Held

open Scratch

variable {p : Precision} {d : Held p}

/-- The exponent of the rounded magnitude, and so the word that holds it. -/
theorem round_lt_of_roundBits_lt (hman : 0 < d.man)
    (h : roundBits p.manBits d.scratch.magnitude < 2 ^ (2147483519 : ℤ)) :
    d.scratch.align.round.2 < 2 ^ 31 := by
  by_contra hlarge
  refine absurd h (not_lt.mpr ?_)
  rw [two_zpow_le_roundBits_iff (d := d.scratch) hman.ne']
  omega

/-- **Storing is the correctly rounded inverse of reading.** For a working value of positive
exponent and significand, and whatever is in the buffer, let `w` be its magnitude rounded once to
the bits of the precision, and let its exponent be one that the word can hold.

* It overflows, with the largest magnitude of its sign reported and stored, exactly if `w` is
  past the range.
* If `w` is below the range, the exponent byte is clear and the other bytes hold the significand
  and the sign of `w`.
* In between, what is stored is worth `w` with its sign.

A value other than zero that is read and stored again leaves its own bytes. -/
theorem storeInto_nearest (hexp : 1 ≤ d.exp) (hman : 0 < d.man)
    (hword : roundBits p.manBits d.scratch.magnitude < 2 ^ (2147483519 : ℤ)) (b : Buffer p) :
    let w := roundBits p.manBits d.scratch.magnitude
    (d.storeInto b = ⟨(Floating.max d.neg).buffer, some (.overflow (.max d.neg))⟩ ↔ 2 ^ 127 ≤ w) ∧
    (w < 2 ^ (-128 : ℤ) → ∃ z : Floating p, d.storeInto b = ⟨z.buffer, none⟩ ∧ z.exponent = 0 ∧
      z.neg = d.neg ∧ z.significand * lastPlace p.manBits w = w) ∧
    (2 ^ (-128 : ℤ) ≤ w → w < 2 ^ 127 → ∃ z : Floating p, d.storeInto b = ⟨z.buffer, none⟩ ∧
      z.exact = signed d.neg w) ∧
    ∀ x : Floating p, x.isZero = false → x.unpack.held.storeInto b = ⟨x.buffer, none⟩ := by
  intro w
  have hstore := storeInto_eq (round_lt_of_roundBits_lt hman hword) b
  have hpos : 0 < d.scratch.exp := by
    rw [Int32.le_iff_toInt_le] at hexp
    exact hexp
  have hv : d.scratch.vanishes = false :=
    (vanishes_eq_false_iff d.scratch).mpr ⟨hman.ne', hpos⟩
  have hok : w < 2 ^ 127 → d.storeInto b = ⟨d.scratch.saturate.buffer, none⟩ := by
    intro hlt
    have ho : ¬d.scratch.overflows = true := by
      rw [overflows_iff hv]
      exact not_le.mpr hlt
    rw [hstore, pack, if_neg ho]
    rfl
  refine ⟨⟨?_, ?_⟩, ?_, ?_, ?_⟩
  · intro hfails
    by_contra hlt
    rw [hok (not_le.mp hlt)] at hfails
    exact absurd hfails (by simp)
  · intro hlarge
    have ho := (overflows_iff hv).mpr hlarge
    rw [hstore, pack, if_pos ho, saturate_of_overflows ho]
    rfl
  · intro hsmall
    exact ⟨_, hok (hsmall.trans (by norm_num)), saturate_of_roundBits_lt hv hsmall⟩
  · intro hlo hhi
    obtain ⟨hzero, hparts⟩ := saturate_of_lt hv hhi
    have hnonzero : d.scratch.saturate.isZero = false := by
      rw [← Bool.not_eq_true, hzero]
      exact not_lt.mpr hlo
    obtain ⟨hneg, hmagnitude, -⟩ := hparts hnonzero
    refine ⟨_, hok hhi, ?_⟩
    rw [Floating.exact_eq_signed hnonzero, hneg, hmagnitude]
    rfl
  · intro x hx
    obtain ⟨hno, hself⟩ := saturate_unpack hx
    rw [(fromBuffer_unpack x).withinWord.storeInto_held, pack, if_neg (by simp [hno]), hself]
    rfl

/-- All bits of a long significand set: what is cut carries through every bit that is kept. And a
working value that is too small once it is aligned leaves its significand and its sign. -/
theorem storeInto_nearest_extremes :
    let d : Held .single := { exp := 1, man := 2 ^ 127 - 1, neg := true }
    let e : Held .single := { exp := 3, man := 0x300, neg := true }
    let b : Buffer .single := ⟨[1, 2, 3, 4], rfl⟩
    1 ≤ d.exp ∧ 0 < d.man ∧ 1 ≤ e.exp ∧ 0 < e.man ∧
      (d.storeInto b).buffer.bytes = [0, 0, 0x80, 0x61] ∧
      (∃ z : Single, d.storeInto b = ⟨z.buffer, none⟩ ∧ z.exact = -2 ^ (-32 : ℤ)) ∧
      (e.storeInto b).buffer.bytes = [0, 0, 0xc0, 0] ∧
      ∃ z : Single, e.storeInto b = ⟨z.buffer, none⟩ ∧ z.exponent = 0 ∧ z.neg = true := by
  intro d e b
  have hpast : (2 : ℚ) ^ (127 : ℤ) ≤ 2 ^ (2147483519 : ℤ) :=
    zpow_le_zpow_right₀ one_le_two (by norm_num)
  have hd : roundBits 24 d.scratch.magnitude = 2 ^ (-32 : ℤ) := by
    have halign : d.scratch.align = { exp := 96, man := 2 ^ 32 - 1, neg := true } := by
      decide +kernel
    have hnear : nearestEven (2 ^ 32 - 1) 8 = 2 ^ 24 := by decide
    refine (roundBits_magnitude (by decide)).trans ?_
    rw [halign]
    simp only [hnear, unit, unitExp_eq]
    norm_num [Precision.width, Precision.manBits]
  have he : roundBits 24 e.scratch.magnitude < 2 ^ (-128 : ℤ) := by
    have halign : e.scratch.align = { exp := -19, man := 3 * 2 ^ 30, neg := true } := by
      decide +kernel
    have hnear : nearestEven (3 * 2 ^ 30) 8 = 3 * 2 ^ 22 := by decide
    refine (roundBits_magnitude (by decide)).trans_lt ?_
    rw [halign]
    simp only [hnear, unit, unitExp_eq]
    norm_num [Precision.width, Precision.manBits]
  have hdword : roundBits 24 d.scratch.magnitude < 2 ^ (2147483519 : ℤ) := by
    rw [hd]
    exact lt_of_lt_of_le (zpow_lt_zpow_right₀ one_lt_two (by norm_num)) hpast
  have heword : roundBits 24 e.scratch.magnitude < 2 ^ (2147483519 : ℤ) :=
    he.trans (lt_of_lt_of_le (zpow_lt_zpow_right₀ one_lt_two (by norm_num)) hpast)
  obtain ⟨-, -, hrange, -⟩ := storeInto_nearest (d := d) (by decide) (by decide) hdword b
  obtain ⟨-, hsmall, -⟩ := storeInto_nearest (d := e) (by decide) (by decide) heword b
  obtain ⟨y, hy, hexact⟩ := hrange (hd.ge.trans' (by norm_num)) (hd.trans_lt (by norm_num))
  obtain ⟨z, hz, hexponent, hneg, -⟩ := hsmall he
  refine ⟨by decide, by decide, by decide, by decide, ?_, ⟨y, hy, ?_⟩, ?_, z, hz, hexponent, hneg⟩
  · rw [storeInto_eq (by decide +kernel)]
    decide +kernel
  · rw [hexact, show roundBits Precision.single.manBits d.scratch.magnitude = 2 ^ (-32 : ℤ) from hd]
    rfl
  · rw [storeInto_eq (by decide +kernel)]
    decide +kernel

/-- The greatest exponent of a word, and a significand one bit too long: aligning adds one to the
exponent, which wraps. The rounded magnitude is far past the range, and what is stored is a clear
exponent byte, with no failure. -/
theorem exists_storeInto_wrapping :
    let d : Held .single := { exp := 2147483647, man := 2 ^ 32, neg := false }
    1 ≤ d.exp ∧ 0 < d.man ∧ d.man < 2 ^ 127 ∧ 2 ^ 127 ≤ roundBits 24 d.scratch.magnitude ∧
      d.storeInto Floating.one.buffer = ⟨Floating.zero.buffer, none⟩ := by
  intro d
  have hlarge : (2 : ℚ) ^ (127 : ℤ) ≤ roundBits 24 d.scratch.magnitude :=
    (two_zpow_le_roundBits_iff (d := d.scratch) (by decide) 127).mpr (by decide +kernel)
  refine ⟨by decide, by decide, by decide, by exact_mod_cast hlarge, ?_⟩
  decide +kernel

end Held

end BasicNumerics
