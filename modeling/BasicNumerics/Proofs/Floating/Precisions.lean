/-
Between the precisions.

A value goes over with its exponent, and with its significand moved to the other width: up for a
wider precision, down for a narrower one. Either way the working value is the magnitude cut to
that width without a mark (`cutOf_moved`), so both directions are one argument. It never falls out
of the range at the lower end, since the exponents are the same.

A number that the other precision holds is cut nowhere and rounded nowhere (`convert_of_exact_eq`).
This makes widening exact, and narrowing undo it. Other doubles lose their low 24 bits to the cut,
and with them the means to tell a tie from what lies just above it: what is rounded are the 32
leading bits. Cut and rounding both keep the order of magnitudes, so narrowing never inverts an
order (`convert_mono`).
-/
import BasicNumerics.Proofs.Floating.Fits
import BasicNumerics.Proofs.Floating.Reading

set_option autoImplicit false

namespace BasicNumerics

open Rounding

/-- Clear low bytes are written first. -/
theorem Bytes.ofNat_mul_pow (k width n : ℕ) :
    ofNat (k + width) (n * 256 ^ k) = List.replicate k 0 ++ ofNat width n := by
  induction k with
  | zero => simp
  | succ k ih =>
    have hlow : n * 256 ^ (k + 1) = 256 * (n * 256 ^ k) := by ring
    have hbyte : UInt8.ofNat (256 * (n * 256 ^ k)) = 0 := by
      apply UInt8.toNat_inj.mp
      simp
    rw [show k + 1 + width = k + width + 1 by ring, ofNat, hlow, hbyte,
      Nat.mul_div_cancel_left _ (by norm_num), ih, List.replicate_succ, List.cons_append]

namespace Floating

open Scratch

variable {p : Precision} {x y : Floating p}

/-! ## The significand at another width -/

/-- The value as a working value of another precision, its significand moved or cut to the
width. -/
def moved (q : Precision) (x : Floating p) : Scratch q where
  exp := x.unpack.exp
  man := x.unpack.man * 2 ^ (q.width - p.width) / 2 ^ (p.width - q.width)
  neg := x.neg

theorem convert_of_nonzero (q : Precision) (hx : x.isZero = false) :
    x.convert q = (x.moved q).pack := by
  rw [convert, if_neg (by simp [hx])]
  rfl

/-- The magnitude in units of the other width. At most one of the two powers is not one. -/
theorem magnitude_eq_mul_unit_moved (q : Precision) (x : Floating p) :
    x.unpack.magnitude
      = (x.unpack.man * 2 ^ (q.width - p.width) : ℕ) / (2 ^ (p.width - q.width) : ℕ)
        * (x.moved q).unit := by
  have hexp : x.unpack.exp - unitExp p
      = ((q.width - p.width : ℕ) : ℤ) - (p.width - q.width : ℕ) + (x.unpack.exp - unitExp q) := by
    rw [unitExp_eq, unitExp_eq]
    omega
  have hunit : (x.moved q).unit = 2 ^ (x.unpack.exp - unitExp q) := rfl
  rw [magnitude, unit, hexp, zpow_add₀ two_ne_zero, zpow_sub₀ two_ne_zero, zpow_natCast,
    zpow_natCast, hunit]
  push_cast
  ring

/-- **Going over is a cut without a mark,** in either direction. -/
theorem cutOf_moved (q : Precision) (x : Floating p) :
    CutOf (fun _ => False) x.unpack.magnitude (x.moved q) := by
  have ha := unpack_aligned x
  have hpow : 0 < 2 ^ (p.width - q.width) := Nat.two_pow_pos _
  have hexact := x.magnitude_eq_mul_unit_moved q
  -- the leading bit is at the top of the one width, and is moved to the top of the other
  have hlo : 2 ^ (q.width - 1) * 2 ^ (p.width - q.width)
      ≤ x.unpack.man * 2 ^ (q.width - p.width) := by
    have hq := q.width_pos
    have hp := p.width_pos
    calc 2 ^ (q.width - 1) * 2 ^ (p.width - q.width)
        = 2 ^ (p.width - 1) * 2 ^ (q.width - p.width) := by
          rw [← Nat.pow_add, ← Nat.pow_add]
          congr 1
          omega
      _ ≤ x.unpack.man * 2 ^ (q.width - p.width) := Nat.mul_le_mul_right _ ha.le_man
  have hhi : x.unpack.man * 2 ^ (q.width - p.width)
      < 2 ^ q.width * 2 ^ (p.width - q.width) := by
    calc x.unpack.man * 2 ^ (q.width - p.width)
        < 2 ^ p.width * 2 ^ (q.width - p.width) :=
          Nat.mul_lt_mul_of_pos_right ha.man_lt (Nat.two_pow_pos _)
      _ = 2 ^ q.width * 2 ^ (p.width - q.width) := by
          rw [← Nat.pow_add, ← Nat.pow_add]
          congr 1
          omega
  refine ⟨?_, ?_, ?_⟩
  · rw [hexact]
    apply mul_le_mul_of_nonneg_right _ (unit_pos _).le
    rw [le_div_iff₀ (by exact_mod_cast hpow)]
    exact_mod_cast hlo
  · rw [hexact, mul_div_cancel_right₀ _ (unit_pos _).ne', marked_div _ hpow, if_neg (fun h => h.1)]
    rfl
  · show x.unpack.man * 2 ^ (q.width - p.width) / 2 ^ (p.width - q.width) < 2 ^ q.width
    rwa [Nat.div_lt_iff_lt_mul hpow]

/-- What is rounded are the leading bits of the value. -/
theorem magnitude_moved (q : Precision) (hx : x.isZero = false) :
    (x.moved q).magnitude = cutBits q.width |x.exact| := by
  rw [abs_exact hx, (cutOf_moved q x).magnitude_eq_cutBits]

/-! ## What is stored -/

/-- A value other than zero is not below the range. -/
theorem le_magnitude (hx : x.isZero = false) : 2 ^ (-128 : ℤ) ≤ x.unpack.magnitude := by
  rw [(unpack_aligned x).two_zpow_le_iff]
  have hexp := (stored_unpack hx).exp_pos
  omega

/-- **In range,** the leading bits are stored rounded, and never as zero. -/
theorem exists_convert_eq_ok (q : Precision) (hx : x.isZero = false)
    (hhi : roundBits q.manBits (cutBits q.width |x.exact|) < 2 ^ 127) :
    ∃ z, x.convert q = .ok z ∧ z.isZero = false ∧
      z.exact = signed x.neg (roundBits q.manBits (cutBits q.width |x.exact|)) ∧
      |z.exact - x.exact| < (1 / 2 + 1 / 256) * 2 ^ ((z.exponent : ℤ) - 128 - q.manBits) := by
  rw [← magnitude_moved q hx] at hhi ⊢
  obtain ⟨z, hz, hnonzero, hexact, hnear⟩ :=
    (cutOf_moved q x).exists_pack_eq_ok (le_magnitude hx) hhi
  refine ⟨z, (convert_of_nonzero q hx).trans hz, hnonzero, hexact, ?_⟩
  rw [exact_eq_signed hx]
  exact hnear

theorem convert_eq_overflow (q : Precision) (hx : x.isZero = false)
    (h : 2 ^ 127 ≤ roundBits q.manBits (cutBits q.width |x.exact|)) :
    x.convert q = .error (.overflow (max x.neg)) := by
  rw [← magnitude_moved q hx] at h
  rw [convert_of_nonzero q hx, (cutOf_moved q x).aligned.pack_of_le h]
  rfl

/-- A value has the bits of its significand. -/
theorem fits_magnitude (x : Floating p) : Fits p.manBits x.unpack.magnitude :=
  ⟨x.significand, _, x.significand_lt, x.magnitude_unpack⟩

/-- **A number that the other precision holds** is converted to the value that holds it. -/
theorem convert_of_exact_eq {q : Precision} {z : Floating q} (hx : x.isZero = false)
    (hz : z.isZero = false) (h : z.exact = x.exact) : x.convert q = .ok z := by
  have hmag : x.unpack.magnitude = z.unpack.magnitude := by rw [← abs_exact hx, ← h, abs_exact hz]
  -- the magnitude fits the width of the other precision, so nothing is cut off it
  have hcut := (cutOf_moved q x).magnitude_eq
    (by rw [hmag]; exact z.fits_magnitude.mono (Nat.le_add_right _ _))
  have hround : roundBits q.manBits (cutBits q.width |x.exact|) = z.unpack.magnitude := by
    rw [← magnitude_moved q hx, hcut, hmag, z.fits_magnitude.roundBits_eq (manBits_pos q)]
  have hhi : roundBits q.manBits (cutBits q.width |x.exact|) < 2 ^ 127 := by
    rw [hround]
    exact z.magnitude_lt_two_pow
  obtain ⟨w, hw, -, hexact, -⟩ := exists_convert_eq_ok q hx hhi
  have heq : z.exact = w.exact := by rw [hexact, hround, h, exact_eq_signed hx, hmag]
  rw [hw, eq_of_not_isZero (eq_iff_exact_eq.mpr heq) hz]

theorem convert_of_isZero (q : Precision) (hx : x.isZero = true) : x.convert q = .ok zero :=
  if_pos hx

/-! ## Order -/

/-- What comes over, zeros included: the sign times the leading bits rounded. -/
theorem exact_of_convert {q : Precision} {z : Floating q} (h : x.convert q = .ok z) :
    z.exact = x.sign * roundBits q.manBits (x.moved q).magnitude := by
  by_cases hx : x.isZero = true
  · rw [convert_of_isZero q hx, Except.ok.injEq] at h
    rw [← h, sign, if_pos hx, exact_of_isZero isZero_zero]
    simp
  · rw [Bool.not_eq_true] at hx
    rw [magnitude_moved q hx]
    rcases lt_or_ge (roundBits q.manBits (cutBits q.width |x.exact|)) (2 ^ 127) with hhi | hlarge
    · obtain ⟨w, hw, -, hexact, -⟩ := exists_convert_eq_ok q hx hhi
      obtain rfl : w = z := Except.ok.inj (hw.symm.trans h)
      rw [hexact, sign, if_neg (by simp [hx]), signed]
      cases x.neg <;> simp
    · rw [convert_eq_overflow q hx hlarge] at h
      exact absurd h (by simp)

/-- **Going over keeps the order,** whatever the precisions and the signs. -/
theorem convert_mono {q : Precision} {a b : Floating q} (h : x.exact ≤ y.exact)
    (ha : x.convert q = .ok a) (hb : y.convert q = .ok b) : a.exact ≤ b.exact := by
  rw [exact_of_convert ha, exact_of_convert hb]
  apply sign_mul_mono (f := fun z => roundBits q.manBits (z.moved q).magnitude) ?_ ?_ h
  · intro z
    exact roundBits_nonneg (cutOf_moved q z).aligned.magnitude_pos.le
  · intro z w _ _ hle
    exact roundBits_mono (manBits_pos q) ((cutOf_moved q z).mono (cutOf_moved q w) hle)

/-! ## Singles and doubles -/

/-- A widened single has four clear bytes below its own. -/
theorem toBytes_widen (s : Single) : s.widen.toBytes = [0, 0, 0, 0] ++ s.toBytes := by
  -- sign and exponent are moved up with the fraction, by the same four bytes
  have hword : s.widen.toWord = s.toWord * 256 ^ 4 := by
    show s.fraction * 2 ^ 32 + (if s.neg then 2 ^ 55 else 0) + s.exponent * 2 ^ 56
      = (s.fraction + (if s.neg then 2 ^ 23 else 0) + s.exponent * 2 ^ 24) * 256 ^ 4
    cases s.neg <;> norm_num <;> ring
  rw [toBytes, hword]
  exact Bytes.ofNat_mul_pow 4 4 s.toWord

/-- `w` is the single `s` as a double: it is worth the same, it has the bits of `s` where they
count, and it is narrowed to `s` again. -/
structure IsWidened (s : Single) (w : Double) : Prop where
  exact_eq : w.exact = s.exact
  eq_widen : w.eq s.widen = true
  toBytes_eq : s.isZero = false → w.toBytes = [0, 0, 0, 0] ++ s.toBytes
  narrows : ∃ t, w.convert .single = .ok t ∧ t.eq s = true ∧ (s.isZero = false → t = s)

/-- Any zero is a zero as a double. -/
theorem isWidened_of_isZero {s : Single} {w : Double} (hs : s.isZero = true)
    (hw : w.isZero = true) : IsWidened s w := by
  have hbits : ∀ P : Prop, s.isZero = false → P := by
    intro P hnonzero
    rw [hs] at hnonzero
    exact absurd hnonzero (by simp)
  refine ⟨?_, ?_, hbits _, zero, convert_of_isZero .single hw, ?_, hbits _⟩
  · rw [exact_of_isZero hs, exact_of_isZero hw]
  · rw [eq_iff_exact_eq, exact_widen, exact_of_isZero hs, exact_of_isZero hw]
  · rw [eq_iff_exact_eq, exact_of_isZero hs, exact_of_isZero isZero_zero]

/-- **Copying the bytes widens,** whatever they hold. -/
theorem isWidened_widen (s : Single) : IsWidened s s.widen := by
  by_cases hs : s.isZero = true
  · exact isWidened_of_isZero hs hs
  · rw [Bool.not_eq_true] at hs
    refine ⟨exact_widen s, eq_self _, fun _ => toBytes_widen s, s, ?_, eq_self s, fun _ => rfl⟩
    exact convert_of_exact_eq hs hs (exact_widen s).symm

/-- **Moving the significand widens,** and ends at the same bytes unless the single is zero. -/
theorem exists_convert_double (s : Single) : ∃ w, s.convert .double = .ok w ∧ IsWidened s w := by
  by_cases hs : s.isZero = true
  · exact ⟨zero, convert_of_isZero .double hs, isWidened_of_isZero hs isZero_zero⟩
  · rw [Bool.not_eq_true] at hs
    exact ⟨s.widen, convert_of_exact_eq hs hs (exact_widen s), isWidened_widen s⟩

/-- The 32 leading bits of a double, rounded to the 24 of a single by the low eight of them, a tie
to the even significand. -/
def narrowed (x : Double) : ℚ := roundBits 24 (cutBits 32 |x.exact|)

/-- What narrowing gives for a double other than zero: the rounded leading bits with its sign,
which are not zero and hardly more than half of a last place off; or an overflow, if they are out
of range. -/
structure Narrows (x : Double) (o : Outcome Single Single) : Prop where
  stored : x.narrowed < 2 ^ 127 → ∃ t, o = .ok t ∧ t.isZero = false ∧
    t.exact = signed x.neg x.narrowed ∧
    |t.exact - x.exact| < (1 / 2 + 1 / 256) * 2 ^ ((t.exponent : ℤ) - 128 - 24)
  overflow : 2 ^ 127 ≤ x.narrowed → o = .error (.overflow (max x.neg))

/-- **Conversions between the precisions are coherent.**

* A single becomes the same double whether its bytes are copied or its significand is moved, bit
  for bit unless it is zero; that double is worth the single and is narrowed to it again.
* A double other than zero is narrowed to its 32 leading bits rounded to 24, is never taken for
  zero, and overflows exactly where the rounded number reaches `2^127`.
* Of two doubles that are narrowed the one that is not larger does not become the larger one. -/
theorem precisions_coherent :
    (∀ s : Single, IsWidened s s.widen ∧ ∃ w, s.convert .double = .ok w ∧ IsWidened s w) ∧
    (∀ x : Double, x.isZero = false → Narrows x (x.convert .single)) ∧
    ∀ (x y : Double) (a b : Single), x.exact ≤ y.exact → x.convert .single = .ok a →
      y.convert .single = .ok b → a.exact ≤ b.exact := by
  refine ⟨fun s => ⟨isWidened_widen s, exists_convert_double s⟩, ?_, ?_⟩
  · intro x hx
    exact ⟨exists_convert_eq_ok .single hx, convert_eq_overflow .single hx⟩
  · intro x y a b h ha hb
    exact convert_mono h ha hb

/-- Just above a tie, by less than the guard byte tells: the even single below is stored, although
the next one is nearer. -/
theorem precisions_coherent_false_tie :
    let x : Double := ofWord 0x8100000080000001
    let t : Single := ofWord 0x81000000
    x.isZero = false ∧ x.convert .single = .ok t ∧ t.exact = x.narrowed ∧
      1 / 2 * 2 ^ ((t.exponent : ℤ) - 128 - 24) < |t.exact - x.exact| ∧
      |t.exact - x.exact| < (1 / 2 + 1 / 256) * 2 ^ ((t.exponent : ℤ) - 128 - 24) := by
  intro x t
  have hconvert : x.convert .single = .ok t := by decide +kernel
  have hnarrows := precisions_coherent.2.1 x rfl
  have hrange := not_le.mp fun h => by
    rw [hnarrows.overflow h] at hconvert
    exact absurd hconvert (by simp)
  obtain ⟨z, hz, -, hexact, hnear⟩ := hnarrows.stored hrange
  obtain rfl : t = z := Except.ok.inj (hconvert.symm.trans hz)
  refine ⟨rfl, hconvert, hexact, ?_, hnear⟩
  norm_num [x, t, exact, isZero, ofWord, significand, Precision.manBits]

end Floating

end BasicNumerics
