/-
Whole powers.

A power is taken by repeated squaring, one bit of the exponent after another, and the last
square is not taken. So every product of a run is a power `x^i` with `i` at most the exponent
(`powBy_ends`), and what holds of products of such powers holds of the run: the sign is that of
the power, a failure is an overflow (`powNat_ends`), and if the powers up to the last one fit the
significand and the range, all products are exact (`exists_powNat_eq_ok`). That last statement is
made by running the same squarings with a multiplication that refuses every product which is not
exact.

A negative power is one over the positive one, and that is where the range shows: it reaches
further down than up. Where the positive power is just too large, its reciprocal could be stored,
and zero is given instead; where the positive power is flushed to zero, a division by zero is
reported for a base that is not zero (`pow_of_flushed`).
-/
import BasicNumerics.Proofs.Floating.Fits
import BasicNumerics.Proofs.Floating.Digits
import BasicNumerics.Proofs.Floating.InPlace

set_option autoImplicit false

namespace BasicNumerics

/-! ## Squarings over any multiplication -/

section Squarings

variable {α ε : Type}

/-- What is known of a result, and what of a failure. -/
def Ends (P : α → Prop) (E : ε → Prop) : Except ε α → Prop
  | .ok a => P a
  | .error e => E e

theorem Ends.mono {P Q : α → Prop} {E F : ε → Prop} {o : Except ε α} (h : Ends P E o)
    (hPQ : ∀ a, P a → Q a) (hEF : ∀ e, E e → F e) : Ends Q F o := by
  rcases o with e | a
  · exact hEF e h
  · exact hPQ a h

theorem Ends.bind {β : Type} {P : α → Prop} {Q : β → Prop} {E : ε → Prop} {o : Except ε α}
    {f : α → Except ε β} (h : Ends P E o) (hf : ∀ a, P a → Ends Q E (f a)) :
    Ends Q E (o >>= f) := by
  rcases o with e | a
  · exact h
  · exact hf a h

/-- `acc · base^n` by repeated squaring, whatever the multiplication is. -/
def powBy (mul : α → α → Except ε α) (acc base : α) (n : ℕ) : Except ε α :=
  if n = 0 then .ok acc
  else
    (if n % 2 = 1 then mul acc base else .ok acc) >>= fun acc =>
      if n / 2 = 0 then .ok acc else mul base base >>= fun base => powBy mul acc base (n / 2)
termination_by n
decreasing_by omega

variable {mul : α → α → Except ε α} {P : ℕ → α → Prop} {E : ε → Prop} {N : ℕ}

/-- **What one product of powers keeps, a run keeps.** With `acc` the power `i` and `base` the
power `j`, there are `i + j · n` factors in all, and no product has more than that. -/
theorem powBy_ends (hmul : ∀ {i j : ℕ} {a b : α}, i + j ≤ N → P i a → P j b →
      Ends (P (i + j)) E (mul a b)) :
    ∀ (n : ℕ) {i j : ℕ} {acc base : α}, P i acc → P j base → i + j * n = N →
      Ends (P N) E (powBy mul acc base n) := by
  intro n
  induction n using Nat.strongRecOn with
  | ind n ih =>
    intro i j acc base hacc hbase htotal
    rw [powBy]
    by_cases hzero : n = 0
    · rw [if_pos hzero]
      rw [hzero, Nat.mul_zero, Nat.add_zero] at htotal
      exact htotal ▸ hacc
    rw [if_neg hzero]
    have hbits : j * (n % 2) + j * (2 * (n / 2)) = j * n := by
      rw [← Nat.mul_add, Nat.mod_add_div]
    have hfactor : Ends (P (i + j * (n % 2))) E (if n % 2 = 1 then mul acc base else .ok acc) := by
      by_cases hodd : n % 2 = 1
      · rw [if_pos hodd, hodd, Nat.mul_one]
        have hle : j ≤ j * n := Nat.le_mul_of_pos_right j (Nat.pos_of_ne_zero hzero)
        exact hmul (by omega) hacc hbase
      · rw [if_neg hodd, show n % 2 = 0 by omega, Nat.mul_zero, Nat.add_zero]
        exact hacc
    apply hfactor.bind
    intro acc' hacc'
    by_cases hlast : n / 2 = 0
    · rw [if_pos hlast]
      have hall : i + j * (n % 2) = N := by
        rw [hlast, Nat.mul_zero] at hbits
        omega
      exact hall ▸ hacc'
    · rw [if_neg hlast]
      -- at least two factors of the base are left, so its square is one of the powers
      have hsquare : j + j ≤ j * (2 * (n / 2)) := by
        rw [← Nat.mul_two]
        exact Nat.mul_le_mul_left j (by omega)
      apply (hmul (by omega) hbase hbase).bind
      intro base' hbase'
      apply ih (n / 2) (by omega) hacc' hbase'
      have hdouble : (j + j) * (n / 2) = j * (2 * (n / 2)) := by ring
      omega

end Squarings

namespace Floating

open Scratch Rounding

variable {p : Precision} {x y : Floating p}

/-- The powers of the library are these squarings. -/
theorem powAux_eq_powBy (n : ℕ) : ∀ acc base : Floating p,
    powAux acc base n = powBy mul acc base n := by
  induction n using Nat.strongRecOn with
  | ind n ih =>
    intro acc base
    rw [powAux, powBy]
    by_cases hzero : n = 0
    · rw [if_pos hzero, if_pos hzero]
    · rw [if_neg hzero, if_neg hzero]
      simp only [ih (n / 2) (by omega)]
      by_cases hodd : n % 2 = 1
      · rw [if_pos hodd, if_pos hodd]
      · rw [if_neg hodd, if_neg hodd]

theorem powNat_eq_powBy (x : Floating p) (n : ℕ) : x.powNat n = powBy mul one x n :=
  powAux_eq_powBy n one x

theorem isZero_one : (one : Floating p).isZero = false :=
  isZero_ofInt (n := 1) one_ne_zero (by cases p <;> decide)

theorem neg_one : (one : Floating p).neg = false :=
  neg_ofInt (n := 1) one_ne_zero (by cases p <;> decide)

theorem exact_one : (one : Floating p).exact = 1 := by
  have hone : (ofInt 1 : Floating p).exact = ((1 : ℤ) : ℚ) := exact_ofInt (by cases p <;> decide)
  rwa [Int.cast_one] at hone

/-! ## Signs and failures -/

/-- Whether the power of a value is negative. -/
def powNeg (x : Floating p) (i : ℕ) : Bool := x.neg && i % 2 == 1

theorem powNeg_add (x : Floating p) (i j : ℕ) :
    (x.powNeg i != x.powNeg j) = x.powNeg (i + j) := by
  unfold powNeg
  rcases Nat.mod_two_eq_zero_or_one i with hi | hi <;>
    rcases Nat.mod_two_eq_zero_or_one j with hj | hj <;>
      cases x.neg <;> simp [Nat.add_mod, hi, hj]

end Floating

/-- What is stored has the sign of the working value, unless it is zero. -/
theorem Scratch.neg_of_pack {p : Precision} {d : Scratch p} {z : Floating p} (h : d.pack = .ok z)
    (hz : z.isZero = false) : z.neg = d.neg := by
  obtain ⟨hv, hlo, hhi, rfl⟩ := pack_eq_ok_nonzero h hz
  exact congrArg Scratch.neg (unpack_saturate hv hhi hlo.le)

/-- Storing ends in a value of that sign or in an overflow. -/
theorem Scratch.pack_ends {p : Precision} (d : Scratch p) :
    Ends (fun z : Floating p => z.isZero = false → z.neg = d.neg)
      (fun e => e = .overflow (.max d.neg)) d.pack := by
  rcases h : d.pack with e | z
  · exact pack_eq_error h
  · exact neg_of_pack h

namespace Floating

open Scratch Rounding

variable {p : Precision} {x y : Floating p}

/-- A product ends in zero, in a value that has its sign, or in an overflow. -/
theorem mul_ends (x y : Floating p) :
    Ends (fun z : Floating p => z.isZero = false →
        x.isZero = false ∧ y.isZero = false ∧ z.neg = (x.neg != y.neg))
      (fun e => ∃ s, e = .overflow s) (x.mul y) := by
  by_cases hzero : (x.isZero || y.isZero) = true
  · rw [mul, if_pos hzero]
    intro hz
    exact absurd hz (by simp)
  · rw [mul, if_neg hzero]
    rw [Bool.not_eq_true, Bool.or_eq_false_iff] at hzero
    apply (x.unpack.mul y.unpack).pack_ends.mono
    · intro z hneg hz
      exact ⟨hzero.1, hzero.2, hneg hz⟩
    · intro e he
      exact ⟨_, he⟩

/-- **A natural power has the sign of the power,** and fails only by an overflow. -/
theorem powNat_ends (x : Floating p) (n : ℕ) :
    Ends (fun z : Floating p => z.isZero = false → z.neg = x.powNeg n)
      (fun e => ∃ s, e = .overflow s) (x.powNat n) := by
  rw [powNat_eq_powBy]
  refine powBy_ends (P := fun i (z : Floating p) => z.isZero = false → z.neg = x.powNeg i)
    ?_ n (i := 0) (j := 1) ?_ ?_ (by omega)
  · intro i j a b _ ha hb
    apply (mul_ends a b).mono
    · intro z hends hz
      obtain ⟨ha0, hb0, hneg⟩ := hends hz
      rw [hneg, ha ha0, hb hb0, powNeg_add]
    · intro e he
      exact he
  · intro _
    simp [neg_one, powNeg]
  · intro _
    simp [powNeg]

theorem signed_zpow (neg : Bool) (v : ℚ) (n : ℤ) :
    signed neg v ^ n = signed (neg && n % 2 == 1) (v ^ n) := by
  cases neg
  · rfl
  · rcases Int.even_or_odd n with heven | hodd
    · simp [signed, heven.neg_zpow, Int.even_iff.mp heven]
    · simp [signed, hodd.neg_zpow, Int.odd_iff.mp hodd]

theorem decide_exact_zpow_neg (hx : x.isZero = false) (n : ℤ) :
    decide (x.exact ^ n < 0) = (x.neg && n % 2 == 1) := by
  have hpos := (unpack_aligned x).magnitude_pos
  rw [exact_eq_signed hx, signed_zpow, decide_signed_neg _ (zpow_pos hpos n)]

theorem powNeg_natAbs (x : Floating p) (n : ℤ) : x.powNeg n.natAbs = (x.neg && n % 2 == 1) := by
  have hmod : (n.natAbs % 2 == 1) = (n % 2 == 1) := by
    rw [Bool.eq_iff_iff, beq_iff_eq, beq_iff_eq]
    omega
  rw [powNeg, hmod]

theorem pow_of_powNat_eq_ok {n : ℤ} (h : x.powNat n.natAbs = .ok y) :
    x.pow n = if n < 0 then one.div y else .ok y := by
  rw [pow, h]

theorem pow_of_powNat_eq_overflow {n : ℤ} {s : Floating p}
    (h : x.powNat n.natAbs = .error (.overflow s)) :
    x.pow n = if n < 0 then .ok zero else .error (.overflow (max (x.neg && n % 2 == 1))) := by
  rw [pow, h]

/-- One over a value: the reciprocal of zero is a division by zero, and no other fails but by an
overflow of the same sign. -/
theorem one_div_ends (y : Floating p) :
    Ends (fun _ => True)
      (fun e => y.isZero = true ∧ e = .divisionByZero (max false) ∨
        y.isZero = false ∧ e = .overflow (max y.neg)) (one.div y) := by
  by_cases hy : y.isZero = true
  · rw [div, if_pos hy, neg_one]
    exact Or.inl ⟨hy, rfl⟩
  · rw [Bool.not_eq_true] at hy
    rw [div_eq_pack isZero_one hy]
    apply (one.unpack.div y.unpack).pack_ends.mono
    · intro _ _
      trivial
    · intro e he
      have hneg : (one.unpack.div y.unpack).neg = y.neg := by
        show ((one : Floating p).neg != y.neg) = y.neg
        rw [neg_one, Bool.false_bne]
      exact Or.inr ⟨hy, by rw [he, hneg]⟩

/-! ## In place -/

/-- What a run of squarings leaves, by its outcome: the power, or a failure with some product
still in the buffer. -/
def Leaves (o : Outcome (Floating p) (Floating p)) (s : Settled p) : Prop :=
  match o with
  | .ok z => s = ⟨z.buffer, none⟩
  | .error e => s.failure = some e

/-- **Squarings in place** take the products that squarings take. -/
theorem leaves_squarings (n : ℕ) : ∀ acc base : Floating p,
    Leaves (powBy mul acc base n) (Buffer.squarings acc.buffer base.buffer n) := by
  induction n using Nat.strongRecOn with
  | ind n ih =>
    intro acc base
    rw [powBy, Buffer.squarings]
    by_cases hzero : n = 0
    · rw [if_pos hzero, if_pos hzero]
      rfl
    rw [if_neg hzero, if_neg hzero]
    have hproduct : (if n % 2 = 1 then acc.buffer.mul base.buffer else ⟨acc.buffer, none⟩) =
        Outcome.settle (if n % 2 = 1 then acc.mul base else .ok acc) acc.buffer := by
      split_ifs
      · exact buffer_mul acc base
      · rfl
    simp only [hproduct]
    simp only [buffer_mul base base]
    rcases (if n % 2 = 1 then acc.mul base else .ok acc) with e | acc'
    · rfl
    show Leaves (if n / 2 = 0 then .ok acc' else base.mul base >>= fun base => _) _
    simp only [Outcome.settle]
    by_cases hlast : n / 2 = 0
    · rw [if_pos hlast, if_pos hlast]
      rfl
    rw [if_neg hlast, if_neg hlast]
    rcases base.mul base with e | base'
    · rfl
    · exact ih (n / 2) (by omega) acc' base'

/-- **A power in place** leaves what the power gives: its result, or what its failure reports,
whatever product the squarings had come to. -/
theorem buffer_pow (x : Floating p) (n : ℤ) : x.buffer.pow n = (x.pow n).settle x.buffer := by
  have hends := powNat_ends x n.natAbs
  have hleft := leaves_squarings n.natAbs one x
  rw [← powNat_eq_powBy] at hleft
  unfold Buffer.pow
  rw [Buffer.value_buffer]
  rcases h : x.powNat n.natAbs with e | y
  · rw [h] at hends hleft
    obtain ⟨s, rfl⟩ := hends
    have hfailure : (Buffer.squarings one.buffer x.buffer n.natAbs).failure = some (.overflow s) :=
      hleft
    rw [pow_of_powNat_eq_overflow h]
    simp only [hfailure]
    split_ifs <;> rfl
  · rw [h] at hleft
    have hpower : Buffer.squarings one.buffer x.buffer n.natAbs = ⟨y.buffer, none⟩ := hleft
    rw [pow_of_powNat_eq_ok h, hpower]
    simp only
    by_cases hn : n < 0
    · rw [if_pos hn, if_pos hn, buffer_div]
      -- a quotient reports a substitute if it fails, so it does not matter what was there before
      have hquotient := one_div_ends y
      rcases hdiv : one.div y with e | z
      · rw [hdiv] at hquotient
        rcases hquotient with ⟨-, rfl⟩ | ⟨-, rfl⟩ <;> rfl
      · rfl
    · rw [if_neg hn, if_neg hn]
      rfl

/-- The positive power that a negative one divides by is lost: it is stored as zero. -/
def Flushed (x : Floating p) (n : ℤ) : Prop :=
  n < 0 ∧ ∃ y, x.powNat n.natAbs = .ok y ∧ y.isZero = true

theorem pow_of_flushed {n : ℤ} (h : x.Flushed n) :
    x.pow n = .error (.divisionByZero (max false)) := by
  obtain ⟨hn, y, hy, hzero⟩ := h
  rw [pow_of_powNat_eq_ok hy, if_pos hn, div, if_pos hzero, neg_one]

/-- **How a power fails.** -/
theorem pow_ends (x : Floating p) (n : ℤ) :
    Ends (fun _ => True)
      (fun e => x.Flushed n ∧ e = .divisionByZero (max false) ∨
        e = .overflow (max (x.neg && n % 2 == 1))) (x.pow n) := by
  have hends := powNat_ends x n.natAbs
  rcases h : x.powNat n.natAbs with e | y
  · rw [h] at hends
    obtain ⟨s, rfl⟩ := hends
    rw [pow_of_powNat_eq_overflow h]
    by_cases hn : n < 0
    · rw [if_pos hn]
      trivial
    · rw [if_neg hn]
      exact Or.inr rfl
  · rw [h] at hends
    rw [pow_of_powNat_eq_ok h]
    by_cases hn : n < 0
    · rw [if_pos hn]
      apply (one_div_ends y).mono
      · intro _ _
        trivial
      · rintro e (⟨hy, rfl⟩ | ⟨hy, rfl⟩)
        · exact Or.inl ⟨⟨hn, y, h, hy⟩, rfl⟩
        · rw [hends hy, powNeg_natAbs]
          exact Or.inr rfl
    · rw [if_neg hn]
      trivial

/-- Powers of a value that is at least one stay so. -/
theorem mul_ends_of_one_le {a b : Floating p} (ha : a.isZero = false ∧ 1 ≤ a.unpack.magnitude)
    (hb : b.isZero = false ∧ 1 ≤ b.unpack.magnitude) :
    Ends (fun z : Floating p => z.isZero = false ∧ 1 ≤ z.unpack.magnitude) (fun _ => True)
      (a.mul b) := by
  have hcut := cutOf_cutProduct (unpack_aligned a) (unpack_aligned b)
  have hone : (1 : ℚ) ≤ a.unpack.magnitude * b.unpack.magnitude :=
    one_le_mul_of_one_le_of_one_le ha.2 hb.2
  rcases lt_or_ge (roundBits p.manBits (a.unpack.cutProduct b.unpack).magnitude) (2 ^ 127)
    with hlt | hge
  · have hlo : (2 : ℚ) ^ (-128 : ℤ) ≤ a.unpack.magnitude * b.unpack.magnitude :=
      le_trans (by norm_num) hone
    obtain ⟨z, hz, hnonzero, hexact, -⟩ := exists_mul_eq_ok ha.1 hb.1 hlo hlt
    have hround : (2 : ℚ) ^ (0 : ℤ) ≤ roundBits p.manBits (a.unpack.cutProduct b.unpack).magnitude :=
      two_zpow_le_roundBits (manBits_pos p)
        ((hcut.two_zpow_le_magnitude_iff 0).mpr (by simpa using hone))
    rw [zpow_zero] at hround
    rw [hz]
    refine ⟨hnonzero, ?_⟩
    rw [← abs_exact hnonzero, hexact, abs_signed]
    exact hround.trans (le_abs_self _)
  · rw [mul_eq_pack_cutProduct ha.1 hb.1, hcut.aligned.pack_of_le hge]
    trivial

theorem not_flushed_of_one_le (hx : 1 ≤ |x.exact|) (n : ℤ) : ¬x.Flushed n := by
  have hnonzero : x.isZero = false := by
    by_contra hzero
    rw [exact_of_isZero (by simpa using hzero), abs_zero] at hx
    linarith
  rintro ⟨-, y, hy, hzero⟩
  have hends : Ends (fun z : Floating p => z.isZero = false ∧ 1 ≤ z.unpack.magnitude)
      (fun _ => True) (x.powNat n.natAbs) := by
    rw [powNat_eq_powBy]
    refine powBy_ends (P := fun _ (z : Floating p) => z.isZero = false ∧ 1 ≤ z.unpack.magnitude)
      (N := n.natAbs) ?_ n.natAbs (i := 0) (j := 1) ⟨isZero_one, ?_⟩ ⟨hnonzero, ?_⟩ (by omega)
    · intro _ _ a b _ ha hb
      exact mul_ends_of_one_le ha hb
    · rw [← abs_exact isZero_one, exact_one, abs_one]
    · rwa [← abs_exact hnonzero]
  rw [hy] at hends
  rw [hends.1] at hzero
  exact absurd hzero (by simp)

/-- **How powers of a value other than zero fail.** An overflow stands in by the largest
magnitude with the sign of the power. A division by zero is reported too, though the base is not
zero: for a negative power, where the positive one it divides by was flushed to zero, and then
with the positive maximum whatever the sign. It is not reported for other powers, nor for
magnitudes from one on, and nothing else is.

In place the same is reported, and what is reported is in the buffer: where the power overflows,
no product of the squarings is left there, but the largest magnitude with the sign of the
power. -/
theorem pow_failures (hx : x.isZero = false) (n : ℤ) :
    (∀ s, x.pow n = .error (.overflow s) → s = max (decide (x.exact ^ n < 0))) ∧
    (∀ s, x.pow n = .error (.divisionByZero s) ↔ x.Flushed n ∧ s = max false) ∧
    (∀ f, x.pow n ≠ .error (.fault f)) ∧
    (0 ≤ n ∨ 1 ≤ |x.exact| → ∀ s, x.pow n ≠ .error (.divisionByZero s)) ∧
    x.buffer.pow n = (x.pow n).settle x.buffer ∧
    (∀ s, (x.buffer.pow n).failure = some (.overflow s) →
      s = max (decide (x.exact ^ n < 0)) ∧ (x.buffer.pow n).buffer = s.buffer) := by
  have hends := pow_ends x n
  rw [decide_exact_zpow_neg hx]
  have hdivision : ∀ s, x.pow n = .error (.divisionByZero s) ↔ x.Flushed n ∧ s = max false := by
    intro s
    constructor
    · intro h
      rw [h] at hends
      rcases hends with ⟨hflushed, heq⟩ | heq
      · exact ⟨hflushed, Failure.divisionByZero.inj heq⟩
      · exact absurd heq (by simp)
    · rintro ⟨hflushed, rfl⟩
      exact pow_of_flushed hflushed
  have hoverflow : ∀ s, x.pow n = .error (.overflow s) → s = max (x.neg && n % 2 == 1) := by
    intro s h
    rw [h] at hends
    rcases hends with ⟨-, heq⟩ | heq
    · exact absurd heq (by simp)
    · exact Failure.overflow.inj heq
  refine ⟨hoverflow, hdivision, ?_, ?_, buffer_pow x n, ?_⟩
  · intro f h
    rw [h] at hends
    rcases hends with ⟨-, heq⟩ | heq
    · exact absurd heq (by simp)
    · exact absurd heq (by simp)
  · rintro hsafe s h
    obtain ⟨hflushed, -⟩ := (hdivision s).mp h
    rcases hsafe with hn | hone
    · exact absurd hflushed.1 (not_lt.mpr hn)
    · exact not_flushed_of_one_le hone n hflushed
  · intro s hs
    have hpow := Outcome.error_of_settle_failure (buffer_pow x n) hs
    exact ⟨hoverflow s hpow, by rw [buffer_pow, hpow]; rfl⟩

/-- **Ten to the forty-first is past the range,** and its negative stands in with its sign, in
the report and in the buffer. -/
theorem pow_failures_overflow :
    let x : Single := ofInt (-10)
    x.isZero = false ∧ x.pow 41 = .error (.overflow (max true)) ∧
      max true = (max (decide (x.exact ^ (41 : ℤ) < 0)) : Single) ∧
      (x.buffer.pow 41).failure = some (.overflow (max true)) ∧
      (x.buffer.pow 41).buffer.bytes = [0xff, 0xff, 0xff, 0xff] := by
  intro x
  have hpow : x.pow 41 = .error (.overflow (max true)) := by decide +kernel
  have hx : x.isZero = false := rfl
  obtain ⟨hsign, -, -, -, hplace, hbuffer⟩ := pow_failures hx 41
  have hfailure : (x.buffer.pow 41).failure = some (.overflow (max true)) := by
    rw [hplace, hpow]
    rfl
  refine ⟨hx, hpow, hsign _ hpow, hfailure, ?_⟩
  rw [(hbuffer _ hfailure).2]
  rfl

/-- The base `2^-100` is not zero, and its power `-2` is a division by zero: the square that one
is divided by is flushed to zero. -/
theorem exists_pow_eq_divisionByZero :
    let x : Single := ofWord 0x1D000000
    x.isZero = false ∧ x.exact = 2 ^ (-100 : ℤ) ∧
      x.pow (-2) = .error (.divisionByZero (max false)) := by
  intro x
  refine ⟨rfl, ?_, by decide +kernel⟩
  norm_num [x, exact, isZero, ofWord, significand, Precision.manBits]

/-! ## Exact powers -/

/-- A product, refused unless it is exact. -/
def mulExactly (x y : Floating p) : Except Unit (Floating p) :=
  match x.mul y with
  | .ok z => if z.exact = x.exact * y.exact then .ok z else .error ()
  | .error _ => .error ()

theorem mulExactly_of_exact {z : Floating p} (h : x.mul y = .ok z)
    (hz : z.exact = x.exact * y.exact) : x.mulExactly y = .ok z := by
  rw [mulExactly, h]
  exact if_pos hz

/-- `z` is the power `x^i`, exactly, and was not lost. -/
def IsPower (x : Floating p) (i : ℕ) (z : Floating p) : Prop :=
  z.isZero = false ∧ z.exact = x.exact ^ i

theorem isPower_zero (x : Floating p) : x.IsPower 0 one :=
  ⟨isZero_one, by rw [exact_one, pow_zero]⟩

theorem isPower_one (hx : x.isZero = false) : x.IsPower 1 x :=
  ⟨hx, (pow_one _).symm⟩

/-- One power of a base other than zero has one representation. -/
theorem IsPower.unique {i : ℕ} {z w : Floating p} (hz : x.IsPower i z) (hw : x.IsPower i w) :
    z = w :=
  eq_of_not_isZero (eq_iff_exact_eq.mpr (hz.2.trans hw.2.symm)) hz.1

/-- The powers of `x` up to `x^n` fit the significand, and none is below the range. -/
def PowersFit (x : Floating p) (n : ℕ) : Prop :=
  ∀ i ≤ n, Fits p.manBits (|x.exact| ^ i) ∧ 2 ^ (-128 : ℤ) ≤ |x.exact| ^ i

/-- Powers lie between one and the last of them. -/
theorem powersFit_of_pow_lt {m n : ℕ} {k : ℤ} (hx : |x.exact| = m * 2 ^ k) (hm : m ≠ 0)
    (hbits : m ^ n < 2 ^ p.manBits) (hlo : 2 ^ (-128 : ℤ) ≤ |x.exact| ^ n) : x.PowersFit n := by
  intro i hi
  refine ⟨⟨m ^ i, k * i, ?_, ?_⟩, ?_⟩
  · exact (Nat.pow_le_pow_right (Nat.pos_of_ne_zero hm) hi).trans_lt hbits
  · rw [hx, mul_pow, zpow_mul, zpow_natCast]
    push_cast
    rfl
  · rcases le_total 1 |x.exact| with hone | hone
    · exact le_trans (by norm_num) (one_le_pow₀ hone)
    · exact hlo.trans (pow_le_pow_of_le_one (abs_nonneg _) hone hi)

/-- **One product of powers that fit:** it is exact, or past the range, and then so is the last
power. -/
theorem IsPower.mul_ends {i j n : ℕ} {a b : Floating p} (hfit : x.PowersFit n) (hij : i + j ≤ n)
    (ha : x.IsPower i a) (hb : x.IsPower j b) :
    Ends (x.IsPower (i + j)) (fun e => (∃ s, e = .overflow s) ∧ 2 ^ 127 ≤ |x.exact| ^ n)
      (a.mul b) := by
  have hmag : a.unpack.magnitude * b.unpack.magnitude = |x.exact| ^ (i + j) := by
    rw [← abs_exact ha.1, ← abs_exact hb.1, ha.2, hb.2, abs_pow, abs_pow, pow_add]
  obtain ⟨hfits, hlo⟩ := hfit (i + j) hij
  rw [← hmag] at hfits hlo
  rcases lt_or_ge (a.unpack.magnitude * b.unpack.magnitude) (2 ^ 127) with hlt | hge
  · obtain ⟨z, hz, hnonzero, hexact⟩ := exists_mul_eq_ok_of_fits ha.1 hb.1 hfits hlo hlt
    rw [hz]
    exact ⟨hnonzero, by rw [hexact, ha.2, hb.2, pow_add]⟩
  · rw [mul_eq_overflow ha.1 hb.1 hge]
    refine ⟨⟨_, rfl⟩, ?_⟩
    rw [hmag] at hge
    have hone : 1 ≤ |x.exact| := by
      by_contra hlt
      have hle : |x.exact| ^ (i + j) ≤ 1 := pow_le_one₀ (abs_nonneg _) (not_le.mp hlt).le
      linarith
    exact hge.trans (pow_le_pow_right₀ hone hij)

/-- **A natural power whose powers fit** is exact, or past the range. -/
theorem powNat_ends_of_powersFit {n : ℕ} (hx : x.isZero = false) (hfit : x.PowersFit n) :
    Ends (x.IsPower n) (fun e => (∃ s, e = .overflow s) ∧ 2 ^ 127 ≤ |x.exact| ^ n)
      (x.powNat n) := by
  rw [powNat_eq_powBy]
  apply powBy_ends _ n x.isPower_zero (isPower_one hx) (by omega)
  intro i j a b hij ha hb
  exact ha.mul_ends hfit hij hb

/-- In range the run is exact at every product. -/
theorem exists_powNat_eq_ok {n : ℕ} (hx : x.isZero = false) (hfit : x.PowersFit n)
    (hhi : |x.exact| ^ n < 2 ^ 127) :
    ∃ z, x.powNat n = .ok z ∧ x.IsPower n z ∧ powBy mulExactly one x n = .ok z := by
  have hends := powNat_ends_of_powersFit hx hfit
  have hexactly : Ends (x.IsPower n) (fun _ => False) (powBy mulExactly one x n) := by
    apply powBy_ends _ n x.isPower_zero (isPower_one hx) (by omega)
    intro i j a b hij ha hb
    have hproduct := ha.mul_ends hfit hij hb
    rcases h : a.mul b with e | z
    · rw [h] at hproduct
      exact absurd hproduct.2 (not_le.mpr hhi)
    · rw [h] at hproduct
      have hz : z.exact = a.exact * b.exact := by rw [hproduct.2, ha.2, hb.2, pow_add]
      rw [mulExactly_of_exact h hz]
      exact hproduct
  rcases h : x.powNat n with e | z
  · rw [h] at hends
    exact absurd hends.2 (not_le.mpr hhi)
  · rw [h] at hends
    rcases h' : powBy mulExactly one x n with e | w
    · rw [h'] at hexactly
      exact hexactly.elim
    · rw [h'] at hexactly
      exact ⟨z, rfl, hends, by rw [hexactly.unique hends]⟩

theorem isZero_of_exact_eq {neg : Bool} {v : ℚ} (hx : x.exact = signed neg v) (hv : v ≠ 0) :
    x.isZero = false := by
  by_contra hzero
  have habs : |x.exact| = |v| := by rw [hx, abs_signed]
  rw [exact_of_isZero (by simpa using hzero), abs_zero] at habs
  exact hv (abs_eq_zero.mp habs.symm)

/-- **A power that fits is exact.** For `x = ± m · 2^k`, where `m` may be taken odd: if `m^n` has
no more bits than the significand and `x^n` is in range, the power is exact, and so is every
square and every product on the way to it: the squarings that make up a power (`powNat_eq_powBy`)
come to the same value with a multiplication that refuses what is not exact. -/
theorem pow_of_fits {m n : ℕ} {k : ℤ} {neg : Bool} (hm : m ≠ 0)
    (hx : x.exact = signed neg (m * 2 ^ k)) (hbits : m ^ n < 2 ^ p.manBits)
    (hlo : 2 ^ (-128 : ℤ) ≤ |x.exact| ^ n) (hhi : |x.exact| ^ n < 2 ^ 127) :
    ∃ z, x.pow n = .ok z ∧ z.exact = x.exact ^ n ∧ powBy mulExactly one x n = .ok z := by
  have hpos : (0 : ℚ) < m * 2 ^ k := mul_pos (by exact_mod_cast Nat.pos_of_ne_zero hm)
    (zpow_pos two_pos k)
  have hnonzero := isZero_of_exact_eq hx hpos.ne'
  have habs : |x.exact| = m * 2 ^ k := by rw [hx, abs_signed, abs_of_pos hpos]
  obtain ⟨z, hz, hpower, hexactly⟩ :=
    exists_powNat_eq_ok hnonzero (powersFit_of_pow_lt habs hm hbits hlo) hhi
  refine ⟨z, ?_, hpower.2, hexactly⟩
  rw [pow_of_powNat_eq_ok (y := z) hz, if_neg (by omega)]

/-- A power that leaves no room: one more factor of three would not fit, so neither would the
square that is not taken. -/
theorem pow_of_fits_fifteenth :
    let x : Single := ofWord 0x79C00000
    x.exact = signed true ((3 : ℕ) * 2 ^ (-9 : ℤ)) ∧ 3 ^ 15 < 2 ^ 24 ∧ 2 ^ 24 < 3 ^ 16 ∧
      ∃ z, x.pow (15 : ℕ) = .ok z ∧ z.exact = x.exact ^ 15 ∧
        powBy mulExactly one x 15 = .ok z := by
  intro x
  have hx : x.exact = signed true ((3 : ℕ) * 2 ^ (-9 : ℤ)) := by
    norm_num [x, exact, isZero, neg, ofWord, significand, Precision.manBits, signed]
  have habs : |x.exact| = 3 / 2 ^ 9 := by
    rw [hx, abs_signed]
    norm_num
  refine ⟨hx, by norm_num, by norm_num, ?_⟩
  apply pow_of_fits (m := 3) (k := -9) (by norm_num) hx
  · norm_num [Precision.manBits]
  · rw [habs]
    norm_num
  · rw [habs]
    norm_num

/-! ## Reciprocals -/

theorem zpow_eq_one_div_pow {v : ℚ} {n : ℤ} (hn : n < 0) : v ^ n = 1 / v ^ n.natAbs := by
  rw [one_div, ← zpow_natCast, ← zpow_neg]
  congr 1
  omega

/-- **A negative power is exact** if the positive one is, and if it fits itself. -/
theorem exists_pow_neg_eq_ok {n : ℤ} (hn : n < 0) (hx : x.isZero = false)
    (hfit : x.PowersFit n.natAbs) (hpos : |x.exact| ^ n.natAbs < 2 ^ 127)
    (hinv : Fits p.manBits (|x.exact| ^ n)) (hlo : 2 ^ (-128 : ℤ) ≤ |x.exact| ^ n)
    (hhi : |x.exact| ^ n < 2 ^ 127) : ∃ z, x.pow n = .ok z ∧ z.exact = x.exact ^ n := by
  obtain ⟨y, hy, hpower, -⟩ := exists_powNat_eq_ok hx hfit hpos
  have hquot : |x.exact| ^ n = (one : Floating p).unpack.magnitude / y.unpack.magnitude := by
    rw [zpow_eq_one_div_pow hn, ← abs_exact isZero_one, ← abs_exact hpower.1, exact_one, hpower.2,
      abs_one, abs_pow]
  rw [hquot] at hinv hlo hhi
  obtain ⟨z, hz, -, hexact⟩ := exists_div_eq_ok_of_fits isZero_one hpower.1 hinv hlo hhi
  refine ⟨z, ?_, ?_⟩
  · rw [pow_of_powNat_eq_ok hy, if_pos hn, hz]
  · rw [hexact, exact_one, hpower.2, zpow_eq_one_div_pow hn]

/-- **A negative power is zero** if the positive one is past the range. -/
theorem pow_neg_eq_zero {n : ℤ} (hn : n < 0) (hx : x.isZero = false)
    (hfit : x.PowersFit n.natAbs) (hpast : 2 ^ 127 ≤ |x.exact| ^ n.natAbs) :
    x.pow n = .ok zero := by
  have hends := powNat_ends_of_powersFit hx hfit
  rcases h : x.powNat n.natAbs with e | y
  · rw [h] at hends
    obtain ⟨⟨s, rfl⟩, -⟩ := hends
    rw [pow_of_powNat_eq_overflow h, if_pos hn]
  · -- no value is as large as this power
    rw [h] at hends
    have hlt := y.magnitude_lt_two_pow
    rw [← abs_exact hends.1, hends.2, abs_pow] at hlt
    exact absurd hpast (not_le.mpr hlt)

theorem two_zpow_lt_top_iff (e : ℤ) : (2 : ℚ) ^ e < 2 ^ 127 ↔ e < 127 := by
  have hcast : (2 : ℚ) ^ 127 = 2 ^ (127 : ℤ) := by norm_cast
  rw [hcast, zpow_lt_zpow_iff_right₀ one_lt_two]

/-- **Negative powers of a power of two** are exact where the positive power is in range. The two
least results have reciprocals past the range: there the power is zero, though `2^-127` and
`2^-128` can be stored. -/
theorem pow_neg_of_two_zpow {k n : ℤ} {neg : Bool} (hx : x.exact = signed neg (2 ^ k))
    (hn : n < 0) (hlo : -128 ≤ k * n) (hhi : k * n ≤ 126) :
    (-126 ≤ k * n → ∃ z, x.pow n = .ok z ∧ z.exact = x.exact ^ n) ∧
    (k * n < -126 → x.pow n = .ok zero) := by
  have hpos : (0 : ℚ) < 2 ^ k := zpow_pos two_pos k
  have hnonzero := isZero_of_exact_eq hx hpos.ne'
  have habs : |x.exact| = 2 ^ k := by rw [hx, abs_signed, abs_of_pos hpos]
  have hneg : |x.exact| ^ n = 2 ^ (k * n) := by rw [habs, ← zpow_mul]
  have hpow : |x.exact| ^ n.natAbs = 2 ^ (-(k * n)) := by
    rw [habs, ← zpow_natCast, ← zpow_mul, show ((n.natAbs : ℕ) : ℤ) = -n by omega, mul_neg]
  have hone : 1 < 2 ^ p.manBits := Nat.one_lt_two_pow (manBits_pos p).ne'
  have hfit : x.PowersFit n.natAbs := by
    apply powersFit_of_pow_lt (m := 1) (k := k) (by rw [habs, Nat.cast_one, one_mul]) one_ne_zero
    · rwa [one_pow]
    · rw [hpow]
      exact zpow_le_zpow_right₀ one_le_two (by omega)
  constructor
  · intro hfew
    apply exists_pow_neg_eq_ok hn hnonzero hfit
    · rw [hpow, two_zpow_lt_top_iff]
      omega
    · rw [hneg]
      exact ⟨1, k * n, hone, by rw [Nat.cast_one, one_mul]⟩
    · rw [hneg]
      exact zpow_le_zpow_right₀ one_le_two hlo
    · rw [hneg, two_zpow_lt_top_iff]
      omega
  · intro hmany
    apply pow_neg_eq_zero hn hnonzero hfit
    rw [hpow, ← not_lt, two_zpow_lt_top_iff]
    omega

/-- The least power that one is divided for. -/
theorem pow_neg_of_two_zpow_least :
    let x : Single := ofWord 0xAB800000
    x.exact = signed true (2 ^ (42 : ℤ)) ∧
      ∃ z, x.pow (-3) = .ok z ∧ z.exact = x.exact ^ (-3 : ℤ) := by
  intro x
  have hx : x.exact = signed true (2 ^ (42 : ℤ)) := by
    norm_num [x, exact, isZero, neg, ofWord, significand, Precision.manBits, signed]
  exact ⟨hx, (pow_neg_of_two_zpow hx (by norm_num) (by norm_num) (by norm_num)).1 (by norm_num)⟩

/-- The power `2^-127` is given as zero, and it is the value of the word `02000000`. -/
theorem two_pow_neg_eq_zero :
    let x : Single := ofInt 2
    let z : Single := ofWord 0x02000000
    x.exact = 2 ∧ z.isZero = false ∧ z.exact = x.exact ^ (-127 : ℤ) ∧ x.pow (-127) = .ok zero := by
  intro x z
  have hx : x.exact = ((2 : ℤ) : ℚ) := exact_ofInt (by decide)
  refine ⟨by rw [hx, Int.cast_ofNat], rfl, ?_, by decide +kernel⟩
  rw [hx]
  norm_num [z, exact, isZero, ofWord, significand, Precision.manBits]

end Floating

end BasicNumerics
