/-
Buffers are ordered byte by byte.

With the sign bit left out, the bytes of a value are those of its magnitude with the exponent on
top (`unsignedByte_buffer`), so a walk from the last byte down compares the two words, as one
compares numerals of one length digit by digit (`compareBelow_buffer`). A greater word is a
greater exponent, or the same one and a greater fraction: what the walk finds is the order of the
magnitudes.
-/
import BasicNumerics.Proofs.Floating.InPlace

set_option autoImplicit false

namespace BasicNumerics

/-! ## Higher digits first -/

theorem compare_byte (a b : UInt8) : compare a b = compare a.toNat b.toNat := by
  simp only [compare, compareOfLessAndEq, UInt8.lt_iff_toNat_lt, ← UInt8.toNat_inj]

theorem add_mul_lt_add_mul {N a b c d : ℕ} (ha : a < N) (h : c < d) : a + N * c < b + N * d := by
  have hstep : N * (c + 1) ≤ N * d := Nat.mul_le_mul_left N h
  rw [Nat.mul_add_one] at hstep
  omega

/-- Higher digits decide, and the lower ones only where these are equal. -/
theorem compare_above {N a b : ℕ} (ha : a < N) (hb : b < N) (c d : ℕ) :
    compare (a + N * c) (b + N * d) =
      match compare c d with
      | .eq => compare a b
      | order => order := by
  rcases lt_trichotomy c d with hlt | rfl | hgt
  · rw [Nat.compare_eq_lt.mpr hlt]
    exact Nat.compare_eq_lt.mpr (add_mul_lt_add_mul ha hlt)
  · rw [Nat.compare_eq_eq.mpr rfl, ← cmp_eq_compare, ← cmp_eq_compare]
    exact cmp_add_right a b (N * c)
  · rw [Nat.compare_eq_gt.mpr hgt]
    exact Nat.compare_eq_gt.mpr (add_mul_lt_add_mul hb hgt)

/-- A greater word is a greater exponent, or the same one and a greater fraction. -/
theorem Floating.magnitudeGt_iff_toWord_lt {p : Precision} (x y : Floating p) :
    x.magnitudeGt y = true ↔ y.abs.toWord < x.abs.toWord := by
  have hword : ∀ z : Floating p, z.abs.toWord = z.fraction + 2 ^ p.manBits * z.exponent := by
    intro z
    simp only [toWord, abs, Bool.false_eq_true, if_false]
    ring
  have hfraction : ∀ z : Floating p, z.fraction < 2 ^ p.manBits := by
    intro z
    have hlt := z.fraction_lt
    rw [p.two_pow_manBits]
    omega
  simp only [magnitudeGt, Bool.or_eq_true, Bool.and_eq_true, decide_eq_true_eq, beq_iff_eq, hword]
  rcases lt_trichotomy y.exponent x.exponent with hlt | heq | hgt
  · exact iff_of_true (Or.inl hlt) (add_mul_lt_add_mul (hfraction y) hlt)
  · rw [heq]
    omega
  · exact iff_of_false (by omega) (add_mul_lt_add_mul (hfraction x) hgt).not_gt

/-! ## The walk -/

namespace Buffer

variable {p : Precision} (x y : Floating p)

theorem byte_buffer {i : ℕ} (h : i < p.size) :
    x.buffer.byte i = UInt8.ofNat (x.toWord / 256 ^ i) := by
  have hlength : i < (Bytes.ofNat p.size x.toWord).length := by
    rw [Bytes.length_ofNat]
    exact h
  exact (List.getD_eq_getElem _ _ hlength).trans (Bytes.getElem_ofNat hlength)

/-- **Without the sign bit the bytes are those of the magnitude.** -/
theorem unsignedByte_buffer {i : ℕ} (h : i < p.size) :
    x.buffer.unsignedByte i = UInt8.ofNat (x.abs.toWord / 256 ^ i) := by
  have hmask : ∀ (neg : Bool) (byte : UInt8), signByte neg byte &&& 0x7f = signByte false byte := by
    have hbits : ∀ (neg : Bool) (byte : BitVec 8),
        signByte neg (.ofBitVec byte) &&& 0x7f = signByte false (.ofBitVec byte) := by decide
    exact fun neg byte => hbits neg byte.toBitVec
  rw [unsignedByte, byte_buffer x h]
  have hcases : i < p.size - 2 ∨ i = p.size - 2 ∨ i = p.size - 1 := by
    have hsize := p.two_le_size
    omega
  rcases hcases with hlow | rfl | rfl
  · rw [if_neg hlow.ne, x.byte_of_lt hlow, x.abs.byte_of_lt hlow]
    rfl
  · rw [if_pos rfl, x.byte_sign, x.abs.byte_sign, hmask]
    rfl
  · have hsize := p.two_le_size
    rw [if_neg (by omega), x.byte_exponent, x.abs.byte_exponent]
    rfl

/-- **The first bytes that differ decide:** the walk compares what the bytes below denote. -/
theorem compareBelow_buffer {n : ℕ} (h : n ≤ p.size) :
    x.buffer.compareBelow y.buffer n
      = compare (x.abs.toWord % 256 ^ n) (y.abs.toWord % 256 ^ n) := by
  induction n with
  | zero => rw [Nat.pow_zero, Nat.mod_one, Nat.mod_one, compareBelow, Nat.compare_eq_eq.mpr rfl]
  | succ i ih =>
    have hbyte : ∀ w : ℕ, (UInt8.ofNat w).toNat = w % 256 := fun w => UInt8.toNat_ofNat'
    rw [compareBelow, ih (by omega), unsignedByte_buffer x h, unsignedByte_buffer y h,
      compare_byte, hbyte, hbyte, Nat.mod_pow_succ, Nat.mod_pow_succ]
    exact (compare_above (Nat.mod_lt _ (by positivity)) (Nat.mod_lt _ (by positivity)) _ _).symm

theorem compareMagnitude_buffer :
    x.buffer.compareMagnitude y.buffer = compare x.abs.toWord y.abs.toWord := by
  rw [compareMagnitude, compareBelow_buffer x y le_rfl, Nat.mod_eq_of_lt x.abs.toWord_lt,
    Nat.mod_eq_of_lt y.abs.toWord_lt]

/-- **The walk finds the greater magnitude,** on either side. -/
theorem magnitudeGt_buffer :
    (x.buffer.compareMagnitude y.buffer == .gt) = x.magnitudeGt y ∧
      (x.buffer.compareMagnitude y.buffer == .lt) = y.magnitudeGt x := by
  rw [compareMagnitude_buffer]
  constructor
  · rw [Bool.eq_iff_iff, beq_iff_eq, Nat.compare_eq_gt, Floating.magnitudeGt_iff_toWord_lt]
  · rw [Bool.eq_iff_iff, beq_iff_eq, Nat.compare_eq_lt, Floating.magnitudeGt_iff_toWord_lt]

theorem isZero_buffer : x.buffer.isZero = x.isZero := by
  have hsize := p.two_le_size
  have hlt := x.exponent_lt
  rw [isZero, byte_buffer x (by omega), x.byte_exponent, Floating.isZero, Bool.eq_iff_iff,
    beq_iff_eq, beq_iff_eq, ← UInt8.toNat_inj, UInt8.toNat_ofNat', Nat.mod_eq_of_lt hlt]
  rfl

theorem isNegative_buffer : x.buffer.isNegative = x.neg := by
  have hsize := p.two_le_size
  have htop : ∀ (neg : Bool) (byte : BitVec 8),
      (signByte neg (.ofBitVec byte) &&& 0x80 != 0) = neg := by decide
  rw [isNegative, byte_buffer x (by omega), x.byte_sign]
  exact htop x.neg (UInt8.ofNat _).toBitVec

theorem sign_buffer : x.buffer.sign = x.sign := by
  rw [sign, isZero_buffer, isNegative_buffer, Floating.sign]

/-- **A buffer is greater exactly if its value is.** -/
theorem gt_buffer : x.buffer.gt y.buffer = x.gt y := by
  obtain ⟨hgreater, hless⟩ := magnitudeGt_buffer x y
  rw [gt, sign_buffer, sign_buffer, hgreater, hless, Floating.gt]

/-- **Buffers are equal as numbers exactly if their values are.** -/
theorem eq_buffer : x.buffer.eq y.buffer = x.eq y := by
  have hbytes : (x.buffer.bytes == y.buffer.bytes) = (x == y) := by
    rw [Bool.eq_iff_iff, beq_iff_eq, beq_iff_eq]
    constructor
    · intro h
      have hbuffer : x.buffer = y.buffer := Buffer.ext h
      rw [← value_buffer x, hbuffer, value_buffer]
    · rintro rfl
      rfl
  rw [eq, isZero_buffer, isZero_buffer, Floating.eq, hbytes]
  cases x.isZero <;> cases y.isZero <;> rfl

end Buffer

end BasicNumerics
