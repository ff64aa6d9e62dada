/-
The machine in place does what arithmetic says.

`Held.storeInto` gets to what is stored with small moves on a buffer that already holds
something, and `pack` says in one step what that is. Aligning does not see a single move in
either direction (`align_moveUp`, `align_moveDown`), so it does not see the two loops, and where
they end nothing is left to align (`cutDown_fillUp_held`). Taking the low 32 bits of an exponent
goes through every move, whether it wraps or not; only the last look at the exponent needs that
it did not. Each byte of a value is one that the machine writes (`write_eq_buffer`).

So the machine leaves in any buffer what `pack` stores or reports (`Held.storeInto_eq`), and the
operations in place leave what the operations on values give. Their working values are far from
the ends of the word (`WithinWord`).
-/
import BasicNumerics.Floating.InPlace
import BasicNumerics.Proofs.Floating.Storing
import Mathlib.Data.Nat.Bitwise

set_option autoImplicit false

namespace BasicNumerics

/-! ## Low bits -/

namespace Rounding

/-- **Sticky cuts add up:** the bit that stands for what was dropped is itself dropped as a bit
that is set. -/
theorem sticky_sticky (m j k : ℕ) : sticky (sticky m j) k = sticky m (j + k) := by
  cases k with
  | zero => simp [sticky, Nat.mod_one]
  | succ k =>
    have hpow : 2 ^ (k + 1) = 2 * 2 ^ k := Nat.pow_succ'
    -- the bit goes to an even number, so all above it stay as they are
    have hhalf : sticky m j / 2 = m / 2 ^ j / 2 := by
      unfold sticky
      split <;> omega
    have hlow : sticky m j % 2 = 0 ↔ m % 2 ^ j = 0 ∧ m / 2 ^ j % 2 = 0 := by
      unfold sticky
      split <;> omega
    have hdropped : sticky m j % 2 ^ (k + 1) ≠ 0 ↔ m % 2 ^ (j + (k + 1)) ≠ 0 := by
      have hj := (Nat.two_pow_pos j).ne'
      rw [Nat.pow_add 2 j, Nat.mod_mul, hpow, Nat.mod_mul, Nat.mod_mul, hhalf]
      simp only [ne_eq, Nat.add_eq_zero_iff, Nat.mul_eq_zero, hj, hlow, false_or, and_assoc]
    have hkept : sticky m j / 2 ^ (k + 1) = m / 2 ^ (j + (k + 1)) := by
      rw [Nat.pow_add 2 j, ← Nat.div_div_eq_div_mul, hpow, ← Nat.div_div_eq_div_mul,
        ← Nat.div_div_eq_div_mul, hhalf]
    generalize sticky m j = n at hdropped hkept
    simp only [sticky, hkept, hdropped]

theorem and_guard (m : ℕ) : m &&& 0xff = m % 256 := Nat.and_two_pow_sub_one_eq_mod m 8

theorem and_above_guard (m : ℕ) : m &&& 0x100 ≠ 0 ↔ m / 256 % 2 = 1 := by
  have hbit : m &&& 0x100 = (m.testBit 8).toNat * 2 ^ 8 := Nat.and_two_pow m 8
  rw [hbit, Nat.testBit_eq_decide_div_mod_eq]
  simp

end Rounding

open Rounding

/-! ## Bit by bit -/

namespace Scratch

variable {p : Precision} {d : Scratch p}

/-- One bit up. -/
def moveUp (d : Scratch p) : Scratch p := { d with man := d.man * 2, exp := d.exp - 1 }

/-- One bit down, what falls off kept in the lowest one. -/
def moveDown (d : Scratch p) : Scratch p := { d with man := sticky d.man 1, exp := d.exp + 1 }

theorem held_moveUp (d : Scratch p) : d.moveUp.held = d.held.moveUp := by
  simp only [held, moveUp, Held.moveUp, Nat.shiftLeft_eq, Int32.ofInt_sub]
  rfl

theorem held_moveDown (d : Scratch p) : d.moveDown.held = d.held.moveDown := by
  simp only [held, moveDown, Held.moveDown, shiftRight_or_eq_sticky, Int32.ofInt_add]
  rfl

/-- **Aligning does not see a move up.** -/
theorem align_moveUp (h0 : d.man ≠ 0) (h : d.man < 2 ^ (p.width - 1)) :
    d.moveUp.align = d.align := by
  have hman : d.moveUp.man = d.man * 2 := rfl
  have hbits : bitLength d.moveUp.man = bitLength d.man + 1 := by
    obtain ⟨b, hb⟩ : ∃ b, bitLength d.man = b + 1 :=
      Nat.exists_eq_succ_of_ne_zero (bitLength_pos h0).ne'
    have hlo := two_pow_le_of_pos (Nat.pos_of_ne_zero h0)
    have hhi := lt_two_pow_bitLength d.man
    rw [hb, Nat.add_sub_cancel] at hlo
    rw [hb] at hhi
    rw [hb, hman]
    apply bitLength_eq
    · rw [Nat.pow_succ]
      omega
    · rw [Nat.pow_succ]
      omega
  have hshort := bitLength_le h
  have hwidth := p.width_pos
  have hne : d.moveUp.man ≠ 0 := by omega
  rw [Scratch.mk.injEq, align_exp hne, align_exp h0, align_neg, align_neg,
    align_man_of_le hne (by omega), align_man_of_le h0 (by omega), hbits, hman]
  refine ⟨?_, ?_, rfl⟩
  · show d.exp - 1 + _ - _ = _
    push_cast
    omega
  · rw [show p.width - bitLength d.man = p.width - (bitLength d.man + 1) + 1 by omega,
      Nat.pow_succ']
    ring

/-- **Aligning does not see a move down:** it would have dropped that bit itself. -/
theorem align_moveDown (h : 2 ^ p.width ≤ d.man) : d.moveDown.align = d.align := by
  have hlong := lt_bitLength h
  have hne : d.man ≠ 0 := man_ne_zero_of_width_le hlong.le
  obtain ⟨b, hb⟩ : ∃ b, bitLength d.man = b + 2 := ⟨bitLength d.man - 2, by
    have := p.two_le_width
    omega⟩
  have hbits : bitLength d.moveDown.man = b + 1 := by
    have hlo := two_pow_le_of_pos (Nat.pos_of_ne_zero hne)
    have hhi := lt_two_pow_bitLength d.man
    rw [hb] at hlo hhi
    have hmem := sticky_mem (m := d.man) (k := 1) (w := b) hlo hhi
    exact bitLength_eq hmem.1 hmem.2
  have hge : p.width ≤ bitLength d.moveDown.man := by omega
  rw [Scratch.mk.injEq, align_exp (man_ne_zero_of_width_le hge), align_exp hne, align_neg,
    align_neg, align_man_of_ge hge, align_man_of_ge hlong.le, hbits, hb,
    show d.moveDown.man = sticky d.man 1 from rfl, sticky_sticky]
  refine ⟨?_, ?_, rfl⟩
  · show d.exp + 1 + _ - _ = _
    push_cast
    omega
  · -- one bit and the rest of them are all that aligning drops at once
    congr 1
    omega

/-- Moving down does not fall below the top of the width, and leaves nothing to align. -/
theorem cutDown_held (h : 2 ^ (p.width - 1) ≤ d.man) : d.held.cutDown = d.align.held := by
  generalize hd : d.held = e
  fun_induction Held.cutDown e generalizing d with
  | case1 e hlong ih =>
    subst hd
    have hw := p.two_pow_width
    have hw1 := p.two_pow_width_sub_one
    have hbounds := (sticky_bounds d.man 1).2
    have hlong' : 2 ^ p.width ≤ d.man := hlong
    have hman : d.moveDown.man = sticky d.man 1 := rfl
    rw [← align_moveDown hlong']
    exact ih (by omega) d.held_moveDown
  | case2 e hshort =>
    subst hd
    have haligned : d.Aligned := ⟨h, not_le.mp hshort⟩
    rw [haligned.align_eq]

/-- **The two loops align.** -/
theorem cutDown_fillUp_held (h : d.man ≠ 0) : d.held.fillUp.cutDown = d.align.held := by
  generalize hd : d.held = e
  fun_induction Held.fillUp e generalizing d with
  | case1 e hshort ih =>
    subst hd
    have hman : d.moveUp.man = d.man * 2 := rfl
    rw [← align_moveUp h hshort.2]
    exact ih (by omega) d.held_moveUp
  | case2 e hfull =>
    subst hd
    apply cutDown_held
    by_contra hshort
    exact hfull ⟨h, not_le.mp hshort⟩

/-- The masks round the guard byte to even. -/
theorem roundMask_eq (m : ℕ) : Held.roundMask m = nearestEven m 8 * 256 := by
  simp only [Held.roundMask, and_guard, and_above_guard, Nat.shiftLeft_eq,
    Nat.shiftRight_eq_div_pow, nearestEven, Nat.reducePow]
  split_ifs <;> omega

theorem roundGuard_held (h : d.Aligned) :
    d.held.roundGuard = held { exp := d.round.2, man := d.round.1 * 256, neg := d.neg } := by
  have hw := p.two_pow_width_eq_mul
  have hm := p.two_pow_manBits
  have hmem := nearestEven_mem_of_aligned h
  simp only [Held.roundGuard, round, held, roundMask_eq]
  -- there is a carry only if the rounded significand is one past its bits
  by_cases hcarry : nearestEven d.man 8 = 2 ^ p.manBits
  · have hhalf : 2 ^ p.manBits * 256 / 2 = 2 ^ (p.manBits - 1) * 256 := by omega
    rw [if_pos hcarry, if_pos (by omega), hcarry, Nat.shiftRight_one, hhalf, Int32.ofInt_add]
    rfl
  · rw [if_neg hcarry, if_neg (by omega)]

end Scratch

/-! ## Byte by byte -/

namespace Bytes

/-- Each byte is a digit to the base 256. -/
theorem getElem_ofNat {width n i : ℕ} (h : i < (ofNat width n).length) :
    (ofNat width n)[i] = UInt8.ofNat (n / 256 ^ i) := by
  induction width generalizing n i with
  | zero => simp at h
  | succ width ih =>
    cases i with
    | zero => simp [ofNat]
    | succ i =>
      simp only [ofNat, List.getElem_cons_succ]
      rw [ih, Nat.div_div_eq_div_mul, Nat.pow_succ']

/-- What stands above a byte does not show in it. -/
theorem ofNat_mul_add_div (a k i : ℕ) :
    UInt8.ofNat ((256 ^ (i + 1) * k + a) / 256 ^ i) = UInt8.ofNat (a / 256 ^ i) := by
  have hpos : 0 < 256 ^ i := Nat.pow_pos (by norm_num)
  apply UInt8.toNat_inj.mp
  rw [Nat.pow_succ, Nat.mul_assoc, Nat.mul_add_div hpos]
  simp

end Bytes

namespace Precision

theorem two_le_size (p : Precision) : 2 ≤ p.size := by
  cases p <;> decide

theorem two_pow_manBits_eq_bytes (p : Precision) : 2 ^ p.manBits = 256 ^ (p.size - 1) := by
  cases p <;> decide

/-- The leading one is the top bit of the byte before the last. -/
theorem two_pow_leading (p : Precision) : 2 ^ (p.manBits - 1) = 256 ^ (p.size - 2) * 128 := by
  cases p <;> decide

end Precision

/-- Every word of the size of a buffer is the word of a value. -/
theorem Floating.toWord_ofWord {p : Precision} {w : ℕ} (h : w < 256 ^ p.size) :
    (ofWord w : Floating p).toWord = w := by
  have hsize : 256 ^ p.size = 256 * (2 * 2 ^ (p.manBits - 1)) := by cases p <;> decide
  have hm := p.two_pow_manBits
  rw [hsize] at h
  have hexponent : w / (2 * 2 ^ (p.manBits - 1)) < 256 := Nat.div_lt_of_lt_mul (by omega)
  have hhigh : w / (2 * 2 ^ (p.manBits - 1)) = w / 2 ^ (p.manBits - 1) / 2 := by
    rw [Nat.div_div_eq_div_mul, Nat.mul_comm]
  rw [toWord_eq]
  simp only [ofWord, hm, Nat.mod_eq_of_lt hexponent, beq_iff_eq]
  -- sign and exponent are what stands above the fraction
  have habove : (if w / 2 ^ (p.manBits - 1) % 2 = 1 then 1 else 0) +
      2 * (w / (2 * 2 ^ (p.manBits - 1))) = w / 2 ^ (p.manBits - 1) := by
    rw [hhigh]
    split <;> omega
  rw [habove, Nat.div_add_mod]

namespace Buffer

variable {p : Precision} {neg : Bool}

/-- **A buffer holds one value, and a value has one buffer.** -/
@[simp] theorem value_buffer (x : Floating p) : x.buffer.value = x := by
  unfold value Floating.buffer Floating.toBytes
  rw [Bytes.toNat_ofNat, Nat.mod_eq_of_lt x.toWord_lt, Floating.ofWord_toWord]

@[simp] theorem buffer_value (b : Buffer p) : b.value.buffer = b := by
  have hlt := Bytes.toNat_lt b.bytes
  rw [b.length_bytes] at hlt
  apply Buffer.ext
  show Bytes.ofNat p.size (Floating.ofWord (Bytes.toNat b.bytes) : Floating p).toWord = b.bytes
  rw [Floating.toWord_ofWord hlt, ← b.length_bytes, Bytes.ofNat_toNat]

theorem signByte_ofNat {n : ℕ} (hn : n < 128) (neg : Bool) :
    signByte neg (UInt8.ofNat (128 + n)) = UInt8.ofNat (128 * (if neg then 1 else 0) + n) := by
  revert n neg
  decide +kernel

theorem getElem_writeSign {b : Buffer p} {i : ℕ} (h : i < (b.writeSign neg).bytes.length)
    (hi : i < b.bytes.length) :
    (b.writeSign neg).bytes[i] =
      if p.size - 2 = i then signByte neg b.bytes[i] else b.bytes[i] := by
  simp only [writeSign, List.getElem_modify]

theorem getElem_writeSignificand {b : Buffer p} {man i : ℕ}
    (h : i < (b.writeSignificand man).bytes.length) (hi : i < p.size - 1) :
    (b.writeSignificand man).bytes[i] = UInt8.ofNat (man / 256 ^ i) := by
  simp only [writeSignificand, List.getElem_mapIdx, if_pos hi, Nat.shiftRight_eq_div_pow,
    Nat.pow_mul, Nat.reducePow]

end Buffer

namespace Floating

variable {p : Precision}

/-- Below the byte with the sign stand the bits of the significand. -/
theorem byte_of_lt (x : Floating p) {i : ℕ} (hi : i < p.size - 2) :
    UInt8.ofNat (x.toWord / 256 ^ i) = UInt8.ofNat (x.significand / 256 ^ i) := by
  have hpow : 256 ^ (p.size - 2) * 128 = 256 ^ (i + 1) * (256 ^ (p.size - 2 - (i + 1)) * 128) := by
    rw [← Nat.mul_assoc, ← Nat.pow_add, Nat.add_sub_of_le hi]
  rw [toWord_eq, significand, p.two_pow_leading, hpow, Nat.mul_assoc, Bytes.ofNat_mul_add_div,
    Bytes.ofNat_mul_add_div]

/-- There the sign takes the place of the leading one. -/
theorem byte_sign (x : Floating p) :
    UInt8.ofNat (x.toWord / 256 ^ (p.size - 2))
      = Buffer.signByte x.neg (UInt8.ofNat (x.significand / 256 ^ (p.size - 2))) := by
  have hpos : 0 < 256 ^ (p.size - 2) := Nat.pow_pos (by norm_num)
  have hlow : x.fraction / 256 ^ (p.size - 2) < 128 := by
    rw [Nat.div_lt_iff_lt_mul hpos, Nat.mul_comm, ← p.two_pow_leading]
    exact x.fraction_lt
  rw [toWord_eq, significand, p.two_pow_leading, Nat.mul_add_div hpos, Buffer.signByte_ofNat hlow,
    Nat.mul_assoc, Nat.mul_add_div hpos]
  apply UInt8.toNat_inj.mp
  simp only [UInt8.toNat_ofNat']
  omega

/-- The exponent has the last byte to itself. -/
theorem byte_exponent (x : Floating p) :
    UInt8.ofNat (x.toWord / 256 ^ (p.size - 1)) = UInt8.ofNat x.exponent := by
  have hf := x.fraction_lt
  have hword : x.toWord = 2 ^ p.manBits * x.exponent
      + (2 ^ (p.manBits - 1) * (if x.neg then 1 else 0) + x.fraction) := by
    rw [toWord_eq, p.two_pow_manBits]
    ring
  have hbelow : 2 ^ (p.manBits - 1) * (if x.neg then 1 else 0) + x.fraction < 2 ^ p.manBits := by
    rw [p.two_pow_manBits]
    split <;> omega
  rw [← p.two_pow_manBits_eq_bytes, hword, Nat.mul_add_div (Nat.two_pow_pos _),
    Nat.div_eq_of_lt hbelow, Nat.add_zero]

/-- **A value is written byte by byte over any buffer,** and nothing of the old bytes stays. -/
theorem write_eq_buffer (x : Floating p) (b : Buffer p) :
    ((b.writeSignificand x.significand).writeSign x.neg).writeExponent x.exponent = x.buffer := by
  have hsize := p.two_le_size
  apply Buffer.ext
  apply List.ext_getElem
  · rw [Buffer.length_bytes, Buffer.length_bytes]
  intro i h1 h2
  have hi : i < p.size := by rwa [Buffer.length_bytes] at h2
  have hbyte : x.buffer.bytes[i] = UInt8.ofNat (x.toWord / 256 ^ i) := Bytes.getElem_ofNat h2
  simp only [hbyte, Buffer.writeExponent, List.getElem_set]
  -- three kinds of bytes: the exponent, the one with the sign, and those below
  by_cases hlast : p.size - 1 = i
  · subst hlast
    rw [if_pos rfl, byte_exponent]
  · have hlow : i < (b.writeSignificand x.significand).bytes.length := by
      rwa [Buffer.length_bytes]
    rw [if_neg hlast, Buffer.getElem_writeSign _ hlow,
      Buffer.getElem_writeSignificand hlow (by omega)]
    by_cases hsign : p.size - 2 = i
    · subst hsign
      rw [if_pos rfl, byte_sign]
    · rw [if_neg hsign, byte_of_lt x (by omega)]

end Floating

/-! ## The machine -/

/-- What an outcome leaves in a buffer: the result, or the substitute that the failure
reports. -/
def Outcome.settle {p : Precision} (o : Outcome (Floating p) (Floating p)) (b : Buffer p) :
    Settled p :=
  match o with
  | .ok z => ⟨z.buffer, none⟩
  | .error e => ⟨(e.substitute?.map Floating.buffer).getD b, some e⟩

/-- What is reported in place is how the operation fails. -/
theorem Outcome.error_of_settle_failure {p : Precision} {o : Outcome (Floating p) (Floating p)}
    {b : Buffer p} {s : Settled p} {e : Failure (Floating p)} (h : s = o.settle b)
    (hs : s.failure = some e) : o = .error e := by
  rw [h] at hs
  rcases o with e' | z
  · exact congrArg Except.error (Option.some.inj hs)
  · exact absurd hs (by simp [Outcome.settle])

namespace Held

variable {p : Precision} {d : Held p}

theorem held_scratch (d : Held p) : d.scratch.held = d := by
  unfold scratch Scratch.held
  rw [Int32.ofInt_toInt]

/-- Aligning a positive exponent does not take it far below zero. -/
theorem neg_width_le_round (hman : d.man ≠ 0) (hexp : 0 < d.scratch.exp) :
    -(p.width : ℤ) ≤ d.scratch.align.round.2 := by
  have hround := (Scratch.round_snd_mem d.scratch.align).1
  have halign := Scratch.align_exp (d := d.scratch) hman
  omega

/-- **What the machine leaves in any buffer** is what is stored for the working value, or
reported for it, as long as its exponent, aligned and rounded, is still a word. -/
theorem storeInto_eq (h : d.scratch.align.round.2 < 2 ^ 31) (b : Buffer p) :
    d.storeInto b = d.scratch.pack.settle b := by
  have hnothing : d.man = 0 ∨ d.exp ≤ 0 ↔ d.scratch.vanishes = true := by
    rw [Scratch.vanishes, Bool.or_eq_true, beq_iff_eq, decide_eq_true_eq, Int32.le_iff_toInt_le]
    rfl
  unfold storeInto
  by_cases hv : d.scratch.vanishes = true
  · rw [if_pos (hnothing.mpr hv), Scratch.pack, Scratch.overflows, Scratch.saturate, if_pos hv]
    simp [hv, Outcome.settle]
  rw [if_neg (mt hnothing.mp hv)]
  rw [Bool.not_eq_true] at hv
  obtain ⟨hman, hexp⟩ := (Scratch.vanishes_eq_false_iff d.scratch).mp hv
  have haligned := Scratch.cutDown_fillUp_held hman
  rw [held_scratch] at haligned
  have hwidth : p.width ≤ 64 := by cases p <;> decide
  have hlow := neg_width_le_round hman hexp
  have hword : (Int32.ofInt d.scratch.align.round.2).toInt = d.scratch.align.round.2 :=
    Int32.toInt_ofInt_of_le (by omega) h
  have hlarge : 255 < Int32.ofInt d.scratch.align.round.2 ↔ 255 < d.scratch.align.round.2 := by
    rw [Int32.lt_iff_toInt_lt, hword]
    rfl
  have hshift : (d.scratch.align.round.1 * 256) >>> 8 = d.scratch.align.round.1 := by
    rw [Nat.shiftRight_eq_div_pow]
    exact Nat.mul_div_cancel _ (by norm_num)
  rw [haligned, Scratch.roundGuard_held (Scratch.align_aligned hman)]
  simp only [Scratch.held, Scratch.align_neg, hshift, hlarge]
  by_cases hpast : 255 < d.scratch.align.round.2
  · -- the significand that is in the buffer already is written over
    have ho : d.scratch.overflows = true := by simp [Scratch.overflows, hv, hpast]
    rw [if_pos hpast, Scratch.pack, if_pos ho, Scratch.saturate_of_overflows ho]
    rfl
  · have ho : d.scratch.overflows = false := by simp [Scratch.overflows, hpast]
    obtain ⟨hneg, hsignificand, hexponent⟩ := Scratch.saturate_parts hv (not_lt.mp hpast)
    have hclamp : (Int32.ofInt d.scratch.align.round.2).toNatClampNeg
        = d.scratch.align.round.2.toNat := congrArg Int.toNat hword
    rw [if_neg hpast, hclamp, ← hneg, ← hsignificand, ← hexponent, Floating.write_eq_buffer,
      Scratch.pack, if_neg (by simp [ho])]
    rfl

end Held

/-! ## Far from the ends of the word -/

namespace Scratch

variable {p : Precision} {d l r : Scratch p}

/-- The exponent is nowhere near the ends of a word, and the significand is not so long that
aligning could take it there. -/
structure WithinWord (d : Scratch p) : Prop where
  le_exp : -2 ^ 30 ≤ d.exp
  exp_le : d.exp ≤ 2 ^ 30
  man_lt : d.man < 2 ^ 256

/-- Such a working value is stored in place as it is stored. -/
theorem WithinWord.storeInto_held (h : d.WithinWord) (b : Buffer p) :
    d.held.storeInto b = d.pack.settle b := by
  have hle := h.le_exp
  have hge := h.exp_le
  have hsame : d.held.scratch = d := by
    unfold held Held.scratch
    rw [Int32.toInt_ofInt_of_le (by omega) (by omega)]
  have hround := (round_snd_mem d.align).2
  have halign : d.align.exp ≤ d.exp + 256 := by
    by_cases hman : d.man = 0
    · rw [align, if_pos hman]
      omega
    · have hbits := bitLength_le h.man_lt
      rw [align_exp hman]
      omega
  have hstore := Held.storeInto_eq (d := d.held) (by rw [hsame]; omega) b
  rwa [hsame] at hstore

/-- What is read from a buffer, with either sign. -/
structure FromBuffer (d : Scratch p) : Prop where
  exp_mem : 0 ≤ d.exp ∧ d.exp ≤ 255
  man_lt : d.man < 2 ^ 64

theorem fromBuffer_unpack (x : Floating p) : x.unpack.FromBuffer := by
  have hlt := (unpack_aligned x).2
  have hwidth : 2 ^ p.width ≤ 2 ^ 64 := Nat.pow_le_pow_right (by decide) (by cases p <;> decide)
  have hexponent := x.exponent_lt
  have hexp : x.unpack.exp = x.exponent := rfl
  exact ⟨by omega, by omega⟩

theorem FromBuffer.negate (h : d.FromBuffer) : d.negate.FromBuffer := ⟨h.exp_mem, h.man_lt⟩

theorem FromBuffer.withinWord (h : d.FromBuffer) : d.WithinWord := by
  obtain ⟨⟨hlo, hhi⟩, hman⟩ := h
  exact ⟨by omega, by omega, by omega⟩

theorem trimDifference_le (m : ℕ) (lost : Bool) : trimDifference m lost ≤ m := by
  unfold trimDifference
  dsimp only
  split_ifs <;> omega

theorem man_addOrdered_le (l r : Scratch p) : (addOrdered l r).man ≤ l.man + r.man + 1 := by
  unfold addOrdered
  dsimp only
  have hcut := Nat.div_le_self l.man (2 ^ (r.exp - l.exp).toNat)
  generalize l.man / 2 ^ (r.exp - l.exp).toNat = kept at hcut ⊢
  split_ifs
  · show joinMan _ _ _ ≤ _
    unfold joinMan
    split_ifs <;> omega
  · exact (trimDifference_le _ _).trans (by omega)
  · exact (trimDifference_le _ _).trans (by omega)

theorem FromBuffer.withinWord_addOrdered (hl : l.FromBuffer) (hr : r.FromBuffer) :
    (addOrdered l r).WithinWord := by
  have hman := man_addOrdered_le l r
  have hexp : (addOrdered l r).exp = r.exp := by
    unfold addOrdered
    dsimp only
    split_ifs <;> rfl
  obtain ⟨⟨hlo, hhi⟩, hrman⟩ := hr
  have hlman := hl.man_lt
  exact ⟨by omega, by omega, by omega⟩

theorem FromBuffer.withinWord_add (hl : l.FromBuffer) (hr : r.FromBuffer) :
    (l.add r).WithinWord := by
  unfold add
  split_ifs
  · exact hl.withinWord
  · exact hr.withinWord
  · exact hr.withinWord_addOrdered hl
  · exact hl.withinWord_addOrdered hr

theorem unitExp_mem (p : Precision) : 0 ≤ unitExp p ∧ unitExp p ≤ 192 := by
  cases p <;> decide

theorem FromBuffer.withinWord_mul (hl : l.FromBuffer) (hr : r.FromBuffer) :
    (l.mul r).WithinWord := by
  obtain ⟨⟨hllo, hlhi⟩, hlman⟩ := hl
  obtain ⟨⟨hrlo, hrhi⟩, hrman⟩ := hr
  have hunit := unitExp_mem p
  have hproduct : l.man * r.man < 2 ^ 128 := by
    have hlt := Nat.mul_lt_mul'' hlman hrman
    omega
  have hbits := bitLength_le hproduct
  have hcut := Nat.div_le_self (l.man * r.man) (2 ^ (bitLength (l.man * r.man) - p.width))
  refine ⟨?_, ?_, ?_⟩
  · simp only [mul]
    omega
  · simp only [mul]
    omega
  · simp only [mul]
    split_ifs <;> omega

theorem FromBuffer.withinWord_div (hl : l.FromBuffer) (hr : r.FromBuffer) :
    (l.div r).WithinWord := by
  obtain ⟨⟨hllo, hlhi⟩, hlman⟩ := hl
  obtain ⟨⟨hrlo, hrhi⟩, hrman⟩ := hr
  have hunit := unitExp_mem p
  have hwidth : p.width ≤ 64 := by cases p <;> decide
  have hbits : quotientBits l r ≤ 65 := by
    unfold quotientBits
    split_ifs <;> omega
  have hnum : l.man * 2 ^ (quotientBits l r - 1) < 2 ^ 128 := by
    have hpow : 2 ^ (quotientBits l r - 1) ≤ 2 ^ 64 := Nat.pow_le_pow_right (by decide) (by omega)
    calc l.man * 2 ^ (quotientBits l r - 1) ≤ l.man * 2 ^ 64 := Nat.mul_le_mul_left _ hpow
      _ < 2 ^ 64 * 2 ^ 64 := Nat.mul_lt_mul_of_pos_right hlman (by decide)
      _ = 2 ^ 128 := by decide
  have hquotient := Nat.div_le_self (l.man * 2 ^ (quotientBits l r - 1)) r.man
  refine ⟨?_, ?_, ?_⟩
  · simp only [div]
    omega
  · simp only [div]
    omega
  · simp only [div]
    split_ifs <;> omega

end Scratch

/-! ## Operations in place

Every buffer is the buffer of its value (`Buffer.buffer_value`), so these say what any two
buffers come to. -/

namespace Floating

open Scratch

variable {p : Precision}

theorem buffer_add (x y : Floating p) : x.buffer.add y.buffer = (x.add y).settle x.buffer := by
  unfold Buffer.add add
  rw [Buffer.value_buffer, Buffer.value_buffer]
  exact ((fromBuffer_unpack x).withinWord_add (fromBuffer_unpack y)).storeInto_held _

theorem buffer_sub (x y : Floating p) : x.buffer.sub y.buffer = (x.sub y).settle x.buffer := by
  unfold Buffer.sub sub
  rw [Buffer.value_buffer, Buffer.value_buffer]
  exact ((fromBuffer_unpack x).withinWord_add (fromBuffer_unpack y).negate).storeInto_held _

theorem buffer_mul (x y : Floating p) : x.buffer.mul y.buffer = (x.mul y).settle x.buffer := by
  unfold Buffer.mul mul
  rw [Buffer.value_buffer, Buffer.value_buffer]
  split_ifs
  · rfl
  · exact ((fromBuffer_unpack x).withinWord_mul (fromBuffer_unpack y)).storeInto_held _

theorem buffer_div (x y : Floating p) : x.buffer.div y.buffer = (x.div y).settle x.buffer := by
  unfold Buffer.div div
  rw [Buffer.value_buffer, Buffer.value_buffer]
  split_ifs
  · rfl
  · rfl
  · exact ((fromBuffer_unpack x).withinWord_div (fromBuffer_unpack y)).storeInto_held _

end Floating

end BasicNumerics
