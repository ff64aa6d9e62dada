/-
Numerals: what rows of digits are worth, and what the numeral of a number looks like.

Zeros in front of a row change nothing and zeros behind it are powers of the base; both
are cases of `numeralValue_append`. The numeral of a number is a row of digits, starts
with a zero for zero only, and is no longer than a bound on the number allows. Of any row
as many digits count as its number has (`significantCount`).
-/
import BasicNumerics.Text.Digits
import Mathlib.Data.List.Induction
import Mathlib.Tactic.Ring

set_option autoImplicit false

namespace BasicNumerics.Text

variable {n k : ℕ}

/-! ## Rows of digits -/

theorem numeralValue_append (base : ℕ) (xs ys : List Char) :
    numeralValue base (xs ++ ys) = numeralValue base xs * base ^ ys.length + numeralValue base ys := by
  -- on the second row from its last digit, which is the digit that is read last
  induction ys using List.reverseRecOn with
  | nil => simp [numeralValue]
  | append_singleton ys c ih =>
    rw [← List.append_assoc, numeralValue_append_singleton, numeralValue_append_singleton, ih,
      List.length_append, List.length_singleton, Nat.pow_succ]
    ring

theorem numeralValue_zeros (base k : ℕ) : numeralValue base (List.replicate k '0') = 0 := by
  induction k with
  | zero => rfl
  | succ k ih =>
    rw [List.replicate_succ', numeralValue_append_singleton, ih, Nat.zero_mul]
    rfl

theorem numeralValue_zeros_append (base k : ℕ) (cs : List Char) :
    numeralValue base (List.replicate k '0' ++ cs) = numeralValue base cs := by
  rw [numeralValue_append, numeralValue_zeros, Nat.zero_mul, Nat.zero_add]

theorem numeralValue_append_zeros (base k : ℕ) (cs : List Char) :
    numeralValue base (cs ++ List.replicate k '0') = numeralValue base cs * base ^ k := by
  rw [numeralValue_append, numeralValue_zeros, List.length_replicate, Nat.add_zero]

theorem digitValue_lt_ten {c : Char} (h : c.isDigit = true) : digitValue c < 10 := by
  rw [digitValue, digitValue?, if_pos h, Option.getD_some]
  simp only [Char.isDigit, ge_iff_le, Bool.and_eq_true, decide_eq_true_eq,
    UInt32.le_iff_toNat_le] at h
  have hle : c.toNat ≤ 57 := h.2
  omega

theorem numeralValue_lt {cs : List Char} (h : ∀ c ∈ cs, c.isDigit = true) :
    numeralValue 10 cs < 10 ^ cs.length := by
  induction cs using List.reverseRecOn with
  | nil => decide
  | append_singleton cs c ih =>
    have hc := digitValue_lt_ten (h c (by simp))
    have hcs := ih fun d hd => h d (by simp [hd])
    rw [numeralValue_append_singleton, List.length_append, List.length_singleton, Nat.pow_succ]
    omega

/-! ## Digits that count -/

/-- How many digits of a row count: all from the first one that is not zero. -/
def significantCount (cs : List Char) : ℕ := (cs.dropWhile (· == '0')).length

theorem significantCount_le_length (cs : List Char) : significantCount cs ≤ cs.length :=
  (List.dropWhile_sublist _).length_le

theorem digitValue_pos {c : Char} (h : c.isDigit = true) (h0 : c ≠ '0') : 0 < digitValue c := by
  have hne : c.toNat ≠ 48 := by
    intro heq
    apply h0
    rw [← Char.ofNat_toNat c, heq]
  rw [digitValue, digitValue?, if_pos h, Option.getD_some]
  simp only [Char.isDigit, ge_iff_le, Bool.and_eq_true, decide_eq_true_eq,
    UInt32.le_iff_toNat_le] at h
  have hle : 48 ≤ c.toNat := h.1
  omega

theorem numeralValue_dropWhile_zeros (cs : List Char) :
    numeralValue 10 (cs.dropWhile (· == '0')) = numeralValue 10 cs := by
  induction cs with
  | nil => rfl
  | cons c cs ih =>
    by_cases hc : c = '0'
    · rw [List.dropWhile_cons_of_pos (by simpa using hc), ih, hc]
      exact (numeralValue_zeros_append 10 1 cs).symm
    · rw [List.dropWhile_cons_of_neg (by simpa using hc)]

/-- **The number of a row has as many digits as count.** -/
theorem numeralValue_lt_pow_significantCount {cs : List Char} (h : ∀ c ∈ cs, c.isDigit = true) :
    numeralValue 10 cs < 10 ^ significantCount cs := by
  rw [← numeralValue_dropWhile_zeros]
  exact numeralValue_lt fun c hc => h c ((List.dropWhile_sublist _).subset hc)

theorem pow_significantCount_le {cs : List Char} (h : ∀ c ∈ cs, c.isDigit = true)
    (hpos : 0 < significantCount cs) : 10 ^ (significantCount cs - 1) ≤ numeralValue 10 cs := by
  induction cs with
  | nil => exact absurd hpos (by decide)
  | cons c cs ih =>
    by_cases hc : c = '0'
    · have hsame : significantCount (c :: cs) = significantCount cs := by
        rw [significantCount, List.dropWhile_cons_of_pos (by simpa using hc)]
        rfl
      have hvalue : numeralValue 10 (c :: cs) = numeralValue 10 cs := by
        rw [hc]
        exact numeralValue_zeros_append 10 1 cs
      rw [hsame] at hpos ⊢
      rw [hvalue]
      exact ih (fun d hd => h d (List.mem_cons_of_mem c hd)) hpos
    · have hcount : significantCount (c :: cs) = cs.length + 1 := by
        rw [significantCount, List.dropWhile_cons_of_neg (by simpa using hc), List.length_cons]
      have hfirst : 0 < numeralValue 10 [c] := by
        simpa [numeralValue] using digitValue_pos (h c (by simp)) hc
      rw [hcount, Nat.add_sub_cancel, ← List.singleton_append, numeralValue_append]
      exact (Nat.le_mul_of_pos_left _ hfirst).trans (Nat.le_add_right _ _)

theorem significantCount_eq_zero_iff {cs : List Char} (h : ∀ c ∈ cs, c.isDigit = true) :
    significantCount cs = 0 ↔ numeralValue 10 cs = 0 := by
  constructor
  · intro h0
    have hlt := numeralValue_lt_pow_significantCount h
    rw [h0, Nat.pow_zero] at hlt
    omega
  · intro h0
    by_contra hpos
    have hle := pow_significantCount_le h (Nat.pos_of_ne_zero hpos)
    have : 0 < 10 ^ (significantCount cs - 1) := Nat.pow_pos (by decide)
    omega

/-- A digit more counts, unless it is one more zero in front. -/
theorem significantCount_append_singleton {cs : List Char} {c : Char}
    (h : ∀ c ∈ cs, c.isDigit = true) (hc : c.isDigit = true) :
    significantCount (cs ++ [c]) =
      if 0 < numeralValue 10 cs ∨ 0 < digitValue c then significantCount cs + 1
      else significantCount cs := by
  have hzero := significantCount_eq_zero_iff h
  rw [significantCount, List.length_eq_zero_iff] at hzero
  rw [significantCount, significantCount, List.dropWhile_append]
  rcases hcs : cs.dropWhile (· == '0') with _ | ⟨d, ds⟩
  · have hvalue : numeralValue 10 cs = 0 := hzero.mp hcs
    by_cases h0 : c = '0'
    · rw [h0, hvalue, List.isEmpty_nil, if_pos rfl, if_neg (by decide)]
      rfl
    · rw [if_pos (Or.inr (digitValue_pos hc h0)), List.isEmpty_nil, if_pos rfl,
        List.dropWhile_cons_of_neg (by simpa using h0)]
      rfl
  · have hvalue : 0 < numeralValue 10 cs := by
      rw [Nat.pos_iff_ne_zero, ne_eq, ← hzero, hcs]
      simp
    rw [if_pos (Or.inl hvalue), List.isEmpty_cons, if_neg (by simp), List.length_append,
      List.length_singleton]

/-! ## The numeral of a number -/

theorem decimal_of_lt (h : n < 10) : decimal n = [digitChar n] := by
  rw [decimal, numeral, dif_pos (Or.inr h)]

theorem decimal_of_le (h : 10 ≤ n) : decimal n = decimal (n / 10) ++ [digitChar (n % 10)] := by
  rw [decimal, numeral, dif_neg (by omega)]
  rfl

theorem decimal_ne_nil (n : ℕ) : decimal n ≠ [] := by
  by_cases h : n < 10
  · rw [decimal_of_lt h]
    simp
  · rw [decimal_of_le (by omega)]
    simp

theorem isDigit_digitChar {d : ℕ} (h : d < 10) : (digitChar d).isDigit = true := by
  revert d
  decide

theorem digitChar_ne_zero {d : ℕ} (h : d < 10) (h0 : d ≠ 0) : digitChar d ≠ '0' := by
  revert d
  decide

theorem isDigit_of_mem_decimal {c : Char} (h : c ∈ decimal n) : c.isDigit = true := by
  induction n using Nat.strongRecOn with
  | _ n ih =>
    by_cases hn : n < 10
    · rw [decimal_of_lt hn, List.mem_singleton] at h
      rw [h]
      exact isDigit_digitChar hn
    · rw [decimal_of_le (by omega), List.mem_append, List.mem_singleton] at h
      rcases h with h | h
      · exact ih (n / 10) (by omega) h
      · rw [h]
        exact isDigit_digitChar (Nat.mod_lt _ (by decide))

/-- Only zero is written with a zero in front. -/
theorem head?_decimal_ne_zero (h : n ≠ 0) : (decimal n).head? ≠ some '0' := by
  induction n using Nat.strongRecOn with
  | _ n ih =>
    by_cases hn : n < 10
    · rw [decimal_of_lt hn, List.head?_cons, ne_eq, Option.some.injEq]
      exact digitChar_ne_zero hn h
    · have hrest := ih (n / 10) (by omega) (by omega)
      rw [decimal_of_le (by omega), List.head?_append]
      obtain ⟨c, cs, hcs⟩ := List.exists_cons_of_ne_nil (decimal_ne_nil (n / 10))
      rw [hcs] at hrest ⊢
      exact hrest

theorem length_decimal_le (hk : 0 < k) (h : n < 10 ^ k) : (decimal n).length ≤ k := by
  induction k generalizing n with
  | zero => omega
  | succ k ih =>
    by_cases hn : n < 10
    · rw [decimal_of_lt hn, List.length_singleton]
      omega
    · have hk' : 0 < k := by
        by_contra h0
        obtain rfl : k = 0 := by omega
        rw [Nat.zero_add, Nat.pow_one] at h
        exact hn h
      rw [decimal_of_le (by omega), List.length_append, List.length_singleton]
      have := ih hk' (n := n / 10) (by rw [Nat.pow_succ] at h; omega)
      omega

end BasicNumerics.Text
