/-
Dropping low bits of a natural number.

The engine drops bits in two ways: keeping a mark that something was lost, and
going to the nearest multiple with ties to the even one. Each is stated by
quotient and remainder, so a lemma about it is a fact of division.
-/

set_option autoImplicit false

namespace BasicNumerics.Rounding

attribute [local instance (high)] instPowNat

/-- How many binary digits `n` has; zero has none. -/
def bitLength (n : Nat) : Nat := if n = 0 then 0 else n.log2 + 1

/-- `m` without its low `k` bits, the lowest bit kept standing for all that was
dropped: it is set as soon as one dropped bit was. -/
def sticky (m k : Nat) : Nat :=
  m / 2 ^ k + (if m % 2 ^ k ≠ 0 ∧ m / 2 ^ k % 2 = 0 then 1 else 0)

/-- `m / 2^k` to the nearest whole number, a tie to the even one. -/
def nearestEven (m k : Nat) : Nat :=
  if 2 ^ k < 2 * (m % 2 ^ k) ∨ (2 ^ k = 2 * (m % 2 ^ k) ∧ m / 2 ^ k % 2 = 1) then
    m / 2 ^ k + 1
  else
    m / 2 ^ k

/-! ## Bounds -/

theorem lt_two_pow_bitLength (n : Nat) : n < 2 ^ bitLength n := by
  unfold bitLength
  split
  · next h => simp [h]
  · exact Nat.lt_log2_self

theorem two_pow_le_of_pos {n : Nat} (h : 0 < n) : 2 ^ (bitLength n - 1) ≤ n := by
  have hn : n ≠ 0 := by omega
  simpa [bitLength, hn] using Nat.log2_self_le hn

/-- **Rounding moves by less than one.** The nearest whole number is the quotient
or the next one. -/
theorem nearestEven_mem (m k : Nat) :
    nearestEven m k = m / 2 ^ k ∨ nearestEven m k = m / 2 ^ k + 1 := by
  unfold nearestEven
  split
  · exact Or.inr rfl
  · exact Or.inl rfl

/-! ## Single bits -/

/-- Setting the lowest bit adds one to an even number. -/
theorem or_one_eq (n : Nat) : n ||| 1 = n + (if n % 2 = 0 then 1 else 0) := by
  have hhalf : (n ||| 1) / 2 = n / 2 := by
    rw [Nat.or_div_two]
    exact Nat.or_zero _
  have hodd : (n ||| 1) % 2 = 1 := Nat.or_mod_two_eq_one.mpr (Or.inr rfl)
  split <;> omega

/-- One bit moved out on the right and kept in the lowest one is a sticky cut. -/
theorem shiftRight_or_eq_sticky (m : Nat) : m >>> 1 ||| (m &&& 1) = sticky m 1 := by
  rw [Nat.shiftRight_eq_div_pow, Nat.and_one_is_mod, sticky, Nat.pow_one]
  rcases Nat.mod_two_eq_zero_or_one m with h | h
  · rw [h, Nat.or_zero, if_neg (by simp), Nat.add_zero]
  · rw [h, or_one_eq]
    simp

/-! ## Multiples -/

/-- Nothing is lost where nothing is dropped. -/
@[simp] theorem nearestEven_zero (m : Nat) : nearestEven m 0 = m := by
  simp [nearestEven, Nat.mod_one]

/-- A multiple of the unit is its own nearest multiple. -/
@[simp] theorem nearestEven_mul_two_pow (q k : Nat) : nearestEven (q * 2 ^ k) k = q := by
  rw [nearestEven, Nat.mul_mod_left, Nat.mul_div_cancel _ (Nat.two_pow_pos k)]
  simp

end BasicNumerics.Rounding
