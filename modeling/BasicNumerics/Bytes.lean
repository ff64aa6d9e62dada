/-
Numbers as little-endian bytes.

Every number of the language lives in a buffer of fixed length with its lowest
byte first, so one pair of functions serves them all: the digits of a natural
number to the base 256, and the number they denote.
-/

set_option autoImplicit false

namespace BasicNumerics.Bytes

attribute [local instance (high)] instPowNat

/-- The low `width` bytes of `n`, lowest first. -/
def ofNat : (width : Nat) → (n : Nat) → List UInt8
  | 0, _ => []
  | width + 1, n => UInt8.ofNat n :: ofNat width (n / 256)

/-- The number that bytes denote, lowest first. -/
def toNat : List UInt8 → Nat
  | [] => 0
  | b :: bs => b.toNat + 256 * toNat bs

@[simp] theorem length_ofNat (width n : Nat) : (ofNat width n).length = width := by
  induction width generalizing n with
  | zero => rfl
  | succ width ih => simp [ofNat, ih]

/-- **Bytes denote less than one past their width.** -/
theorem toNat_lt (bs : List UInt8) : toNat bs < 256 ^ bs.length := by
  induction bs with
  | nil => simp [toNat]
  | cons b bs ih =>
    have hb := b.toNat_lt
    simp only [toNat, List.length_cons, Nat.pow_succ]
    omega

/-- **Reading what was written** gives the number cut to the width. -/
theorem toNat_ofNat (width n : Nat) : toNat (ofNat width n) = n % 256 ^ width := by
  induction width generalizing n with
  | zero => simp [ofNat, toNat, Nat.mod_one]
  | succ width ih =>
    rw [ofNat, toNat, ih, Nat.pow_succ, Nat.mul_comm _ 256, Nat.mod_mul]
    simp

/-- **Writing what was read** restores the bytes. -/
theorem ofNat_toNat (bs : List UInt8) : ofNat bs.length (toNat bs) = bs := by
  induction bs with
  | nil => rfl
  | cons b bs ih =>
    have hb := b.toNat_lt
    have h : (b.toNat + 256 * toNat bs) / 256 = toNat bs := by omega
    simp only [toNat, List.length_cons, ofNat, h, ih]
    congr 1
    apply UInt8.toNat_inj.mp
    simp

end BasicNumerics.Bytes
