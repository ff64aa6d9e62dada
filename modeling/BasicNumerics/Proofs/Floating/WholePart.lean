/-
Values made whole.

Truncation, floor and rounding split the magnitude of a value at the binary point, choose one
of the two whole numbers next to it, and store that one with the sign of the value. What is
proved once is that any choice between the two is stored exactly (`exact_withWhole`): a value
with bits past the point is shorter than the significand, so there is a bit left for adding one,
and a value without such bits is the only choice itself. That also covers the values that are
not split, since those have `2^63` units or more and nothing past the point. Each of the three
is then the rule by which it chooses, and a value that is whole already is left as it is.

The same split gives the nearest whole number as a number, and the sixteen-bit integer.
-/
import BasicNumerics.Floating.Convert
import BasicNumerics.Proofs.Floating.WholeNumbers

set_option autoImplicit false

namespace BasicNumerics

/-! ## Rules that choose a whole number -/

namespace Rounding

/-- The whole number next to `v` on the side of zero. -/
def towardZero (v : ℚ) : ℤ := if 0 ≤ v then ⌊v⌋ else ⌈v⌉

/-- The whole number nearest to `v`, of two the one away from zero. -/
def nearestAway (v : ℚ) : ℤ := if 0 ≤ v then ⌊v + 1 / 2⌋ else ⌈v - 1 / 2⌉

/-- A whole number with a sign. -/
def signedInt (neg : Bool) (n : ℤ) : ℤ := if neg then -n else n

theorem cast_signedInt (neg : Bool) (n : ℤ) : ((signedInt neg n : ℤ) : ℚ) = signed neg n := by
  unfold signedInt signed
  split
  · rw [Int.cast_neg]
  · rfl

variable {v : ℚ}

theorem towardZero_signed (neg : Bool) (hv : 0 < v) :
    towardZero (signed neg v) = signedInt neg ⌊v⌋ := by
  rcases neg with _ | _
  · exact if_pos hv.le
  · exact (if_neg (not_le.mpr (neg_neg_of_pos hv))).trans Int.ceil_neg

theorem floor_signed (neg : Bool) (v : ℚ) :
    ⌊signed neg v⌋ = signedInt neg (if neg then ⌈v⌉ else ⌊v⌋) := by
  rcases neg with _ | _
  · rfl
  · exact Int.floor_neg

theorem nearestAway_signed (neg : Bool) (hv : 0 < v) :
    nearestAway (signed neg v) = signedInt neg ⌊v + 1 / 2⌋ := by
  rcases neg with _ | _
  · exact if_pos hv.le
  · refine (if_neg (not_le.mpr (neg_neg_of_pos hv))).trans ?_
    rw [signed, if_pos rfl, ← neg_add', Int.ceil_neg]
    rfl

theorem abs_nearestAway_sub_le (v : ℚ) : |(nearestAway v : ℚ) - v| ≤ 1 / 2 := by
  rw [abs_le]
  unfold nearestAway
  split
  · have hlo := Int.floor_le (v + 1 / 2)
    have hhi := Int.lt_floor_add_one (v + 1 / 2)
    constructor <;> linarith
  · have hlo := Int.le_ceil (v - 1 / 2)
    have hhi := Int.ceil_lt_add_one (v - 1 / 2)
    constructor <;> linarith

end Rounding

open Rounding

namespace Integer

/-- What converting the number `n` to sixteen bits gives: the word that is `n` modulo `2^16` where
`n` is in range, and an overflow elsewhere. -/
structure IsWordOf (n high : ℤ) (o : Except Fault Integer) : Prop where
  word : -32768 ≤ n → n ≤ high → ∃ w, o = .ok w ∧ (Bytes.toNat w.toBytes : ℤ) = n % 2 ^ 16
  fault : n < -32768 ∨ high < n → o = .error (.ofCause .overflow)

theorem isWordOf_ofInt (r : Reading) (n : ℤ) : IsWordOf n r.high (ofInt r n) := by
  refine ⟨?_, fun h => if_pos h⟩
  intro hlo hhi
  refine ⟨⟨BitVec.ofInt 16 n⟩, if_neg (by omega), ?_⟩
  rw [toBytes, Bytes.toNat_ofNat, Nat.mod_eq_of_lt (BitVec.ofInt 16 n).isLt, BitVec.toNat_ofInt]
  omega

end Integer

/-! ## The split at the binary point -/

namespace SplitMagnitude

/-- The split of the magnitude `v`: a whole part, and less than one behind the point. -/
structure Splits (s : SplitMagnitude) (v : ℚ) : Prop where
  value_eq : v = s.whole + s.rest / 2 ^ s.bits
  rest_lt : s.rest < 2 ^ s.bits

variable {s : SplitMagnitude} {v : ℚ}

/-- The rest behind the point, as a number below one. -/
theorem Splits.rest_mem (h : s.Splits v) :
    0 ≤ (s.rest : ℚ) / 2 ^ s.bits ∧ (s.rest : ℚ) / 2 ^ s.bits < 1 := by
  have hlt : (s.rest : ℚ) < 2 ^ s.bits := by exact_mod_cast h.rest_lt
  exact ⟨by positivity, (div_lt_one (by positivity)).mpr hlt⟩

theorem Splits.whole_eq (h : s.Splits v) : (s.whole : ℤ) = ⌊v⌋ := by
  obtain ⟨h0, h1⟩ := h.rest_mem
  rw [eq_comm, Int.floor_eq_iff, h.value_eq]
  push_cast
  constructor <;> linarith

theorem Splits.ceiling_eq (h : s.Splits v) : (s.ceiling : ℤ) = ⌈v⌉ := by
  obtain ⟨h0, h1⟩ := h.rest_mem
  rw [eq_comm, Int.ceil_eq_iff, h.value_eq, ceiling]
  split
  · next hzero =>
    rw [hzero, Nat.cast_zero, zero_div, add_zero]
    push_cast
    constructor <;> linarith
  · next hrest =>
    have hpos : 0 < (s.rest : ℚ) / 2 ^ s.bits := by
      have := Nat.pos_of_ne_zero hrest
      positivity
    push_cast
    constructor <;> linarith

/-- The highest bit behind the point is the half. -/
theorem Splits.half_le_iff (h : s.Splits v) :
    (0 < s.bits ∧ 2 ^ (s.bits - 1) ≤ s.rest) ↔ 1 / 2 ≤ (s.rest : ℚ) / 2 ^ s.bits := by
  rcases hbits : s.bits with _ | b
  · have hrest := h.rest_lt
    rw [hbits, pow_zero, Nat.lt_one_iff] at hrest
    rw [hrest]
    norm_num
  · rw [Nat.add_sub_cancel, le_div_iff₀ (by positivity), pow_succ]
    have hhalf : (1 / 2 : ℚ) * (2 ^ b * 2) = ((2 ^ b : ℕ) : ℚ) := by
      push_cast
      ring
    rw [hhalf, Nat.cast_le]
    exact and_iff_right (Nat.succ_pos b)

theorem Splits.nearest_eq (h : s.Splits v) : (s.nearest : ℤ) = ⌊v + 1 / 2⌋ := by
  obtain ⟨h0, h1⟩ := h.rest_mem
  rw [eq_comm, Int.floor_eq_iff, h.value_eq, nearest]
  split
  · next hhalf =>
    rw [h.half_le_iff] at hhalf
    push_cast
    constructor <;> linarith
  · next hhalf =>
    rw [h.half_le_iff, not_le] at hhalf
    push_cast
    constructor <;> linarith

/-- A choice from the split that follows the rule `f`, which takes one of the two whole numbers
next to the magnitude. -/
structure Picks (choose : SplitMagnitude → ℕ) (f : ℚ → ℤ) : Prop where
  choose_eq : ∀ {s : SplitMagnitude} {v : ℚ}, s.Splits v → (choose s : ℤ) = f v
  floor_le : ∀ v : ℚ, ⌊v⌋ ≤ f v
  le_ceil : ∀ v : ℚ, f v ≤ ⌈v⌉

theorem picks_whole : Picks (·.whole) Int.floor := by
  refine ⟨?_, ?_, ?_⟩
  · exact fun h => h.whole_eq
  · exact fun v => le_rfl
  · exact fun v => Int.floor_le_ceil v

theorem picks_ceiling : Picks (·.ceiling) Int.ceil := by
  refine ⟨?_, ?_, ?_⟩
  · exact fun h => h.ceiling_eq
  · exact fun v => Int.floor_le_ceil v
  · exact fun v => le_rfl

theorem picks_nearest : Picks (·.nearest) (fun v => ⌊v + 1 / 2⌋) := by
  refine ⟨?_, ?_, ?_⟩
  · exact fun h => h.nearest_eq
  · exact fun v => Int.floor_le_floor (by linarith)
  · intro v
    -- half a unit does not reach past the next whole number
    have hlt : ⌊v + 1 / 2⌋ < ⌈v⌉ + 1 := by
      rw [Int.floor_lt]
      push_cast
      linarith [Int.le_ceil v]
    omega

/-- **A whole magnitude is the only choice.** -/
theorem Picks.natCast {choose : SplitMagnitude → ℕ} {f : ℚ → ℤ} (h : Picks choose f) (n : ℕ) :
    f n = n := by
  have hlo := h.floor_le n
  have hhi := h.le_ceil n
  rw [Int.floor_natCast] at hlo
  rw [Int.ceil_natCast] at hhi
  omega

end SplitMagnitude

namespace Floating

open Scratch SplitMagnitude

variable {p : Precision} {x y : Floating p}

/-- **The split is that of the magnitude,** for every magnitude below `2^63`. -/
theorem splits_of_split? {s : SplitMagnitude} (h : x.split? = some s) :
    s.Splits x.unpack.magnitude ∧ x.unpack.magnitude < 2 ^ 63 := by
  have hman : (x.unpack.man : ℚ) < 2 ^ p.width := by exact_mod_cast (unpack_aligned x).man_lt
  unfold split? at h
  dsimp only at h
  by_cases hbelow : unitExp p - x.unpack.exp ≤ 0
  · -- no bits behind the point: the significand is moved up
    obtain ⟨up, hup⟩ : ∃ up : ℕ, x.unpack.exp - unitExp p = up :=
      ⟨(x.unpack.exp - unitExp p).toNat, by omega⟩
    have hnat : (-(unitExp p - x.unpack.exp)).toNat = up := by omega
    rw [if_pos hbelow, hnat] at h
    have hmag : x.unpack.magnitude = x.unpack.man * 2 ^ up := by
      rw [magnitude, unit, hup, zpow_natCast]
    split at h
    · exact absurd h (by simp)
    · next hwide =>
      obtain rfl := Option.some.inj h
      refine ⟨⟨?_, Nat.one_pos⟩, ?_⟩
      · rw [hmag]
        push_cast
        simp
      · calc x.unpack.magnitude < 2 ^ p.width * 2 ^ up := by
              rw [hmag]
              exact mul_lt_mul_of_pos_right hman (by positivity)
          _ = 2 ^ (p.width + up) := (pow_add 2 _ _).symm
          _ ≤ 2 ^ 63 := pow_le_pow_right₀ one_le_two (by omega)
  · obtain ⟨b, hb⟩ : ∃ b : ℕ, unitExp p - x.unpack.exp = b + 1 :=
      ⟨(unitExp p - x.unpack.exp - 1).toNat, by omega⟩
    have hnat : (unitExp p - x.unpack.exp).toNat = b + 1 := by omega
    rw [if_neg hbelow, hnat] at h
    obtain rfl := Option.some.inj h
    have hmag : x.unpack.magnitude = x.unpack.man / 2 ^ (b + 1) := by
      rw [magnitude, unit, show x.unpack.exp - unitExp p = -((b + 1 : ℕ) : ℤ) by push_cast; omega,
        zpow_neg, zpow_natCast, div_eq_mul_inv]
    refine ⟨⟨?_, Nat.mod_lt _ (Nat.two_pow_pos _)⟩, ?_⟩
    · have hdiv := Nat.div_add_mod' x.unpack.man (2 ^ (b + 1))
      have hcast : (x.unpack.man : ℚ) = (x.unpack.man / 2 ^ (b + 1) : ℕ) * 2 ^ (b + 1)
          + (x.unpack.man % 2 ^ (b + 1) : ℕ) := by exact_mod_cast hdiv.symm
      rw [hmag, eq_comm, eq_div_iff (by positivity), add_mul, div_mul_cancel₀ _ (by positivity)]
      exact hcast.symm
    · have hwidth : p.width ≤ 64 := by cases p <;> decide
      calc x.unpack.magnitude < 2 ^ p.width / 2 ^ (b + 1) := by
            rw [hmag]
            exact div_lt_div_of_pos_right hman (by positivity)
        _ ≤ 2 ^ 64 / 2 ^ 1 :=
            div_le_div₀ (by positivity) (pow_le_pow_right₀ one_le_two hwidth) (by positivity)
              (pow_le_pow_right₀ one_le_two (by omega))
        _ = 2 ^ 63 := by norm_num

/-- **What is not split has `2^63` units or more.** -/
theorem le_magnitude_of_split? (h : x.split? = none) : 2 ^ 63 ≤ x.unpack.magnitude := by
  unfold split? at h
  dsimp only at h
  by_cases hbelow : unitExp p - x.unpack.exp ≤ 0
  · rw [if_pos hbelow] at h
    split at h
    · next hwide =>
      have hunit := unitExp_eq p
      have hexp : (63 : ℤ) + 129 ≤ x.unpack.exp := by omega
      exact_mod_cast ((unpack_aligned x).two_zpow_le_iff 63).mpr hexp
    · exact absurd h (by simp)
  · rw [if_neg hbelow] at h
    exact absurd h (by simp)

/-- A magnitude is a whole number of no more bits than the significand, powers of two apart, or
is well below the largest whole number that the significand holds. -/
theorem magnitude_whole_or_lt (x : Floating p) :
    (∃ n : ℕ, x.unpack.magnitude = n ∧ Fits p.manBits n) ∨
      x.unpack.magnitude < 2 ^ (p.manBits - 1) := by
  have hlt : (x.significand : ℚ) < 2 * 2 ^ (p.manBits - 1) := by
    have h := x.significand_lt
    rw [p.two_pow_manBits] at h
    exact_mod_cast h
  rw [magnitude_unpack]
  rcases le_or_gt 0 ((x.exponent : ℤ) - 128 - p.manBits) with hk | hk
  · left
    obtain ⟨k, hk⟩ := Int.eq_ofNat_of_zero_le hk
    rw [hk, zpow_natCast]
    refine ⟨x.significand * 2 ^ k, by push_cast; rfl, x.significand, k, x.significand_lt, ?_⟩
    rw [zpow_natCast]
    push_cast
    rfl
  · right
    have hhalf : (2 : ℚ) ^ ((x.exponent : ℤ) - 128 - p.manBits) ≤ 2 ^ (-1 : ℤ) :=
      zpow_le_zpow_right₀ one_le_two (by omega)
    have hmul := mul_le_mul_of_nonneg_left hhalf (by positivity : (0 : ℚ) ≤ x.significand)
    rw [zpow_neg_one] at hmul
    linarith

/-- **The whole numbers next to a value fit the significand,** and stay below `2^63` with it. -/
theorem fits_of_mem {n : ℕ} (hlo : ⌊x.unpack.magnitude⌋ ≤ n) (hhi : n ≤ ⌈x.unpack.magnitude⌉) :
    Fits p.manBits n ∧ (x.unpack.magnitude < 2 ^ 63 → n < 2 ^ 63) := by
  rcases x.magnitude_whole_or_lt with ⟨m, hm, hfit⟩ | hlt
  · rw [hm, Int.floor_natCast] at hlo
    rw [hm, Int.ceil_natCast] at hhi
    obtain rfl : n = m := by omega
    rw [hm]
    exact ⟨hfit, fun h => by exact_mod_cast h⟩
  · have hceil : ⌈x.unpack.magnitude⌉ ≤ 2 ^ (p.manBits - 1) := by
      rw [Int.ceil_le]
      push_cast
      exact hlt.le
    have hn : n ≤ 2 ^ (p.manBits - 1) := by exact_mod_cast hhi.trans hceil
    have hhalf : (2 : ℕ) ^ (p.manBits - 1) < 2 ^ 63 := by cases p <;> decide
    refine ⟨⟨n, 0, ?_, by simp⟩, fun _ => by omega⟩
    rw [p.two_pow_manBits]
    have := Nat.two_pow_pos (p.manBits - 1)
    omega

/-! ## Storing a whole number -/

/-- **A whole number that fits the significand is stored as it is,** with either sign: nothing
is rounded and nothing overflows. -/
theorem pack_whole (neg : Bool) {n : ℕ} (hfit : Fits p.manBits n) (hn : n < 2 ^ 127) :
    ({ exp := unitExp p, man := n, neg := neg } : Scratch p).align.pack = .ok (ofSignedNat neg n) ∧
      (ofSignedNat neg n : Floating p).exact = signed neg n := by
  by_cases h0 : n = 0
  · subst h0
    have hzero : (ofSignedNat neg 0 : Floating p).isZero = true := rfl
    refine ⟨pack_of_vanishes rfl, ?_⟩
    rw [exact_of_isZero hzero]
    simp [signed]
  · set d : Scratch p := { exp := unitExp p, man := n, neg := neg }
    have hmag : d.magnitude = n := by
      rw [magnitude, unit, sub_self, zpow_zero, mul_one]
    have halign : d.align.magnitude = n := by
      rw [← hmag] at hfit ⊢
      exact (cutOf_align h0).magnitude_eq (hfit.mono (Nat.le_add_right _ _))
    have hone : (1 : ℚ) ≤ n := by exact_mod_cast Nat.one_le_iff_ne_zero.mpr h0
    rw [← halign] at hfit
    obtain ⟨z, hz, hnonzero, hneg, hzmag⟩ := (align_aligned (d := d) h0).exists_pack_eq_ok_of_fits
      hfit (by rw [halign]; exact le_trans (by norm_num) hone)
      (by rw [halign]; exact_mod_cast hn)
    obtain rfl : z = ofSignedNat neg n := (pack_eq_ok_nonzero hz hnonzero).2.2.2
    refine ⟨hz, ?_⟩
    rw [exact_eq_signed hnonzero, hneg, hzmag, halign, align_neg]

variable {choose : SplitMagnitude → ℕ} {f : ℚ → ℤ}

/-- What is chosen from the split of a value is stored as it is. -/
theorem pack_choose (hpick : Picks choose f) {s : SplitMagnitude} (h : x.split? = some s) :
    ({ exp := unitExp p, man := choose s, neg := x.neg } : Scratch p).align.pack
        = .ok (ofSignedNat x.neg (choose s)) ∧
      (ofSignedNat x.neg (choose s) : Floating p).exact = signed x.neg (choose s) := by
  obtain ⟨hsplits, hlt⟩ := splits_of_split? h
  have hchoose := hpick.choose_eq hsplits
  obtain ⟨hfit, hsmall⟩ := fits_of_mem (x := x) (n := choose s)
    (by rw [hchoose]; exact hpick.floor_le _) (by rw [hchoose]; exact hpick.le_ceil _)
  exact pack_whole x.neg hfit ((hsmall hlt).trans_le (by norm_num))

/-- **A value made whole by a rule** is what the rule says of its magnitude, with its sign. -/
theorem exact_withWhole (hpick : Picks choose f) (hx : x.isZero = false) :
    (x.withWhole choose).exact = signed x.neg (f x.unpack.magnitude) := by
  rw [withWhole, if_neg (by simp [hx])]
  rcases hsplit : x.split? with _ | s
  · -- too large to have bits behind the point
    have hlarge := le_magnitude_of_split? hsplit
    rcases x.magnitude_whole_or_lt with ⟨n, hn, -⟩ | hlt
    · rw [exact_eq_signed hx, hn, hpick.natCast, Int.cast_natCast]
    · have hhalf : (2 : ℚ) ^ (p.manBits - 1) ≤ 2 ^ 63 :=
        pow_le_pow_right₀ one_le_two (by cases p <;> decide)
      linarith
  · have hchoose := hpick.choose_eq (splits_of_split? hsplit).1
    rw [(pack_choose hpick hsplit).2, ← hchoose, Int.cast_natCast]

/-- **A value that is whole already stays as it is,** bit for bit. -/
theorem withWhole_eq_self (hpick : Picks choose f) {n : ℤ} (hn : x.exact = n) :
    x.withWhole choose = x := by
  by_cases hz : x.isZero = true
  · exact withWhole_of_isZero choose hz
  · rw [Bool.not_eq_true] at hz
    have hwhole : x.unpack.magnitude = (n.natAbs : ℕ) := by
      rw [← abs_exact hz, hn, Nat.cast_natAbs, Int.cast_abs]
    have hexact : x.exact = (x.withWhole choose).exact := by
      rw [exact_withWhole hpick hz, hwhole, hpick.natCast, Int.cast_natCast, ← hwhole,
        exact_eq_signed hz]
    exact (eq_of_not_isZero (eq_iff_exact_eq.mpr hexact) hz).symm

/-! ## The three roundings -/

theorem exact_trunc (x : Floating p) : x.trunc.exact = towardZero x.exact := by
  by_cases hz : x.isZero = true
  · rw [trunc, withWhole_of_isZero _ hz, exact_of_isZero hz]
    rfl
  · rw [Bool.not_eq_true] at hz
    rw [trunc, exact_withWhole picks_whole hz, exact_eq_signed hz,
      towardZero_signed _ (unpack_aligned x).magnitude_pos, cast_signedInt]

/-- The choice of the floor depends on the sign. -/
theorem picks_floor (neg : Bool) :
    Picks (fun s => if neg then s.ceiling else s.whole) (fun v => if neg then ⌈v⌉ else ⌊v⌋) := by
  rcases neg with _ | _
  · exact picks_whole
  · exact picks_ceiling

theorem exact_floor (x : Floating p) : x.floor.exact = ⌊x.exact⌋ := by
  by_cases hz : x.isZero = true
  · rw [floor, withWhole_of_isZero _ hz, exact_of_isZero hz]
    rfl
  · rw [Bool.not_eq_true] at hz
    rw [floor, exact_withWhole (picks_floor x.neg) hz, exact_eq_signed hz, floor_signed,
      cast_signedInt]

theorem exact_roundWhole (x : Floating p) : x.roundWhole.exact = nearestAway x.exact := by
  by_cases hz : x.isZero = true
  · rw [roundWhole, withWhole_of_isZero _ hz, exact_of_isZero hz]
    norm_num [nearestAway]
  · rw [Bool.not_eq_true] at hz
    rw [roundWhole, exact_withWhole picks_nearest hz, exact_eq_signed hz,
      nearestAway_signed _ (unpack_aligned x).magnitude_pos, cast_signedInt]

/-! ## Whole numbers as numbers -/

/-- **The nearest whole number is given where the value is below `2^63`,** and nowhere else. -/
theorem toInt?_eq (x : Floating p) :
    x.toInt? = if |x.exact| < 2 ^ 63 then some (nearestAway x.exact) else none := by
  by_cases hz : x.isZero = true
  · rw [toInt?, if_pos hz, exact_of_isZero hz, if_pos (by norm_num)]
    norm_num [nearestAway]
  · rw [toInt?, if_neg hz]
    rw [Bool.not_eq_true] at hz
    rw [abs_exact hz]
    rcases hsplit : x.split? with _ | s
    · rw [if_neg (not_lt.mpr (le_magnitude_of_split? hsplit))]
    · obtain ⟨hsplits, hlt⟩ := splits_of_split? hsplit
      have hnearest := hsplits.nearest_eq
      obtain ⟨-, hsmall⟩ := fits_of_mem (x := x) (n := s.nearest)
        (by rw [hnearest]; exact picks_nearest.floor_le _)
        (by rw [hnearest]; exact picks_nearest.le_ceil _)
      rw [if_pos hlt, exact_eq_signed hz, nearestAway_signed _ (unpack_aligned x).magnitude_pos,
        ← hnearest]
      exact if_pos (hsmall hlt)

/-- **The sixteen-bit integer is the word of the nearest whole number,** or a fault where that has
none. -/
theorem isWordOf_toInteger (r : Reading) (x : Floating p) :
    Integer.IsWordOf (nearestAway x.exact) r.high (x.toInteger r) := by
  have hword := Integer.isWordOf_ofInt r (nearestAway x.exact)
  rw [toInteger, toInt?_eq]
  by_cases hlt : |x.exact| < 2 ^ 63
  · rw [if_pos hlt]
    exact hword
  · rw [if_neg hlt]
    refine ⟨?_, fun _ => rfl⟩
    -- a number in range is near a value that is far below the limit
    intro hlo hhi
    have hhigh : r.high ≤ 65535 := by cases r <;> decide
    have hlo' : (-32768 : ℚ) ≤ nearestAway x.exact := by exact_mod_cast hlo
    have hhi' : (nearestAway x.exact : ℚ) ≤ 65535 := by exact_mod_cast hhi.trans hhigh
    have hnear := abs_le.mp (abs_nearestAway_sub_le x.exact)
    refine absurd (abs_lt.mpr ⟨?_, ?_⟩) hlt <;> linarith

/-- **Whole-number conversions are exact for every value.**

* Truncation, floor and rounding give the whole number towards zero, below and nearest to the
  value. What they choose from a split value is stored with the sign of the value, and neither
  rounding nor an overflow comes into it. Each of them changes nothing the second time.
* The nearest whole number is read off exactly where the value is below `2^63`.
* The sixteen-bit integer is the word of that number where it is in the signed or the unsigned
  range, and a fault elsewhere. -/
theorem whole_conversions (x : Floating p) :
    (x.trunc.exact = towardZero x.exact ∧ x.floor.exact = ⌊x.exact⌋ ∧
      x.roundWhole.exact = nearestAway x.exact) ∧
    (∀ s, x.split? = some s → ∀ n ∈ [s.whole, s.ceiling, s.nearest],
      ({ exp := unitExp p, man := n, neg := x.neg } : Scratch p).align.pack
          = .ok (ofSignedNat x.neg n) ∧
        (ofSignedNat x.neg n : Floating p).exact = signed x.neg n) ∧
    (x.trunc.trunc = x.trunc ∧ x.floor.floor = x.floor ∧ x.roundWhole.roundWhole = x.roundWhole) ∧
    x.toInt? = (if |x.exact| < 2 ^ 63 then some (nearestAway x.exact) else none) ∧
    Integer.IsWordOf (nearestAway x.exact) 32767 (x.toInteger .signed) ∧
    Integer.IsWordOf (nearestAway x.exact) 65535 (x.toInteger .unsigned) := by
  refine ⟨⟨x.exact_trunc, x.exact_floor, x.exact_roundWhole⟩, ?_, ⟨?_, ?_, ?_⟩, x.toInt?_eq,
    isWordOf_toInteger .signed x, isWordOf_toInteger .unsigned x⟩
  · intro s hs n hn
    rw [List.mem_cons, List.mem_cons, List.mem_singleton] at hn
    rcases hn with rfl | rfl | rfl
    · exact pack_choose picks_whole hs
    · exact pack_choose picks_ceiling hs
    · exact pack_choose picks_nearest hs
  · exact withWhole_eq_self picks_whole x.exact_trunc
  · exact withWhole_eq_self (picks_floor _) x.exact_floor
  · exact withWhole_eq_self picks_nearest x.exact_roundWhole

/-- Minus two and a half is a half past minus two: truncation stops there, floor and rounding go
on to minus three. -/
example :
    let x : Single := ofWord 0x82A00000
    x.trunc = ofWord 0x82800000 ∧ x.floor = ofWord 0x82C00000 ∧ x.roundWhole = x.floor ∧
      x.toInt? = some (-3) := by
  decide +kernel

end Floating

end BasicNumerics
