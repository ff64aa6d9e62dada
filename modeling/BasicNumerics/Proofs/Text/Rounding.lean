/-
Rows of digits that are rounded, trimmed and grouped.

A row is rounded where it is cut: the first digit that is dropped decides whether the digits
that are kept go up by one. The carry runs through the nines at their end, and makes the row
longer if there is nothing else. As a number that is rounding to the nearest whole one, halves
up (`Denotes.shiftRound`): the first digit dropped is five or more exactly where at least
half of a unit is dropped.

The rest of the layout moves no digit. Zeros in front of a row are taken off it without changing
the number, and grouping puts commas between groups of three digits, counted from the end, and
nowhere else (`groupedAs_groupThousands`).
-/
import BasicNumerics.Printing.Using
import BasicNumerics.Proofs.Text.Numerals
import Mathlib.Algebra.Order.Floor.Semiring
import Mathlib.Algebra.Order.Field.Basic
import Mathlib.Data.Rat.Floor
import Mathlib.Tactic.FieldSimp
import Mathlib.Tactic.Linarith

set_option autoImplicit false

namespace BasicNumerics.Text

variable {cs : List Char} {c : Char}

/-! ## Digits -/

/-- There are ten digits, so what holds of them can be decided. -/
theorem exists_digitChar (h : c.isDigit = true) : ∃ d < 10, c = digitChar d := by
  simp only [Char.isDigit, ge_iff_le, Bool.and_eq_true, decide_eq_true_eq,
    UInt32.le_iff_toNat_le] at h
  have hlo : 48 ≤ c.toNat := h.1
  have hhi : c.toNat ≤ 57 := h.2
  refine ⟨c.toNat - 48, by omega, ?_⟩
  rw [digitChar, if_pos (by omega), Nat.add_sub_cancel' hlo, Char.ofNat_toNat]

/-- Every digit but the nine has a next one. -/
theorem digit_succ (h : c.isDigit = true) (h9 : c ≠ '9') :
    (Char.ofNat (c.toNat + 1)).isDigit = true ∧
      digitValue (Char.ofNat (c.toNat + 1)) = digitValue c + 1 := by
  obtain ⟨d, hd, rfl⟩ := exists_digitChar h
  clear h
  revert d
  decide

theorem five_le_iff (h : c.isDigit = true) : '5' ≤ c ↔ 5 ≤ digitValue c := by
  obtain ⟨d, hd, rfl⟩ := exists_digitChar h
  clear h
  revert d
  decide

theorem isDigit_of_mem_zeros (k : ℕ) : ∀ c ∈ List.replicate k '0', c.isDigit = true := by
  intro c hc
  rw [List.eq_of_mem_replicate hc]
  decide

/-- A row is worth nothing only if all its digits are zeros. -/
theorem numeralValue_eq_zero_iff (h : ∀ c ∈ cs, c.isDigit = true) :
    numeralValue 10 cs = 0 ↔ ∀ c ∈ cs, c = '0' := by
  have hdigit : ∀ d < 10, digitValue (digitChar d) = 0 ↔ digitChar d = '0' := by decide
  induction cs using List.reverseRecOn with
  | nil => simp [numeralValue]
  | append_singleton cs c ih =>
    rw [List.forall_mem_append, List.forall_mem_singleton] at h
    obtain ⟨d, hd, rfl⟩ := exists_digitChar h.2
    have hcs : numeralValue 10 cs = 0 ↔ ∀ c ∈ cs, c = '0' := ih h.1
    rw [numeralValue_append_singleton, List.forall_mem_append, ← hcs, List.forall_mem_singleton,
      ← hdigit d hd]
    omega

/-! ## One more

The carry goes from the last digit to the first, so the row is taken from its end, and it is the
reversed row whose number is known. -/

theorem isDigit_of_mem_incrementLast (h : ∀ c ∈ cs, c.isDigit = true) :
    ∀ c ∈ incrementLast cs, c.isDigit = true := by
  induction cs with
  | nil =>
    rw [incrementLast, List.forall_mem_singleton]
    decide
  | cons d ds ih =>
    have hds : ∀ c ∈ ds, c.isDigit = true := fun c hc => h c (List.mem_cons_of_mem d hc)
    rw [incrementLast]
    by_cases h9 : d = '9'
    · rw [if_pos h9, List.forall_mem_cons]
      exact ⟨by decide, ih hds⟩
    · rw [if_neg h9, List.forall_mem_cons]
      exact ⟨(digit_succ (h d List.mem_cons_self) h9).1, hds⟩

/-- **The carry runs through the nines,** and the row is worth one more. -/
theorem numeralValue_incrementLast (h : ∀ c ∈ cs, c.isDigit = true) :
    numeralValue 10 (incrementLast cs).reverse = numeralValue 10 cs.reverse + 1 := by
  induction cs with
  | nil => decide
  | cons d ds ih =>
    have hds : ∀ c ∈ ds, c.isDigit = true := fun c hc => h c (List.mem_cons_of_mem d hc)
    rw [incrementLast, List.reverse_cons, numeralValue_append_singleton]
    by_cases h9 : d = '9'
    · -- nine and one more is a carry, which the rest of the row takes
      have hnine : digitValue d = 9 := by
        rw [h9]
        decide
      have hzero : digitValue '0' = 0 := by decide
      rw [if_pos h9, List.reverse_cons, numeralValue_append_singleton, ih hds, hnine, hzero]
      ring
    · rw [if_neg h9, List.reverse_cons, numeralValue_append_singleton,
        (digit_succ (h d List.mem_cons_self) h9).2]
      ring

theorem isDigit_of_mem_increment (h : ∀ c ∈ cs, c.isDigit = true) :
    ∀ c ∈ increment cs, c.isDigit = true := by
  intro c hc
  refine isDigit_of_mem_incrementLast ?_ c (List.mem_reverse.mp hc)
  intro d hd
  exact h d (List.mem_reverse.mp hd)

theorem numeralValue_increment (h : ∀ c ∈ cs, c.isDigit = true) :
    numeralValue 10 (increment cs) = numeralValue 10 cs + 1 := by
  rw [increment, numeralValue_incrementLast, List.reverse_reverse]
  intro c hc
  exact h c (List.mem_reverse.mp hc)

/-! ## Rounding to whole numbers -/

/-- A number of `10^k` parts to the nearest whole one, halves up. -/
theorem floor_add_half {k m w : ℕ} (hw : w < 10 ^ k) :
    ⌊((m * 10 ^ k + w : ℕ) : ℚ) * 10 ^ (-(k : ℤ)) + 1 / 2⌋₊
      = if 10 ^ k ≤ 2 * w then m + 1 else m := by
  have hpos : (0 : ℚ) < 10 ^ k := by positivity
  have hsplit : ((m * 10 ^ k + w : ℕ) : ℚ) * 10 ^ (-(k : ℤ)) = m + w / 10 ^ k := by
    rw [zpow_neg, zpow_natCast]
    push_cast
    field_simp
  have h0 : (0 : ℚ) ≤ w / 10 ^ k := by positivity
  have h1 : (w : ℚ) / 10 ^ k < 1 := by
    rw [div_lt_one hpos]
    exact_mod_cast hw
  rw [hsplit]
  by_cases hhalf : 10 ^ k ≤ 2 * w
  · have hle : (1 : ℚ) / 2 ≤ w / 10 ^ k := by
      rw [le_div_iff₀ hpos]
      have hcast : (10 : ℚ) ^ k ≤ 2 * w := by exact_mod_cast hhalf
      linarith
    rw [if_pos hhalf, Nat.floor_eq_iff (by positivity)]
    push_cast
    constructor <;> linarith
  · have hlt : (w : ℚ) / 10 ^ k < 1 / 2 := by
      rw [div_lt_iff₀ hpos]
      have hcast : 2 * (w : ℚ) < 10 ^ k := by exact_mod_cast not_le.mp hhalf
      linarith
    rw [if_neg hhalf, Nat.floor_eq_iff (by positivity)]
    constructor <;> linarith

/-- **The first digit dropped tells** whether half of a unit is. -/
theorem five_le_head_iff {d : Char} {ds : List Char} (h : ∀ c ∈ d :: ds, c.isDigit = true) :
    '5' ≤ d ↔ 10 ^ (d :: ds).length ≤ 2 * numeralValue 10 (d :: ds) := by
  -- the digits behind the first are worth less than one in its place
  have hlt : numeralValue 10 ds < 10 ^ ds.length :=
    numeralValue_lt fun c hc => h c (List.mem_cons_of_mem d hc)
  have hvalue : numeralValue 10 (d :: ds) = digitValue d * 10 ^ ds.length + numeralValue 10 ds := by
    have happend := numeralValue_append 10 [d] ds
    rwa [show numeralValue 10 [d] = digitValue d by simp [numeralValue]] at happend
  rw [five_le_iff (h d List.mem_cons_self), hvalue, List.length_cons, Nat.pow_succ]
  constructor
  · intro hfive
    have hmul := Nat.mul_le_mul_right (10 ^ ds.length) hfive
    omega
  · intro hhalf
    -- a four stays below half with any digits behind it
    by_contra hfour
    have hmul := Nat.mul_le_mul_right (10 ^ ds.length) (show digitValue d ≤ 4 by omega)
    omega

/-- A number below a tenth of a unit is rounded to nothing. -/
theorem floor_add_half_of_lt {n k : ℕ} {shift : ℤ} (hn : n < 10 ^ k) (hk : (k : ℤ) < -shift) :
    ⌊(n : ℚ) * 10 ^ shift + 1 / 2⌋₊ = 0 := by
  have hten : (10 : ℚ) ^ (-1 - (k : ℤ)) = 1 / 10 / 10 ^ k := by
    rw [zpow_sub₀ (by norm_num), zpow_natCast]
    norm_num
  have hpow : (0 : ℚ) < 10 ^ k := by positivity
  have hle : (10 : ℚ) ^ shift ≤ 10 ^ (-1 - (k : ℤ)) := zpow_le_zpow_right₀ (by norm_num) (by omega)
  have hsmall : (n : ℚ) * 10 ^ shift < 1 / 10 := by
    calc (n : ℚ) * 10 ^ shift ≤ n * (1 / 10 / 10 ^ k) := by
          rw [← hten]
          exact mul_le_mul_of_nonneg_left hle (Nat.cast_nonneg n)
      _ < 10 ^ k * (1 / 10 / 10 ^ k) := by
          apply mul_lt_mul_of_pos_right _ (by positivity)
          exact_mod_cast hn
      _ = 1 / 10 := mul_div_cancel₀ _ hpow.ne'
  rw [Nat.floor_eq_zero]
  linarith

/-! ## Rounded rows -/

/-- A row of digits, at least one of them, that denotes a number. -/
structure Denotes (cs : List Char) (n : ℕ) : Prop where
  isDigit : ∀ c ∈ cs, c.isDigit = true
  ne_nil : cs ≠ []
  value_eq : numeralValue 10 cs = n

namespace Denotes

variable {n : ℕ}

theorem decimal (n : ℕ) : Denotes (decimal n) n :=
  ⟨fun _ => isDigit_of_mem_decimal, decimal_ne_nil n, numeralValue_decimal n⟩

theorem zero : Denotes ['0'] 0 :=
  ⟨List.forall_mem_singleton.mpr (by decide), by simp, by decide⟩

theorem append_zeros (h : Denotes cs n) (k : ℕ) :
    Denotes (cs ++ List.replicate k '0') (n * 10 ^ k) := by
  refine ⟨?_, by simp [h.ne_nil], by rw [numeralValue_append_zeros, h.value_eq]⟩
  rw [List.forall_mem_append]
  exact ⟨h.isDigit, isDigit_of_mem_zeros k⟩

theorem padLeft (h : Denotes cs n) (width : ℕ) : Denotes (padLeft width cs) n := by
  refine ⟨?_, by simp [Text.padLeft, h.ne_nil], ?_⟩
  · rw [Text.padLeft, List.forall_mem_append]
    exact ⟨isDigit_of_mem_zeros _, h.isDigit⟩
  · rw [Text.padLeft, numeralValue_zeros_append, h.value_eq]

/-- A row with no digits is shown as a zero. -/
theorem orZero (h : ∀ c ∈ cs, c.isDigit = true) :
    Denotes (if cs.isEmpty then ['0'] else cs) (numeralValue 10 cs) := by
  rcases cs with _ | ⟨c, cs⟩
  · exact zero
  · exact ⟨h, by simp, rfl⟩

/-- **A row that is cut goes up by one where at least half of a unit is dropped.** -/
theorem shiftRound_append {keep drop : List Char} (h : ∀ c ∈ keep ++ drop, c.isDigit = true)
    (hdrop : drop ≠ []) :
    Denotes (shiftRound (keep ++ drop) (-(drop.length : ℤ)))
      ⌊(numeralValue 10 (keep ++ drop) : ℚ) * 10 ^ (-(drop.length : ℤ)) + 1 / 2⌋₊ := by
  obtain ⟨d, ds, rfl⟩ := List.exists_cons_of_ne_nil hdrop
  obtain ⟨hkeep, hdigits⟩ := List.forall_mem_append.mp h
  have hpos : 0 < (d :: ds).length := List.length_pos_iff.mpr hdrop
  have hcut : (keep ++ d :: ds).length - (d :: ds).length = keep.length := by
    rw [List.length_append, Nat.add_sub_cancel]
  have hlong : ¬ (keep ++ d :: ds).length < (d :: ds).length := by
    rw [List.length_append]
    omega
  rw [shiftRound, if_neg (by omega), neg_neg, Int.toNat_natCast, if_neg hlong, hcut,
    List.take_left, List.drop_left]
  simp only [List.head?_cons, Option.any_some, decide_eq_true_eq]
  rw [numeralValue_append, floor_add_half (numeralValue_lt hdigits)]
  by_cases hhalf : 10 ^ (d :: ds).length ≤ 2 * numeralValue 10 (d :: ds)
  · rw [if_pos hhalf, if_pos ((five_le_head_iff hdigits).mpr hhalf), ← numeralValue_increment hkeep]
    exact orZero (isDigit_of_mem_increment hkeep)
  · rw [if_neg hhalf, if_neg (mt (five_le_head_iff hdigits).mp hhalf)]
    exact orZero hkeep

/-- **A row is rounded to the nearest whole number, halves up.** -/
theorem shiftRound (h : Denotes cs n) (shift : ℤ) :
    Denotes (shiftRound cs shift) ⌊(n : ℚ) * 10 ^ shift + 1 / 2⌋₊ := by
  by_cases hshift : 0 ≤ shift
  · obtain ⟨k, rfl⟩ := Int.eq_ofNat_of_zero_le hshift
    -- nothing is dropped, and half a unit does not reach the next whole number
    have hfloor : ⌊(n : ℚ) * 10 ^ (k : ℤ) + 1 / 2⌋₊ = n * 10 ^ k := by
      rw [zpow_natCast, Nat.floor_eq_iff (by positivity)]
      push_cast
      constructor <;> linarith
    rw [Text.shiftRound, if_pos hshift, Int.toNat_natCast, hfloor]
    exact h.append_zeros k
  · by_cases hshort : cs.length < (-shift).toNat
    · -- all digits are behind the first place that is dropped
      have hlt := numeralValue_lt h.isDigit
      rw [h.value_eq] at hlt
      rw [Text.shiftRound, if_neg hshift, if_pos hshort, floor_add_half_of_lt hlt (by omega)]
      exact zero
    · -- the row splits where it is cut, and something is dropped
      have hsplit := List.take_append_drop (cs.length - (-shift).toNat) cs
      have hlength : (cs.drop (cs.length - (-shift).toNat)).length = (-shift).toNat := by
        rw [List.length_drop]
        omega
      have hdrop : cs.drop (cs.length - (-shift).toNat) ≠ [] := by
        rw [← List.length_pos_iff]
        omega
      have hround := shiftRound_append (by rw [hsplit]; exact h.isDigit) hdrop
      rwa [hsplit, hlength, h.value_eq, show -((-shift).toNat : ℤ) = shift by omega] at hround

end Denotes

/-! ## Zeros in front -/

theorem dropLeadingZeros_zero_cons (cs : List Char) :
    dropLeadingZeros ('0' :: cs) = dropLeadingZeros cs := rfl

theorem dropLeadingZeros_cons (h : c ≠ '0') (cs : List Char) :
    dropLeadingZeros (c :: cs) = c :: cs := by
  rw [dropLeadingZeros, List.dropWhile_cons_of_neg (by simpa using h)]

/-- **Zeros in front do not count,** and one digit is left in any case. -/
theorem denotes_dropLeadingZeros (h : ∀ c ∈ cs, c.isDigit = true) :
    Denotes (dropLeadingZeros cs) (numeralValue 10 cs) := by
  induction cs with
  | nil => exact Denotes.zero
  | cons c cs ih =>
    by_cases hc : c = '0'
    · have hvalue : numeralValue 10 ('0' :: cs) = numeralValue 10 cs :=
        numeralValue_zeros_append 10 1 cs
      rw [hc, dropLeadingZeros_zero_cons, hvalue]
      exact ih fun d hd => h d (List.mem_cons_of_mem c hd)
    · rw [dropLeadingZeros_cons hc]
      exact ⟨h, by simp, rfl⟩

theorem head?_dropLeadingZeros_ne (h : 1 < (dropLeadingZeros cs).length) :
    (dropLeadingZeros cs).head? ≠ some '0' := by
  induction cs with
  | nil => exact absurd h (by decide)
  | cons c cs ih =>
    by_cases hc : c = '0'
    · rw [hc, dropLeadingZeros_zero_cons] at h ⊢
      exact ih h
    · rw [dropLeadingZeros_cons hc]
      simpa using hc

/-! ## Groups of three -/

/-- `text` is a row of digits in groups with commas between: groups of three, but for the first
one, which may be shorter and is not empty. -/
structure GroupedAs (cs text first : List Char) (rest : List (List Char)) : Prop where
  row_eq : cs = first ++ rest.flatten
  text_eq : text = List.intercalate [','] (first :: rest)
  first_pos : 0 < first.length
  first_le : first.length ≤ 3
  three : ∀ g ∈ rest, g.length = 3

theorem length_flatten_of_three {rest : List (List Char)} (h : ∀ g ∈ rest, g.length = 3) :
    rest.flatten.length = 3 * rest.length := by
  induction rest with
  | nil => rfl
  | cons g rest ih =>
    rw [List.forall_mem_cons] at h
    rw [List.flatten_cons, List.length_append, h.1, ih h.2, List.length_cons]
    ring

/-- **Commas stand before every three digits** counted from the end, and never in front. -/
theorem groupedAs_groupThousands (h : cs ≠ []) :
    ∃ first rest, GroupedAs cs (groupThousands cs) first rest := by
  induction cs with
  | nil => exact absurd rfl h
  | cons c cs ih =>
    by_cases hnil : cs = []
    · subst hnil
      exact ⟨[c], [], rfl, rfl, by simp, by simp, by simp⟩
    · obtain ⟨first, rest, hgroup⟩ := ih hnil
      have hlength : cs.length = first.length + 3 * rest.length := by
        rw [hgroup.row_eq, List.length_append, length_flatten_of_three hgroup.three]
      have hpos := hgroup.first_pos
      have hle := hgroup.first_le
      rw [groupThousands]
      by_cases hfull : cs.length % 3 = 0
      · -- the groups so far are full, and the digit starts a new one
        rw [if_pos ⟨hnil, hfull⟩]
        refine ⟨[c], first :: rest, ?_, ?_, by simp, by simp, ?_⟩
        · rw [hgroup.row_eq]
          rfl
        · rw [hgroup.text_eq, List.intercalate_cons_cons]
          rfl
        · rw [List.forall_mem_cons]
          exact ⟨by omega, hgroup.three⟩
      · -- the first group has room for the digit
        rw [if_neg fun hboth => hfull hboth.2]
        refine ⟨c :: first, rest, ?_, ?_, Nat.succ_pos _, ?_, hgroup.three⟩
        · rw [hgroup.row_eq]
          rfl
        · rw [hgroup.text_eq]
          rcases rest with _ | ⟨g, rest⟩
          · rfl
          · rw [List.intercalate_cons_cons, List.intercalate_cons_cons]
            rfl
        · rw [List.length_cons]
          omega

end BasicNumerics.Text
