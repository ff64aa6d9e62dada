/-
Digits and numerals.

A numeral is written to any base from 2 to 36, highest digit first, with letters
past nine; letters are read in either case. Grouping puts a comma between every
three digits, counted from the right.
-/

set_option autoImplicit false

namespace BasicNumerics.Text

/-! ## Digits -/

def digitChar (d : Nat) : Char := if d < 10 then Char.ofNat (48 + d) else Char.ofNat (55 + d)

/-- The number a digit or letter stands for. -/
def digitValue? (c : Char) : Option Nat :=
  if c.isDigit then some (c.toNat - 48)
  else if c.isUpper then some (c.toNat - 55)
  else if c.isLower then some (c.toNat - 87)
  else none

/-- Whether a character is a digit to the given base. -/
def isDigitOf (base : Nat) (c : Char) : Bool := (digitValue? c).any (· < base)

/-- The number a character stands for, zero for one that is no digit. -/
def digitValue (c : Char) : Nat := (digitValue? c).getD 0

/-! ## Numerals -/

/-- The number that a row of digits denotes to the given base. -/
def numeralValue (base : Nat) (cs : List Char) : Nat :=
  cs.foldl (fun n c => n * base + digitValue c) 0

/-- The numeral of a number to the given base, without leading zeros. -/
def numeral (base : Nat) (n : Nat) : List Char :=
  if _h : base < 2 ∨ n < base then [digitChar n]
  else numeral base (n / base) ++ [digitChar (n % base)]
termination_by n
decreasing_by exact Nat.div_lt_self (by omega) (by omega)

def decimal (n : Nat) : List Char := numeral 10 n

/-- A numeral with zeros in front up to the given length. -/
def padLeft (width : Nat) (cs : List Char) : List Char :=
  List.replicate (width - cs.length) '0' ++ cs

/-- A numeral with zeros behind up to the given length. -/
def padRight (width : Nat) (cs : List Char) : List Char :=
  cs ++ List.replicate (width - cs.length) '0'

/-- A numeral with a comma before every third digit from the right. -/
def groupThousands : List Char → List Char
  | [] => []
  | c :: cs =>
    if cs ≠ [] ∧ cs.length % 3 = 0 then c :: ',' :: groupThousands cs
    else c :: groupThousands cs

/-! ## Reading what was written -/

theorem digitValue_digitChar {d : Nat} (h : d < 36) : digitValue (digitChar d) = d := by
  revert d
  decide

theorem numeralValue_append_singleton (base : Nat) (cs : List Char) (c : Char) :
    numeralValue base (cs ++ [c]) = numeralValue base cs * base + digitValue c := by
  simp only [numeralValue, List.foldl_append, List.foldl_cons, List.foldl_nil]

/-- **A numeral denotes its number,** to every base that has enough digits. -/
theorem numeralValue_numeral {base : Nat} (hlow : 2 ≤ base) (hhigh : base ≤ 36) (n : Nat) :
    numeralValue base (numeral base n) = n := by
  induction n using Nat.strongRecOn with
  | _ n ih =>
    rw [numeral]
    split
    · next h =>
      have hn : n < base := by omega
      simp [numeralValue, digitValue_digitChar (Nat.lt_of_lt_of_le hn hhigh)]
    · next h =>
      have hn : base ≤ n := by omega
      rw [numeralValue_append_singleton,
        ih (n / base) (Nat.div_lt_self (by omega) (by omega)),
        digitValue_digitChar (Nat.lt_of_lt_of_le (Nat.mod_lt _ (by omega)) hhigh)]
      exact Nat.div_add_mod' n base

/-- **A decimal numeral denotes its number.** -/
theorem numeralValue_decimal (n : Nat) : numeralValue 10 (decimal n) = n :=
  numeralValue_numeral (by decide) (by decide) n

/-! ## Lengths -/

theorem length_padLeft (width : Nat) (cs : List Char) :
    (padLeft width cs).length = Nat.max width cs.length := by
  simp only [padLeft, List.length_append, List.length_replicate]
  show _ = Max.max width cs.length
  omega

theorem length_padRight (width : Nat) (cs : List Char) :
    (padRight width cs).length = Nat.max width cs.length := by
  simp only [padRight, List.length_append, List.length_replicate]
  show _ = Max.max width cs.length
  omega

/-- Grouping adds commas and nothing else. -/
theorem filter_groupThousands (cs : List Char) (h : ∀ c ∈ cs, c ≠ ',') :
    (groupThousands cs).filter (· ≠ ',') = cs := by
  induction cs with
  | nil => rfl
  | cons c cs ih =>
    have hc : c ≠ ',' := h c (by simp)
    have hcs : ∀ d ∈ cs, d ≠ ',' := fun d hd => h d (by simp [hd])
    unfold groupThousands
    split <;> simp_all

end BasicNumerics.Text
