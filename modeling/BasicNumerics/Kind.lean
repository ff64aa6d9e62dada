/-
The kinds of values.

Three kinds of numbers, ordered by what they can hold, and strings. Two operands
meet in the higher of their kinds; a string meets only a string.
-/
import BasicNumerics.Fault
import BasicNumerics.Precision

set_option autoImplicit false

namespace BasicNumerics

inductive NumberKind where
  | integer
  | float (p : Precision)
deriving DecidableEq, Repr

namespace NumberKind

/-- The mark that names the kind after a number or a variable. -/
def sigil : NumberKind → Char
  | integer => '%'
  | float p => p.sigil

def ofSigil? : Char → Option NumberKind
  | '%' => some integer
  | '!' => some (float .single)
  | '#' => some (float .double)
  | _ => none

def size : NumberKind → Nat
  | integer => 2
  | float p => p.size

/-- The kind that holds the numbers of both. -/
def max : NumberKind → NumberKind → NumberKind
  | integer, k => k
  | k, integer => k
  | float p, float q => float (p.max q)

/-- **A mark names its kind.** -/
@[simp] theorem ofSigil?_sigil (k : NumberKind) : ofSigil? k.sigil = some k := by
  cases k with
  | integer => rfl
  | float p => cases p <;> rfl

/-- A mark names a kind in one way only. -/
theorem sigil_of_ofSigil? {c : Char} {k : NumberKind} (h : ofSigil? c = some k) :
    k.sigil = c := by
  unfold ofSigil? at h
  split at h <;> simp only [Option.some.injEq, reduceCtorEq] at h <;> subst h <;> rfl

end NumberKind

inductive Kind where
  | number (k : NumberKind)
  | string
deriving DecidableEq, Repr

namespace Kind

def sigil : Kind → Char
  | number k => k.sigil
  | string => '$'

/-- Bytes of the buffer; strings have none. -/
def size? : Kind → Option Nat
  | number k => some k.size
  | string => none

def highest : Kind → Kind → Except Fault Kind
  | number k, number l => .ok (number (k.max l))
  | string, string => .ok string
  | _, _ => .error (.ofCause .typeMismatch)

end Kind

end BasicNumerics
