/-
What can go wrong, and how it is told.

A `Fault` stops the computation: it has a cause with a number and a fixed
wording, and optionally the program line it arose in and a short note. A
`Failure` is what an arithmetic operation reports. Overflow and division by zero
are *soft*: they carry a substitute, the value a tolerant run goes on with. All
other failures are faults and carry none.
-/

set_option autoImplicit false

namespace BasicNumerics

/-! ## Faults -/

/-- The causes of a fault. -/
inductive Cause where
  | syntaxError
  | illegalFunctionCall
  | overflow
  | divisionByZero
  | typeMismatch
  | stringTooLong
  | internalError
deriving DecidableEq, Repr

namespace Cause

/-- Every cause, in the order of their numbers. -/
def all : List Cause :=
  [syntaxError, illegalFunctionCall, overflow, divisionByZero, typeMismatch, stringTooLong,
    internalError]

/-- The number a program sees as its error code. -/
def code : Cause → Nat
  | syntaxError => 2
  | illegalFunctionCall => 5
  | overflow => 6
  | divisionByZero => 11
  | typeMismatch => 13
  | stringTooLong => 15
  | internalError => 51

def message : Cause → String
  | syntaxError => "SYNTAX ERROR"
  | illegalFunctionCall => "ILLEGAL FUNCTION CALL"
  | overflow => "OVERFLOW"
  | divisionByZero => "DIVISION BY ZERO"
  | typeMismatch => "TYPE MISMATCH"
  | stringTooLong => "STRING TOO LONG"
  | internalError => "INTERNAL ERROR"

end Cause

/-- A failure that stops the computation. The line is absent for what is typed
directly; an empty note is no note. -/
structure Fault where
  cause : Cause
  line : Option Nat := none
  note : String := ""
deriving DecidableEq, Repr

namespace Fault

def ofCause (cause : Cause) : Fault := { cause := cause }

/-- A syntax error with a note on what was expected. -/
def badSyntax (note : String) : Fault := { cause := .syntaxError, note := note }

/-- A fault of the caller, not of the program text: bytes that hold no number. -/
def badBytes (note : String) : Fault := { cause := .internalError, note := note }

def inLine (f : Fault) (line : Nat) : Fault := { f with line := some line }

def noting (f : Fault) (note : String) : Fault := { f with note := note }

def isDirect (f : Fault) : Bool := f.line.isNone

/-- The text shown to the user: the wording, the line if there is one, and the
note if there is one. -/
def message (f : Fault) : String :=
  f.cause.message
    ++ (match f.line with
        | some n => " IN " ++ toString n
        | none => "")
    ++ (if f.note = "" then "" else "; " ++ f.note)

def logText (f : Fault) : String :=
  "Error \x7b " ++ f.message ++ " \x7d"

end Fault

/-! ## Failures of arithmetic -/

/-- How an operation that should give an `α` fails. -/
inductive Failure (α : Type) where
  | overflow (substitute : α)
  | divisionByZero (substitute : α)
  | fault (f : Fault)
deriving DecidableEq, Repr

namespace Failure

variable {α β : Type}

/-- The value a tolerant run goes on with. -/
def substitute? : Failure α → Option α
  | overflow x => some x
  | divisionByZero x => some x
  | fault _ => none

/-- Whether a tolerant run can go on. -/
def isSoft (e : Failure α) : Bool := e.substitute?.isSome

/-- The fault a failure becomes when nothing is tolerated. -/
def toFault : Failure α → Fault
  | overflow _ => .ofCause .overflow
  | divisionByZero _ => .ofCause .divisionByZero
  | fault f => f

/-- The same failure with its substitute seen in another type. -/
def map (f : α → β) : Failure α → Failure β
  | overflow x => overflow (f x)
  | divisionByZero x => divisionByZero (f x)
  | fault e => fault e

@[simp] theorem toFault_map (f : α → β) (e : Failure α) : (e.map f).toFault = e.toFault := by
  cases e <;> rfl

@[simp] theorem substitute?_map (f : α → β) (e : Failure α) :
    (e.map f).substitute? = e.substitute?.map f := by
  cases e <;> rfl

end Failure

/-- A result or the failure of the operation. -/
abbrev Outcome (α β : Type) : Type := Except (Failure α) β

/-- An outcome seen in a wider type, result and substitute alike. -/
def Outcome.lift {α β : Type} (f : α → β) (o : Outcome α α) : Outcome β β :=
  match o with
  | .ok x => .ok (f x)
  | .error e => .error (e.map f)

/-- A plain fault as a failure. -/
def Outcome.ofFault {α β : Type} (r : Except Fault β) : Outcome α β :=
  match r with
  | .ok x => .ok x
  | .error f => .error (.fault f)

end BasicNumerics
