/-
Sessions: what a failure of arithmetic becomes.

A session is strict or soft. A soft one goes on after an overflow or a division by
zero: it tells the user and takes the substitute. While it is suspended, as inside
an error trap, it stops as a strict one does. Every operation of a session is an
operation on values followed by this one decision, and what it tells the user is
part of its outcome.
-/
import BasicNumerics.Text.Blank
import BasicNumerics.Value.Function

set_option autoImplicit false

namespace BasicNumerics

/-! ## Runs -/

/-- A computation that may tell the user something and may stop at a fault. The
messages told before a fault stay told. -/
structure Run (α : Type) where
  messages : List String
  result : Except Fault α

namespace Run

variable {α β : Type}

def done (x : α) : Run α := ⟨[], .ok x⟩

def fail (f : Fault) : Run α := ⟨[], .error f⟩

/-- Goes on with the value of a run, if it has one. -/
def andThen (r : Run α) (k : α → Run β) : Run β :=
  match r.result with
  | .ok x => ⟨r.messages ++ (k x).messages, (k x).result⟩
  | .error f => ⟨r.messages, .error f⟩

instance : Monad Run where
  pure := done
  bind := andThen

def ofExcept (r : Except Fault α) : Run α := ⟨[], r⟩

@[simp] theorem pure_eq (x : α) : (pure x : Run α) = ⟨[], .ok x⟩ := rfl

@[simp] theorem done_andThen (x : α) (k : α → Run β) : (done x).andThen k = k x := by
  simp [done, andThen]

@[simp] theorem fail_andThen (f : Fault) (k : α → Run β) : (fail f : Run α).andThen k = fail f :=
  rfl

/-- **Messages come in order:** how steps are grouped does not matter. -/
theorem andThen_assoc {γ : Type} (r : Run α) (k : α → Run β) (l : β → Run γ) :
    (r.andThen k).andThen l = r.andThen fun x => (k x).andThen l := by
  obtain ⟨messages, result⟩ := r
  cases result with
  | error f => rfl
  | ok x =>
    simp only [andThen]
    split <;> simp

end Run

/-! ## Sessions -/

/-- What to do with a soft failure. -/
inductive Policy where
  | strict
  | soft (suspended : Bool)
deriving DecidableEq, Repr

/-- The settings of a session. -/
structure Session where
  policy : Policy
  /-- Whether computed functions answer in double precision for doubles. -/
  doubleMath : Bool := false
deriving DecidableEq, Repr

namespace Session

/-- Suspends a soft session or lets it go on; a strict one has nothing to
suspend. -/
def suspend (s : Session) (suspended : Bool) : Session :=
  match s.policy with
  | .strict => s
  | .soft _ => { s with policy := .soft suspended }

def suspended? (s : Session) : Option Bool :=
  match s.policy with
  | .strict => none
  | .soft suspended => some suspended

/-- The decision on a failure: a soft session that is not suspended tells the user
and takes the substitute, if there is one. -/
def recover (s : Session) (o : Calc) : Run Value :=
  match o with
  | .ok v => .done v
  | .error e =>
    match s.policy, e.substitute? with
    -- only here does a session speak
    | .soft false, some v => ⟨[e.toFault.message], .ok v⟩
    | _, _ => .fail e.toFault

/-! ## Operations of a session -/

def ofLiteral (s : Session) (l : Literal) : Run Value := s.recover (Value.ofLiteral l)

def negate (s : Session) (v : Value) : Run Value := s.recover v.negate

def not (s : Session) (v : Value) : Run Value := s.recover v.not

def apply (s : Session) (op : Operator) (l r : Value) : Run Value := s.recover (op.apply l r)

def applyFunction (s : Session) (f : Function) (v : Value) : Run Value :=
  s.recover (f.apply s.doubleMath v)

def call (s : Session) (name : String) (v : Value) : Run Value :=
  s.recover (Function.call s.doubleMath name v)

def toSingle (s : Session) (v : Value) : Run Value :=
  s.recover (v.toKind (.number (.float .single)))

/-- A text without its sign, `true` for minus, and without the blanks after it. -/
def splitSign : List Char → Bool × List Char
  | '-' :: cs => (true, Text.trimStart cs)
  | '+' :: cs => (false, Text.trimStart cs)
  | cs => (false, cs)

/-- The number that a text holds: one literal, perhaps with a sign, and blanks
around either. -/
def ofText (s : Session) (text : String) : Run Value :=
  let (neg, digits) := splitSign (Text.trim text.toList)
  match Literal.scan? digits with
  | some (l, []) => do
    let v ← s.ofLiteral l
    if neg then s.negate v else pure v
  | _ => .fail (.badSyntax "NOT A NUMBER")

end Session

end BasicNumerics
