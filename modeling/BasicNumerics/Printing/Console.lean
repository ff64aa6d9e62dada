/-
Answers on a terminal.

A line typed in is answered by what the session tells on the way, one message to a
line, and then by the value or by the fault in bold. A number is shown with its
kind and the bytes of its buffer, these faint.
-/
import BasicNumerics.Expr.Evaluate

set_option autoImplicit false

namespace BasicNumerics

/-- Text with a rendition of the terminal switched on before it and off after it. -/
def rendered (rendition : String) (text : String) : String :=
  "\x1b[" ++ rendition ++ "m" ++ text ++ "\x1b[0m"

def bold : String → String := rendered "1"

def faint : String → String := rendered "2"

def Value.describe (v : Value) : String :=
  match v with
  | .string s => s
  | v =>
    v.text .print ++ "\t" ++ String.singleton v.kind.sigil ++ "["
      ++ faint (String.ofList (Bytes.text v.toBytes)) ++ "]"

/-- The lines that answer a line typed in; a blank one has no answer. -/
def Session.reply (s : Session) (line : String) : List String :=
  if (Text.trim line.toList).isEmpty then []
  else
    let r := s.evaluate line
    r.messages
      ++ (match r.result with
          | .ok v => [v.describe]
          | .error f => [bold f.message])

end BasicNumerics
