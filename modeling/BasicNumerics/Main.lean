/-
The calculator: reads expressions line by line and answers each.

The argument `--double` makes the computed functions answer in double precision
for doubles.
-/
import BasicNumerics.Printing.Console

set_option autoImplicit false

namespace BasicNumerics

/-- Prompts, reads a line and answers it, until the input ends. -/
partial def converse (s : Session) (input output : IO.FS.Stream) : IO Unit := do
  output.putStr "] "
  output.flush
  let line ← input.getLine
  if line.isEmpty then
    output.putStrLn ""
  else
    let line := String.ofList (line.toList.filter (· ≠ '\n'))
    for reply in s.reply line do
      output.putStrLn reply
    converse s input output

end BasicNumerics

/-- Runs the calculator on the standard streams. -/
def main (args : List String) : IO Unit := do
  let session : BasicNumerics.Session :=
    { policy := .soft false, doubleMath := args.contains "--double" }
  BasicNumerics.converse session (← IO.getStdin) (← IO.getStdout)
