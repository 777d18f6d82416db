import Reckoner.CommandLine.Run

/-!
# The command

Reads the files that a command names, runs it, and prints its output or its
error. The status is 0 for an output, 1 for an error, and 2 for words that are
no command.
-/

namespace Reckoner.CommandLine

/-- The content of a file, if it can be read. -/
def readFile? (file : String) : IO (Option String) := do
  try
    return some (← IO.FS.readFile file)
  catch _ =>
    return none

/-- An error with what is behind it. -/
def errorText (e : CommandError) : String :=
  match e.cause? with
  | some failure => "Error: " ++ e.message ++ "\n\nCaused by:\n    " ++ failure.message
  | none => "Error: " ++ e.message

/-- Prints the output or the error of a command; the status that it ends with. -/
def execute (command : Command) : IO UInt32 := do
  let contents ← command.files.mapM fun file => return (file, ← readFile? file)
  match command.run fun file => (contents.lookup file).join with
  | .ok output =>
    IO.print output
    return 0
  | .error e =>
    IO.eprintln (errorText e)
    return 1

end Reckoner.CommandLine

open Reckoner.CommandLine in
/-- The program. -/
def main (args : List String) : IO UInt32 :=
  match Command.ofArguments? args with
  | some command => execute command
  | none => do
    IO.eprintln "usage: eval EXPRESSION | check EXPRESSION | batch FILE | ledger FILE, with options"
    return 2
