import Treewalk.CommandLine

/-!
# The program

Reads the arguments, the file they name and the standard input, and writes what
`CommandLine.perform` makes of them.
-/

set_option autoImplicit false
set_option relaxedAutoImplicit false

namespace Treewalk.CommandLine

/-- The contents of a file, if it can be read. -/
def readContents (path : String) : IO (Option String) := do
  try
    return some (← IO.FS.readFile path)
  catch _ => return none

/-- Runs the program and gives its exit code. -/
def runWith (args : List String) : IO UInt32 := do
  match options .start args with
  | none =>
    IO.eprintln "usage: treewalk [--quiet] [FILE | --eval SOURCE]"
    return 2
  | some o =>
    let contents ← match o.file with
      | some path => readContents path
      | none => pure none
    let input ← if o.file.isNone && o.source.isNone then (← IO.getStdin).readToEnd else pure ""
    match perform ample o contents input with
    | some result =>
      IO.print result.output
      IO.eprint result.errors
      return UInt32.ofNat result.exitCode
    | none =>
      IO.eprintln "evaluation is too deep"
      return 70

end Treewalk.CommandLine

def main (args : List String) : IO UInt32 :=
  Treewalk.CommandLine.runWith args
