import Recognizer.CommandLine.Response

/-!
# The program

Prints what was asked for; everything else goes to the error stream.
-/

open Recognizer.CommandLine

/-- Run the program: status 2 when the arguments are refused, 1 when it fails. -/
def main (args : List String) : IO UInt32 := do
  match respond args with
  | .refused =>
      IO.eprintln "usage: parse | show | check | trace, with their arguments"
      return 2
  | .failed message =>
      IO.eprintln ("Error: " ++ message)
      return 1
  | .printed output log =>
      log.forM (IO.eprintln ·)
      IO.print output
      return 0
