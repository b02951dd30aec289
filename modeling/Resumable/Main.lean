import Resumable.Console.Flags

/-!
# The command line

Lowers a sample program, runs it and prints what happens.
-/

open Resumable

def main (args : List String) : IO UInt32 := do
  match Console.Options.ofWords {} args with
  | .error e => do
      IO.eprintln e.message
      return 2
  | .ok options => do
      let (report, failure) := Console.run options
      IO.print report
      match failure with
      | none => return 0
      | some f => do
          IO.eprintln ("Error: " ++ f.message {})
          return 1
