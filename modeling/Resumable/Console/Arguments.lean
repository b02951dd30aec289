import Resumable.Failure
import Resumable.Text.Blank

/-!
# Argument texts

Lists written with commas: of names, and of integers as arguments of a call.
-/

namespace Resumable.Console

/-- The names in a text, without blanks around them; blank ones are left out. -/
def splitList (text : String) : List String :=
  (Text.commaFields text).filter fun field => field ≠ ""

def parseArg (field : String) : Except Failure Value :=
  match Decimal.readInt64? field with
  | some n => .ok (.int n)
  | none => .error (.plain ("argument " ++ Text.quote field ++ " is not an integer"))

/-- Reads integers written with commas; blank places are left out. -/
def parseArgs (text : String) : Except Failure (List Value) :=
  (splitList text).mapM parseArg

def argsText (p : Program) (args : List Value) : String :=
  ", ".intercalate (args.map (·.format p))

def formatArgs (p : Program) (args : List Value) : String :=
  "(" ++ argsText p args ++ ")"

end Resumable.Console
