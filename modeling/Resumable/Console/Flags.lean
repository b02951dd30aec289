import Resumable.Console.Report

/-!
# Command-line flags

Reads the options of a report from the words of a command line. A flag is
written with one dash or two, and its value after `=` or as the next word.
-/

namespace Resumable.Console

/-- Why a command line is refused. -/
inductive FlagError where
  | notDefined (name : String)
  | needsValue (name : String)
  | notBoolean (value name : String)
  | notInteger (value name : String)
  deriving DecidableEq, Repr

def FlagError.message : FlagError → String
  | .notDefined name => "flag provided but not defined: -" ++ name
  | .needsValue name => "flag needs an argument: -" ++ name
  | .notBoolean value name =>
      "invalid boolean value " ++ Text.quote value ++ " for -" ++ name ++ ": parse error"
  | .notInteger value name =>
      "invalid value " ++ Text.quote value ++ " for flag -" ++ name ++ ": parse error"

def flag? (word : String) : Option (String × Option String) :=
  let split (cs : List Char) : String × Option String :=
    let name := cs.takeWhile (· ≠ '=')
    match cs.drop name.length with
    | _ :: value => (String.ofList name, some (String.ofList value))
    | [] => (String.ofList name, none)
  match word.toList with
  | ['-'] | ['-', '-'] => none
  | '-' :: '-' :: cs => some (split cs)
  | '-' :: cs => some (split cs)
  | _ => none

def readBool? (text : String) : Option Bool :=
  if ["1", "t", "T", "true", "TRUE", "True"].contains text then some true
  else if ["0", "f", "F", "false", "FALSE", "False"].contains text then some false
  else none

def switch? (name : String) : Option (Bool → Options → Options) :=
  match name with
  | "list" => some fun b o => { o with list := b }
  | "dump" => some fun b o => { o with dump := b }
  | "no-cps" => some fun b o => { o with skipExpressions := b }
  | "no-color" => some fun b o => { o with color := o.color && !b }
  | _ => none

def setting? (name : String) : Option (String → Options → Except FlagError Options) :=
  match name with
  | "sample" => some fun value o => .ok { o with sample := value }
  | "only" => some fun value o => .ok { o with only := splitList value }
  | "steps" => some fun value o =>
      match Decimal.readInt64? value with
      | some n => .ok { o with steps := n.toInt }
      | none => .error (.notInteger value name)
  | _ => none

def Options.ofWords (o : Options) : List String → Except FlagError Options
  | [] => .ok o
  | word :: rest =>
      match flag? word with
      | none => .ok o
      | some (name, attached) =>
          match switch? name, setting? name, attached, rest with
          | some set, _, attached, rest => do
              let value := attached.getD "true"
              match readBool? value with
              | some b => ofWords (set b o) rest
              | none => .error (.notBoolean value name)
          | none, some set, some value, rest => do
              let o ← set value o
              ofWords o rest
          | none, some set, none, value :: more => do
              let o ← set value o
              ofWords o more
          | none, some _, none, [] => .error (.needsValue name)
          | none, none, _, _ => .error (.notDefined name)

end Resumable.Console
