import Resumable.Arena.Program
import Resumable.Decimal.Notation
import Resumable.Decimal.Integer
import Resumable.Text.Quoted

/-!
# Runtime values

Values with their truth, equality and text. Functions and objects have
identity and are equal only to themselves; numbers of both kinds are equal if
they are as doubles.
-/

namespace Resumable

/-- The place of an activation's variables in the store. -/
abbrev FrameId := Nat

/-- The frames a piece of code sees, innermost first. -/
abbrev Env := List FrameId

inductive NativeKind where
  /-- Notes the call in the trace and returns the number of notes so far. -/
  | trace
  /-- Returns its first argument. -/
  | identity
  /-- Throws its first argument. -/
  | throw
  /-- Fails without a thrown value. -/
  | fail
  /-- Returns the number of its arguments. -/
  | count
  /-- Adds its first argument to the recorded values. -/
  | record
  deriving DecidableEq, Repr, Inhabited

inductive Value where
  | null
  | bool (b : Bool)
  | int (n : Int64)
  | num (x : Float)
  | str (s : String)
  /-- A function bound to the frames it was made in. -/
  | closure (tag : Nat) (fn : FuncId) (env : Env)
  | native (tag : Nat) (name : String) (kind : NativeKind)
  /-- An object by its place in the store, with its class. -/
  | object (ref : Nat) (cls : Option ClassId)
  deriving Inhabited, Repr

namespace Value

def ofLiteral : Literal → Value
  | .null => .null
  | .bool b => .bool b
  | .int n => .int n
  | .num x => .num x
  | .str s => .str s

def truthy : Value → Bool
  | .null => false
  | .bool b => b
  | .int n => n != 0
  | .num x => !(x == 0.0) && !x.isNaN
  | .str s => s ≠ ""
  | _ => true

def number? : Value → Option Float
  | .int n => some n.toFloat
  | .num x => some x
  | _ => none

def equal (a b : Value) : Bool :=
  match a.number?, b.number? with
  | some x, some y => x == y
  | some _, none | none, some _ => false
  | none, none =>
      match a, b with
      | .null, .null => true
      | .bool x, .bool y => x = y
      | .str x, .str y => x = y
      | .closure s _ _, .closure t _ _ => s = t
      | .native s _ _, .native t _ _ => s = t
      | .object r _, .object s _ => r = s
      | _, _ => false

def typeName : Value → String
  | .null => "null"
  | .bool _ => "boolean"
  | .int _ | .num _ => "number"
  | .str _ => "string"
  | .closure .. | .native .. => "function"
  | .object .. => "object"

def format (p : Program) : Value → String
  | .null => "null"
  | .bool b => if b then "true" else "false"
  | .int n => Decimal.int64Text n
  | .num x => Decimal.floatText x
  | .str s => Text.quote s
  | .closure _ fn _ => "function " ++ p.nameOf fn
  | .native _ name _ => "native " ++ name
  | .object _ none => "object"
  | .object _ (some c) => p.types.classText c

def display (p : Program) : Value → String
  | .str s => s
  | v => v.format p

def isInstance (p : Program) (className : String) : Value → Bool
  | .object _ (some c) =>
      match p.types.class? c with
      | some cls => cls.name = className
      | none => false
  | _ => false

end Value

end Resumable
