import Resumable.Machine.Value

/-!
# Keys

The names of an object's fields. A program can write a name out as a text, but
any value can index an object, and functions and objects have no text that
tells them from their likes. A key is therefore a text that may hold marks;
two marks are equal only if they stand for the same thing, and no text that a
program can write equals a key with a mark.
-/

namespace Resumable

/-- What stands in a key for something without a text. -/
inductive Mark where
  | definition (id : FuncId)
  | frame (id : FrameId)
  /-- What natives of one kind have in common. -/
  | code (kind : NativeKind)
  /-- A function value, native or not. -/
  | function (tag : Nat)
  | object (ref : Nat)
  deriving DecidableEq, Repr

namespace Mark

def place : Mark → Nat × Nat
  | .definition id => (0, id)
  | .frame id => (1, id)
  | .code kind => (2, kind.ctorIdx)
  | .function tag => (3, tag)
  | .object ref => (4, ref)

def before (a b : Mark) : Bool :=
  a.place.1 < b.place.1 || (a.place.1 == b.place.1 && a.place.2 < b.place.2)

def display : Mark → String
  | .definition id => s!"definition@{id}"
  | .frame id => s!"frame@{id}"
  | .code kind => s!"code@{kind.ctorIdx}"
  | .function tag => s!"function@{tag}"
  | .object ref => s!"object@{ref}"

end Mark

inductive Key where
  | text (s : String)
  /-- A text, the mark after it and the rest. -/
  | marked (s : String) (m : Mark) (rest : Key)
  deriving DecidableEq, Repr

namespace Key

instance : Inhabited Key := ⟨.text ""⟩

def append : Key → Key → Key
  | .text s, .text t => .text (s ++ t)
  | .text s, .marked t m rest => .marked (s ++ t) m rest
  | .marked s m rest, k => .marked s m (rest.append k)

instance : Append Key := ⟨append⟩

def ofMark (m : Mark) : Key := .marked "" m (.text "")

def before : Key → Key → Bool
  | .text s, .text t => s < t
  | .text s, .marked t _ _ => s ≤ t
  | .marked s _ _, .text t => s < t
  | .marked s m rest, .marked t n others =>
      s < t || (s == t && (m.before n || (m == n && rest.before others)))

def spaced : List Key → Key
  | [] => .text ""
  | [k] => k
  | k :: rest => k ++ .text " " ++ spaced rest

def compound (parts : List Key) : Key :=
  .text "&\x7b" ++ spaced parts ++ .text "\x7d"

/-- How a value looks as a part of a compound key: functions and objects are
marked there. -/
def ofPart : Value → Key
  | .null => .text "<nil>"
  | .bool b => .text (if b then "true" else "false")
  | .int n => .text (Decimal.int64Text n)
  | .num x => .text (Decimal.floatText x)
  | .str s => .text s
  | .closure tag _ _ => .ofMark (.function tag)
  | .native tag _ _ => .ofMark (.function tag)
  | .object ref _ => .ofMark (.object ref)

def display : Key → String
  | .text s => s
  | .marked s m rest => s ++ m.display ++ rest.display

end Key

end Resumable
