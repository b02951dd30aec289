import Resumable.Arena.Program

/-!
# Fresh names

Counters for the variables and labels that lowering makes up. Each kind of
construct draws its numbers from a sequence of its own, and labels contain the
kind and the number.
-/

namespace Resumable

structure LabelKind where
  name : String
  deriving DecidableEq, Repr, Inhabited

namespace LabelKind

def whileLoop : LabelKind := ⟨"WHILE"⟩
def doWhile : LabelKind := ⟨"DO_WHILE"⟩
def forLoop : LabelKind := ⟨"FOR"⟩
def ifElse : LabelKind := ⟨"IF"⟩
def switch : LabelKind := ⟨"SWITCH"⟩
def yield : LabelKind := ⟨"YIELD"⟩

end LabelKind

structure Names where
  counters : List (LabelKind × Nat) := []
  fresh : Nat := 0
  deriving Inhabited, Repr

namespace Names

def count (names : Names) (kind : LabelKind) : Nat :=
  (names.counters.lookup kind).getD 0

def setCount (kind : LabelKind) (n : Nat) : List (LabelKind × Nat) → List (LabelKind × Nat)
  | [] => [(kind, n)]
  | (other, m) :: rest =>
      if other = kind then (other, n) :: rest else (other, m) :: setCount kind n rest

def next (names : Names) (kind : LabelKind) : Nat × Names :=
  let n := names.count kind + 1
  (n, { names with counters := setCount kind n names.counters })

def freshName (names : Names) : String × Names :=
  let n := names.fresh + 1
  ("$a" ++ toString n, { names with fresh := n })

end Names

namespace Label

def begin : String := "$BEGIN"

def finish : String := "$END"

/-- A label such as `$TEST_WHILE_3`. -/
def part (name : String) (kind : LabelKind) (id : Int) : String :=
  "$" ++ name ++ "_" ++ kind.name ++ "_" ++ toString id

def caseOf (id i : Int) : String :=
  "$SWITCH_" ++ toString id ++ "_CASE_" ++ toString i

def defaultOf (id : Int) : String :=
  "$SWITCH_" ++ toString id ++ "_DEFAULT"

def afterYield (id : Int) : String :=
  "$YIELD_" ++ toString id

/-- The variable of a generator object inside `depth` other generators. -/
def generatorVariable (depth : Int) : String :=
  "$generator" ++ toString depth

end Label

end Resumable
