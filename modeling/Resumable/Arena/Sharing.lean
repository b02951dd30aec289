import Resumable.Arena.Program

/-!
# Statements in common

A simple statement can stand in the bodies of several definitions at once:
forming fragments hands the statements of a body on to new definitions, and the
body itself keeps them until the last fragment is made. Statements in common
have the same number, and new expressions in one of them are new expressions in
all of them.
-/

namespace Resumable

namespace Stmt

/-- Gives a number to a simple statement that has none. -/
def share (n : Nat) : Stmt → Stmt
  | .simple s none => .simple s (some n)
  | s => s

def shared? : Stmt → Option (Nat × Simple)
  | .simple s (some n) => some (n, s)
  | _ => none

def refresh (common : List (Nat × Simple)) : Stmt → Stmt
  | .simple s (some n) => .simple ((common.lookup n).getD s) (some n)
  | s => s

end Stmt

namespace Program

def shareBody (p : Program) (id : FuncId) : Program :=
  match p.func? id with
  | none => p
  | some f =>
      let body := f.body.mapIdx fun i s => s.share (p.shareCount + i)
      { p.modifyFunc id fun f => { f with body } with
        shareCount := p.shareCount + f.body.length }

def refresh (p : Program) (stmts : List Stmt) : Program :=
  let common := stmts.filterMap Stmt.shared?
  if common.isEmpty then p
  else { p with funcs := p.funcs.map fun f => { f with body := f.body.map (·.refresh common) } }

/-- Gives a definition its body with other expressions in it. They also go into
the statements that other definitions hold in common with the body. -/
def refill (p : Program) (id : FuncId) (body : List Stmt) : Program :=
  (p.refresh body).modifyFunc id fun f => { f with body }

end Program

end Resumable
