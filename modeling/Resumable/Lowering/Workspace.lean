import Resumable.Registry
import Resumable.Arena.Sharing
import Resumable.Lowering.JumpCode

/-!
# The workspace of a lowering

The program being changed, the names in use and the types known. Work on it
may fail; what was changed before a failure stays changed.
-/

namespace Resumable

structure Workspace where
  program : Program
  names : Names := {}
  registry : Registry := {}
  /-- How many continuations have been made. -/
  continuations : Nat := 0
  deriving Inhabited

abbrev Lowering := EStateM Failure Workspace

namespace Lowering

def lift {α : Type} (r : Except Failure α) : Lowering α :=
  match r with
  | .ok a => pure a
  | .error f => throw f

def withNames {α : Type} (m : EStateM Failure Names α) : Lowering α := fun w =>
  match m w.names with
  | .ok a names => .ok a { w with names }
  | .error f names => .error f { w with names }

def func (id : FuncId) : Lowering Func :=
  return ((← get).program.func? id).getD { name := "" }

def modifyFunc (id : FuncId) (change : Func → Func) : Lowering Unit :=
  modify fun w => { w with program := w.program.modifyFunc id change }

/-- Numbers the simple statements of a body, so that it can hold them in common
with others. -/
def shareBody (id : FuncId) : Lowering Unit :=
  modify fun w => { w with program := w.program.shareBody id }

/-- Gives a definition the statements of its body with other expressions. -/
def refill (id : FuncId) (body : List Stmt) : Lowering Unit :=
  modify fun w => { w with program := w.program.refill id body }

def newFunc (parent : FuncId) (name : String) (params : List Variable) (result : Ty) :
    Lowering FuncId := fun w =>
  let (id, program) := w.program.newFunc parent name params result
  .ok id { w with program }

def newVariable (name : String) (type : Ty) : Lowering Variable := fun w =>
  let (v, program) := w.program.newVariable name type
  .ok v { w with program }

def freshVariable (type : Ty) : Lowering Variable := fun w =>
  let (name, names) := w.names.freshName
  newVariable name type { w with names }

def addLocal (id : FuncId) (v : Variable) : Lowering Unit :=
  modifyFunc id fun f => { f with locals := f.locals ++ [v] }

def freshLocal (id : FuncId) (type : Ty) : Lowering Variable := do
  let v ← freshVariable type
  addLocal id v
  return v

def lambda (id : FuncId) : Lowering Expr :=
  return (← get).program.lambda id

def reparent (phase : Phase) (detail : String) (child parent : FuncId) : Lowering Unit :=
  fun w =>
    match w.program.reparent child parent with
    | .ok program => .ok () { w with program }
    | .error e => .error (.caused { phase, kind := .logicFlaw, detail } (.plain e.message)) w

/-- Sets the body of a definition and takes over the closures named in it;
returns how many those are. -/
def adoptBody (phase : Phase) (detail : String) (id : FuncId) (body : List Stmt) :
    Lowering Nat := do
  modifyFunc id fun f => { f with body }
  let closures := bodyClosures body
  closures.forM fun c => reparent phase detail c id
  return closures.length

end Lowering

end Resumable
