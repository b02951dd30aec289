import Resumable.Lowering.Graph
import Resumable.Lowering.Workspace

/-!
# Fragments

Jumps are removed from jump code. Every label gets a local variable that holds
a closure, the fragment, with the statements of its block; a jump becomes a
call of the variable in a `return`:

    goto L                       return L();
    if c goto A else goto B      if (c) { return A(); } else { return B(); }
    dispatch x: 1 -> A, else B   switch (x) { case 1: return A(); default: return B(); }

The body of the function then sets the variables and goes on with the entry
block. Until then it holds the simple statements of the fragments in common
with them, and it keeps doing so if the work fails on the way.
-/

namespace Resumable

abbrev LabelVars := List (String × Variable)

/-- A block whose jumps are converted, before it becomes a closure. -/
structure Fragment where
  label : String
  body : List Stmt
  vars : LabelVars

namespace Fragment

def labelVar? (f : Fragment) (label : String) : Option Variable :=
  f.vars.lookup label

def jumpTarget? (f : Fragment) : Stmt → Option Variable
  | .simple (.ret (.call (.ref v) [] _)) _ =>
      match f.vars.lookup v.name with
      | some own => if own.id = v.id then some v else none
      | none => none
  | _ => none

end Fragment

namespace Elimination

def tailCall (vars : LabelVars) (label : String) : Stmt :=
  match vars.lookup label with
  | some v => .ret (.mkCall (.ref v) [])
  | none => .ret (.mkCall .missing [])

def convertArm (vars : LabelVars) (arm : Arm) : List Stmt :=
  [if arm.value.isMissing then .defaultMark else .caseMark arm.value, tailCall vars arm.target]

def convertStmt (vars : LabelVars) : Stmt → Stmt
  | .goto l => tailCall vars l
  | .condGoto c t e => .ifElse c [tailCall vars t] [tailCall vars e]
  | .dispatch x arms => .switch x (arms.flatMap (convertArm vars)) ""
  | s => s

/-- What came of removing the jumps of a function. -/
structure Result where
  /-- The entry block, which follows the settings of the label variables. -/
  entry : List Stmt
  labelVars : LabelVars
  /-- The labels that no path leads to. -/
  unreachable : List String
  fragments : Nat
  /-- How many closures moved into fragments. -/
  adopted : Nat
  /-- How many statements could never run. -/
  dropped : Nat
  deriving Inhabited

abbrev Noted (η : Type) := EStateM Failure (Workspace × η)

def onWorkspace {η α : Type} (m : Lowering α) : Noted η α := fun (w, notes) =>
  match m w with
  | .ok a w => .ok a (w, notes)
  | .error f w => .error f (w, notes)

/-- Changes the body of a fragment before it becomes a closure, keeping notes.
It also sees the program as it is at that moment. -/
abbrev Hook (η : Type) := Program → Fragment → EStateM Failure η (List Stmt)

def noHook : Hook Unit := fun _ f => pure f.body

def runHook {η : Type} (hook : Hook η) (f : Fragment) : Noted η (List Stmt) := fun (w, notes) =>
  match hook w.program f notes with
  | .ok body notes => .ok body (w, notes)
  | .error e notes => .error e (w, notes)

def declareLabels (id : FuncId) (type : Ty) : List String → Lowering LabelVars
  | [] => return []
  | l :: rest => do
      let v ← Lowering.newVariable l type
      Lowering.addLocal id v
      return (l, v) :: (← declareLabels id type rest)

/-- Makes the fragment of a block; returns the statement that sets its label
variable and how many closures the fragment took over. -/
def makeFragment {η : Type} (hook : Hook η) (id : FuncId) (result : Ty) (vars : LabelVars)
    (b : Block) : Noted η (Stmt × Nat) := do
  let body ← runHook hook ⟨b.label, b.stmts.map (convertStmt vars), vars⟩
  onWorkspace do
    let fragment ← Lowering.newFunc id "" [] result
    let adopted ← Lowering.adoptBody .eliminate ("moving closure into fragment " ++ b.label)
      fragment body
    let f ← Lowering.lambda fragment
    let target : Expr := match vars.lookup b.label with
      | some v => .ref v
      | none => .missing
    return (.expr (.assign target f), adopted)

def makeFragments {η : Type} (hook : Hook η) (id : FuncId) (result : Ty) (vars : LabelVars) :
    List Block → Noted η (List Stmt × Nat)
  | [] => return ([], 0)
  | b :: rest => do
      let (setting, adopted) ← makeFragment hook id result vars b
      let (settings, more) ← makeFragments hook id result vars rest
      return (setting :: settings, adopted + more)

/-- Removes the jumps from the body of a function. Fragments, and so the label
variables, return `result`. -/
def eliminate {η : Type} (hook : Hook η) (id : FuncId) (result : Ty) : Noted η Result := do
  onWorkspace (Lowering.shareBody id)
  let f ← onWorkspace (Lowering.func id)
  let g ← onWorkspace (Lowering.lift (Graph.build f.body))
  let vars ← onWorkspace (declareLabels id (.function result []) g.labels)
  let (settings, adopted) ← makeFragments hook id result vars g.labelled
  let entry := g.entry.stmts.map (convertStmt vars)
  onWorkspace (Lowering.modifyFunc id fun f => { f with body := settings ++ entry })
  return {
    entry
    labelVars := vars
    unreachable := g.unreachable
    fragments := settings.length
    adopted
    dropped := g.blocks.foldl (fun n b => n + b.dropped) 0 }

def withNotes {η α : Type} (m : Noted η α) (notes : η) : Lowering (α × η) := fun w =>
  match m (w, notes) with
  | .ok a (w, notes) => .ok (a, notes) w
  | .error f (w, _) => .error f w

/-- Removes the jumps from the body of a function whose fragments return what
the function does. -/
def plain (id : FuncId) : Lowering Result := do
  let f ← Lowering.func id
  return (← withNotes (eliminate noHook id f.result) ()).1

end Elimination

end Resumable
