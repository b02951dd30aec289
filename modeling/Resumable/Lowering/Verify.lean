import Resumable.Lowering.Workspace

/-!
# Verification of lowered functions

What must hold of a lowered function and of every closure it owns: no statement
of jump code is left, no yield is left outside generators that still wait to be
compiled, and every closure named in a body is owned by the function with that
body.
-/

namespace Resumable.Verify

/-- What is wrong with a statement of a body; yields are allowed if `pending`. -/
def stmtProblem? (name : String) (pending : Bool) (s : Stmt) : Option String :=
  if s.isJumpForm then some (name ++ ": " ++ s.nodeName ++ " survived elimination")
  else
    match s with
    | .simple (.yield _) _ =>
        if pending then none else some (name ++ ": yield survived generator compilation")
    | _ => none

/-- The problems of one definition apart from those of its closures; `top` if
it is the one being verified. -/
def ownProblems (p : Program) (id : FuncId) (f : Func) (top : Bool) : List String :=
  let name := Program.displayName id f
  let pending := f.generator && !top
  (allStmts f.body).filterMap (stmtProblem? name pending) ++
    (bodyClosures f.body).filterMap fun c =>
      let owner := p.parent c
      if owner = id then none
      else some s!"{name}: closure #{c} is referenced here but owned by #{owner}"

/-- The problems of a definition and of what it owns, at most `fuel` deep. -/
def problemsAt (p : Program) : Nat → Bool → FuncId → List String
  | 0, _, _ => []
  | fuel + 1, top, id =>
      match p.func? id with
      | none => []
      | some f =>
          ownProblems p id f top ++ (p.closures id).flatMap (problemsAt p fuel false)

def problems (p : Program) (id : FuncId) : List String :=
  problemsAt p (p.size + 1) true id ++ p.ownershipProblems

def numberText (id : FuncId) : String := s!"#{id}"

def check (p : Program) (id : FuncId) : Except Failure Unit :=
  match p.func? id with
  | none => .error (.notFound .verify "function" (numberText id))
  | some f =>
      let found := problems p id
      if found.isEmpty then .ok ()
      else
        .error (.caused
          { phase := .verify, kind := .logicFlaw, func := Program.displayName id f
            detail := s!"{found.length} invariant violations" }
          (.plain ("; ".intercalate found)))

end Resumable.Verify
