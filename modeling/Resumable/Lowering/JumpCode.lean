import Resumable.Failure
import Resumable.Lowering.Names

/-!
# Jump code

Structured statements become labels and jumps. Every label is entered by an
explicit jump, so that jump code never falls from one label into the next. A
while loop with number `n` becomes

    goto $TEST_WHILE_n
    $TEST_WHILE_n: if cond goto $BODY_WHILE_n else goto $END_WHILE_n
    $BODY_WHILE_n: body; goto $TEST_WHILE_n
    $END_WHILE_n:
-/

namespace Resumable.JumpCode

/-- A loop or switch around the statement being lowered. -/
structure Enclosing where
  /-- Its label in the program; `""` if it has none. -/
  label : String
  breakTo : String
  /-- Where a `continue` goes; a switch has no such place. -/
  continueTo : Option String
  deriving DecidableEq, Repr

/-- The loops and switches around a statement, innermost first. -/
abbrev Scope := List Enclosing

namespace Scope

def find? (scope : Scope) (label : String) : Option Enclosing :=
  List.find? (fun e => e.label = label) scope

/-- Where a `break` goes. -/
def breakTarget (scope : Scope) (label : String) : Except Failure String :=
  if label = "" then
    match scope with
    | [] => .error (.logicFlaw .lower "break outside of a loop or switch")
    | e :: _ => .ok e.breakTo
  else
    match scope.find? label with
    | none => .error (.unresolvedLabel .lower label)
    | some e => .ok e.breakTo

/-- Where a `continue` goes; without a label it passes over switches. -/
def continueTarget (scope : Scope) (label : String) : Except Failure String :=
  if label = "" then
    match List.findSome? (·.continueTo) scope with
    | none => .error (.logicFlaw .lower "continue outside of a loop")
    | some target => .ok target
  else
    match scope.find? label with
    | none => .error (.unresolvedLabel .lower label)
    | some e =>
        match e.continueTo with
        | none => .error (.logicFlaw .lower ("continue targets switch " ++ Text.quote label))
        | some target => .ok target

end Scope

/-- A stretch of jump code, and whether control can run off its end. -/
structure Stretch where
  code : List Stmt
  falls : Bool

/-- Work that draws names and may fail; the names stay drawn. -/
abbrev Lower := EStateM Failure Names

def draw (kind : LabelKind) : Lower Nat := fun names =>
  let (n, names) := names.next kind
  .ok n names

def lift {α : Type} (r : Except Failure α) : Lower α :=
  match r with
  | .ok a => pure a
  | .error f => throw f

def jump (falls : Bool) (label : String) : List Stmt :=
  if falls then [.goto label] else []

/-- Opens a label after code that may run off its end. -/
def enter (falls : Bool) (label : String) : List Stmt :=
  jump falls label ++ [.label label]

def arms (id : Nat) : Nat → Bool → List Stmt → Except Failure (List Arm)
  | _, _, [] => .ok []
  | ordinal, seen, .caseMark x :: rest => do
      return ⟨x, Label.caseOf id ordinal⟩ :: (← arms id (ordinal + 1) seen rest)
  | ordinal, seen, .defaultMark :: rest =>
      if seen then .error (.logicFlaw .lower "switch with more than one default")
      else do
        return ⟨.missing, Label.defaultOf id⟩ :: (← arms id ordinal true rest)
  | ordinal, seen, _ :: rest => arms id ordinal seen rest

def alreadyLowered (s : Stmt) : Lower Stretch :=
  throw (.logicFlaw .lower ("statement " ++ s.nodeName ++ " is already lowered"))

def strayMark (s : Stmt) : Lower Stretch :=
  throw (.logicFlaw .lower (s.nodeName ++ " outside of a switch body"))

mutual

/-- Lowers a statement that stands after code which may run off its end if
`falls`. -/
def lowerStmt (scope : Scope) (falls : Bool) : Stmt → Lower Stretch
  | .simple (.yield x) share => do
      let resume := Label.afterYield (← draw .yield)
      return ⟨.simple (.yield x) share :: enter true resume, true⟩
  | .simple s share => return ⟨[.simple s share], !s.isTerminator⟩
  | .breakTo l => do
      return ⟨[.goto (← lift (scope.breakTarget l))], false⟩
  | .continueTo l => do
      return ⟨[.goto (← lift (scope.continueTarget l))], false⟩
  | .ifElse c thenS elseS => do
      let id ← draw .ifElse
      let test := Label.part "TEST" .ifElse id
      let succ := Label.part "SUCC" .ifElse id
      let fail := Label.part "FAIL" .ifElse id
      let done := Label.part "END" .ifElse id
      let thenC ← lowerList scope true thenS
      let elseC ← lowerList scope true elseS
      return ⟨enter falls test ++ [.condGoto c succ fail, .label succ] ++ thenC.code ++
        jump thenC.falls done ++ [.label fail] ++ elseC.code ++ enter elseC.falls done, true⟩
  | .whileLoop c body l => do
      let id ← draw .whileLoop
      let test := Label.part "TEST" .whileLoop id
      let start := Label.part "BODY" .whileLoop id
      let done := Label.part "END" .whileLoop id
      let bodyC ← lowerList (⟨l, done, some test⟩ :: scope) true body
      return ⟨enter falls test ++ [.condGoto c start done, .label start] ++ bodyC.code ++
        jump bodyC.falls test ++ [.label done], true⟩
  | .doWhile c body l => do
      let id ← draw .doWhile
      let start := Label.part "BODY" .doWhile id
      let test := Label.part "TEST" .doWhile id
      let done := Label.part "END" .doWhile id
      let bodyC ← lowerList (⟨l, done, some test⟩ :: scope) true body
      return ⟨enter falls start ++ bodyC.code ++ enter bodyC.falls test ++
        [.condGoto c start done, .label done], true⟩
  | .forLoop init cond post body l => do
      let id ← draw .forLoop
      let first := Label.part "INIT" .forLoop id
      let test := Label.part "TEST" .forLoop id
      let start := Label.part "BODY" .forLoop id
      let last := Label.part "POST" .forLoop id
      let done := Label.part "END" .forLoop id
      let bodyC ← lowerList (⟨l, done, some last⟩ :: scope) true body
      let initC := if init.isMissing then [] else [.expr init]
      let testC : Stmt := if cond.isMissing then .goto start else .condGoto cond start done
      let postC := if post.isMissing then [] else [.expr post]
      return ⟨enter falls first ++ initC ++ enter true test ++ [testC, .label start] ++
        bodyC.code ++ enter bodyC.falls last ++ postC ++ [.goto test, .label done], true⟩
  | .switch x body l => do
      let id ← draw .switch
      let test := Label.part "TEST" .switch id
      let done := Label.part "END" .switch id
      let dispatchArms ← lift (arms id 0 false body)
      let bodyC ← lowerCases (⟨l, done, none⟩ :: scope) id 0 false body
      return ⟨enter falls test ++ [.dispatch x dispatchArms, .goto done] ++ bodyC.code ++
        enter bodyC.falls done, true⟩
  | .forIn .. => throw (.unsupported .lower "for-in statement")
  | .tryCatch .. => throw (.unsupported .lower "try statement")
  | .catchClause _ => throw (.unsupported .lower "catch clause")
  | .label n => alreadyLowered (.label n)
  | .goto n => alreadyLowered (.goto n)
  | .condGoto c t e => alreadyLowered (.condGoto c t e)
  | .dispatch x as => alreadyLowered (.dispatch x as)
  | .caseMark x => strayMark (.caseMark x)
  | .defaultMark => strayMark .defaultMark
  | .missing => throw (.logicFlaw .lower "unexpected statement <nil>")

def lowerList (scope : Scope) (falls : Bool) : List Stmt → Lower Stretch
  | [] => return ⟨[], falls⟩
  | s :: rest => do
      let first ← lowerStmt scope falls s
      let others ← lowerList scope first.falls rest
      return ⟨first.code ++ others.code, others.falls⟩

/-- Lowers the body of switch `id` from its case number `ordinal` on; each mark
opens its own label. -/
def lowerCases (scope : Scope) (id : Nat) (ordinal : Nat) (falls : Bool) :
    List Stmt → Lower Stretch
  | [] => return ⟨[], falls⟩
  | .caseMark _ :: rest => do
      let others ← lowerCases scope id (ordinal + 1) true rest
      return ⟨enter falls (Label.caseOf id ordinal) ++ others.code, others.falls⟩
  | .defaultMark :: rest => do
      let others ← lowerCases scope id ordinal true rest
      return ⟨enter falls (Label.defaultOf id) ++ others.code, others.falls⟩
  | s :: rest => do
      let first ← lowerStmt scope falls s
      let others ← lowerCases scope id ordinal first.falls rest
      return ⟨first.code ++ others.code, others.falls⟩

end

def ofStmt (s : Stmt) : Lower (List Stmt) :=
  return (← lowerStmt [] true s).code

/-- Lowers a function body and puts it between the labels of its start and its
end. -/
def ofBody (body : List Stmt) : Lower (List Stmt) := do
  let c ← lowerList [] true body
  return [.goto Label.begin, .label Label.begin] ++ c.code ++ enter c.falls Label.finish

end Resumable.JumpCode
