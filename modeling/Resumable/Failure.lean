import Resumable.Machine.Value

/-!
# Failures

Why a lowering or a run did not succeed. A report names the phase it comes
from and its kind, and may have another failure as its cause.
-/

namespace Resumable

/-- The stage of work that a report comes from. -/
inductive Phase where
  | setup | cps | lower | eliminate | generator | verify | eval
  | other (name : String)
  deriving DecidableEq, Repr, Inhabited

namespace Phase

def text : Phase → String
  | .setup => "setup"
  | .cps => "cps"
  | .lower => "lower"
  | .eliminate => "eliminate"
  | .generator => "generator"
  | .verify => "verify"
  | .eval => "eval"
  | .other name => name

def ofText (name : String) : Phase :=
  match [setup, cps, lower, eliminate, generator, verify, eval].find? (·.text = name) with
  | some phase => phase
  | none => .other name

end Phase

inductive FailureKind where
  /-- A state that the structure of the program should rule out. -/
  | logicFlaw
  /-- A construct that is not handled yet. -/
  | unsupported
  | unresolvedLabel
  | notFound
  | invalidInput
  | typeError
  | other (name : String)
  deriving DecidableEq, Repr, Inhabited

namespace FailureKind

def text : FailureKind → String
  | .logicFlaw => "logic_flaw"
  | .unsupported => "unsupported"
  | .unresolvedLabel => "unresolved_label"
  | .notFound => "not_found"
  | .invalidInput => "invalid_input"
  | .typeError => "type_error"
  | .other name => name

def ofText (name : String) : FailureKind :=
  match [logicFlaw, unsupported, unresolvedLabel, notFound, invalidInput, typeError].find?
    (·.text = name) with
  | some kind => kind
  | none => .other name

end FailureKind

structure Report where
  phase : Phase
  kind : FailureKind
  /-- The function being worked on; `""` if not known. -/
  func : String := ""
  path : List String := []
  detail : String := ""
  /-- The name that the report is about, such as a label. -/
  subject : Option String := none
  deriving DecidableEq, Repr, Inhabited

def Report.text (r : Report) : String :=
  "[" ++ r.phase.text ++ "] " ++ r.kind.text ++
    (if r.func = "" then "" else " in " ++ r.func) ++
    (if r.path.isEmpty then "" else " at " ++ ".".intercalate r.path) ++
    (if r.detail = "" then "" else ": " ++ r.detail)

inductive Failure where
  | plain (text : String)
  /-- A value thrown and not caught. -/
  | thrown (value : Value)
  | report (r : Report)
  | caused (r : Report) (cause : Failure)
  deriving Inhabited, Repr

namespace Failure

def message (p : Program) : Failure → String
  | .plain text => text
  | .thrown value => "uncaught exception: " ++ value.format p
  | .report r => r.text
  | .caused r cause => r.text ++ " (caused by: " ++ message p cause ++ ")"

def report? : Failure → Option Report
  | .report r | .caused r _ => some r
  | _ => none

def causes : Failure → List Failure
  | .caused _ cause => cause :: causes cause
  | _ => []

/-- Whether a report answers to another: by phase and kind, or by kind alone
if the other has no phase. -/
def answers (r target : Report) : Bool :=
  r.kind = target.kind && (target.phase = .other "" || r.phase = target.phase)

def isA (failure target : Failure) : Bool :=
  match target.report? with
  | none => false
  | some t => ((failure :: failure.causes).filterMap report?).any (answers · t)

/-- Names the function that a report is about, unless it already has one. -/
def withFunc (name : String) : Failure → Failure
  | .report r => .report (if r.func = "" then { r with func := name } else r)
  | .caused r cause => .caused (if r.func = "" then { r with func := name } else r) cause
  | f => f

/-! ## Common reports -/

def logicFlaw (phase : Phase) (detail : String) : Failure :=
  .report { phase, kind := .logicFlaw, detail }

def unsupported (phase : Phase) (what : String) : Failure :=
  .report { phase, kind := .unsupported, detail := what ++ " is not yet supported" }

def unresolvedLabel (phase : Phase) (label : String) : Failure :=
  .report
    { phase, kind := .unresolvedLabel, subject := some label
      detail := "no corresponding statement for label " ++ Text.quote label }

def notFound (phase : Phase) (what name : String) : Failure :=
  .report
    { phase, kind := .notFound, subject := some name
      detail := what ++ " " ++ Text.quote name ++ " not found" }

def invalidInput (phase : Phase) (detail : String) : Failure :=
  .report { phase, kind := .invalidInput, detail }

def typeError (phase : Phase) (detail : String) : Failure :=
  .report { phase, kind := .typeError, detail }

def eval (kind : FailureKind) (detail : String) : Failure :=
  .report { phase := .eval, kind, detail }

end Failure

end Resumable
