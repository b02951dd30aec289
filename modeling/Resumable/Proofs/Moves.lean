import Resumable.Proofs.Locality

/-!
# What a step leads to

A step on an expression, on a statement or with a value leads to a value, to an
expression with at most one set of operands above what waited before, to the end
of a statement, into a block or into a call. What it leads to depends on the kind
of its task only.
-/

namespace Resumable

namespace Task

def endsStmt : Task → Bool
  | .discard | .ret | .throw | .assert _ | .log | .deleteField _ | .deleteIndex | .branch .. |
    .loopTest _ | .loopAgain _ | .switchOn .. | .caseTest .. => true
  | _ => false

def isFlow : Task → Bool
  | .branch .. | .loopTest _ | .loopAgain _ | .switchOn .. | .caseTest .. => true
  | _ => false

def completes : Task → Bool
  | .ret | .throw => false
  | _ => true

end Task

namespace Waiting

def isCall : Waiting → Bool
  | .call _ => true
  | _ => false

/-- Whether this waits in structured code for the end of a statement. -/
def isFrame : Waiting → Bool
  | .block .. | .loop .. | .switch _ => true
  | _ => false

def encloses : Waiting → Bool
  | .loop .. | .switch _ | .tryCatch .. => true
  | _ => false

/-- Whether this waits for values and decides nothing about control. -/
def isMild : Waiting → Bool
  | .operands task _ _ _ => !task.isFlow
  | _ => false

def completes : Waiting → Bool
  | .operands task _ _ _ => task.completes
  | _ => true

end Waiting

namespace Machine

/-- What work leads to above what waits: the work is a statement or a part of it,
or else an expression; it may decide about control, the statement may end normally
with it, and it may call a function. -/
inductive Moves (stmt : Bool) (flow completes calls : Prop) (depth : Nat) (stack : List Waiting) :
    Step → Prop where
  | fail (f : Failure) (σ : Store) :
      Moves stmt flow completes calls depth stack (.halt (.error f) σ)
  | thrown (v : Value) (σ : Store) :
      Moves stmt flow completes calls depth stack (.next ⟨.thrown v, stack, depth, σ⟩)
  | value (v : Value) (σ : Store) : stmt = false →
      Moves stmt flow completes calls depth stack (.next ⟨.value v, stack, depth, σ⟩)
  | eval (e : Expr) (env : Env) (σ : Store) : stmt = false →
      Moves stmt flow completes calls depth stack (.next ⟨.eval e env, stack, depth, σ⟩)
  | operands (e : Expr) (env : Env) {task : Task} (done : List Value) (rest : List Expr) (σ : Store) :
      task.endsStmt = stmt → (task.isFlow = true → flow) → (task.completes = true → completes) →
      Moves stmt flow completes calls depth stack
        (.next ⟨.eval e env, .operands task done rest env :: stack, depth, σ⟩)
  | normal (σ : Store) : stmt = true → completes →
      Moves stmt flow completes calls depth stack (.next ⟨.complete .normal, stack, depth, σ⟩)
  | returned (v : Value) (σ : Store) : stmt = true →
      Moves stmt flow completes calls depth stack (.next ⟨.complete (.returned v), stack, depth, σ⟩)
  | exits (c : Completion) (σ : Store) : stmt = true → flow →
      Moves stmt flow completes calls depth stack (.next ⟨.complete c, stack, depth, σ⟩)
  | block (body : List Stmt) (env : Env) (σ : Store) : stmt = true → flow →
      Moves stmt flow completes calls depth stack
        (.next ⟨.complete .normal, .block body env :: stack, depth, σ⟩)
  | inside (body : List Stmt) (env : Env) (w : Waiting) (σ : Store) : w.encloses = true →
      stmt = true → flow →
      Moves stmt flow completes calls depth stack
        (.next ⟨.complete .normal, .block body env :: w :: stack, depth, σ⟩)
  | enter (body : List Stmt) (env : Env) (fn : FuncId) (σ : Store) : stmt = false → calls →
      Moves stmt flow completes calls depth stack
        (.next ⟨.complete .normal, .block body env :: .call fn :: stack, depth + 1, σ⟩)

variable {flow completes calls : Prop} (cx : Context) {stack : List Waiting} {depth : Nat}
  {store : Store} {env : Env}

theorem callValue_moves {callee : Value} (args : List Value)
    (hcalls : ∀ tag fn env, callee = .closure tag fn env → calls) :
    Moves false flow completes calls depth stack
      (callValue cx callee args stack depth store) := by
  cases callee with
  | closure tag fn env =>
      simp only [callValue]
      repeat' split
      · exact .fail _ _
      · exact .fail _ _
      · exact .enter _ _ _ _ rfl (hcalls tag fn env rfl)
  | native tag name kind =>
      cases kind <;> first | exact .value _ _ rfl | exact .fail _ _ | exact .thrown _ _
  | _ => exact .fail _ _

theorem storeIn_moves (target : Expr) (value result : Value) (hcompletes : completes) :
    Moves false flow completes calls depth stack
      (storeIn target value result env stack depth store) := by
  unfold storeIn
  repeat' split
  all_goals first | exact .fail _ _ | exact .value _ _ rfl |
    exact .operands _ _ _ _ _ rfl Bool.noConfusion fun _ => hcompletes

section

variable (hflow : flow) (hcompletes : completes)
include hflow hcompletes

theorem enterLoop_moves (l : Loop) :
    Moves true flow completes calls depth stack (enterLoop l env stack depth store) := by
  unfold enterLoop
  split
  · exact .inside _ _ _ _ rfl rfl hflow
  · exact .operands _ _ _ _ _ rfl (fun _ => hflow) fun _ => hcompletes

theorem scanCases_moves (label : String) (subject : Value) (body : List Stmt)
    (fallback : Option (List Stmt)) :
    Moves true flow completes calls depth stack
      (scanCases label subject env stack depth store body fallback) := by
  fun_induction scanCases label subject env stack depth store body fallback with
  | case1 => exact .normal _ rfl hcompletes
  | case2 rest => exact .inside _ _ _ _ rfl rfl hflow
  | case3 x rest fallback => exact .operands _ _ _ _ _ rfl (fun _ => hflow) fun _ => hcompletes
  | case4 _ _ ih => exact ih
  | case5 _ _ _ _ _ ih => exact ih

theorem nextRound_moves (l : Loop) :
    Moves true flow completes calls depth stack (nextRound l env stack depth store) := by
  unfold nextRound
  split
  · exact enterLoop_moves hflow hcompletes l
  · exact .operands _ _ _ _ _ rfl (fun _ => hflow) fun _ => hcompletes

end

section

variable (task : Task) (hflow : task.isFlow = true → flow)
  (hcompletes : task.completes = true → completes)
include hflow hcompletes

theorem perform_moves (vs : List Value)
    (hcalls : ∀ tag fn env, task = .call → vs.headD .null = .closure tag fn env → calls) :
    Moves task.endsStmt flow completes calls depth stack
      (perform cx task vs env stack depth store) := by
  cases task
  case call => exact callValue_moves cx _ fun tag fn env => hcalls tag fn env rfl
  case assign target => exact storeIn_moves target _ _ (hcompletes rfl)
  case incDec op target =>
      simp only [perform]
      split
      · exact storeIn_moves target _ _ (hcompletes rfl)
      · exact .fail _ _
  case branch t e => exact .block _ _ _ rfl (hflow rfl)
  case loopTest l =>
      simp only [perform]
      split
      · exact .inside _ _ _ _ rfl rfl (hflow rfl)
      · exact .normal _ rfl (hcompletes rfl)
  case loopAgain l => exact enterLoop_moves (hflow rfl) (hcompletes rfl) l
  case switchOn label body => exact scanCases_moves (hflow rfl) (hcompletes rfl) label _ body none
  case caseTest label subject rest fallback =>
      simp only [perform]
      split
      · exact .inside _ _ _ _ rfl rfl (hflow rfl)
      · exact scanCases_moves (hflow rfl) (hcompletes rfl) label subject rest fallback
  all_goals
    simp only [perform]
    repeat' split
    all_goals
      first | exact .fail _ _ | exact .value _ _ rfl | exact .thrown _ _ | exact .eval _ _ _ rfl |
        exact .returned _ _ rfl | exact .normal _ rfl (hcompletes rfl)

theorem operands_moves (es : List Expr) :
    Moves task.endsStmt flow completes calls depth stack
      (operands cx task es env stack depth store) := by
  cases es with
  | nil => exact perform_moves cx task hflow hcompletes [] fun _ _ _ _ h => Value.noConfusion h
  | cons e rest => exact .operands _ _ _ _ _ rfl hflow hcompletes

/-- A step with a value for operands. -/
theorem stepValue_moves (v : Value) (done : List Value) (rest : List Expr)
    (hcalls : ∀ fn, callee? ⟨.value v, [.operands task done rest env], depth, store⟩ = some fn →
      calls) :
    Moves task.endsStmt flow completes calls depth stack
      (stepValue cx v (.operands task done rest env :: stack) depth store) := by
  cases rest with
  | nil =>
      refine perform_moves cx task hflow hcompletes _ fun tag fn env' htask hhead => hcalls fn ?_
      simp only [callee?, htask, hhead]
  | cons e rest => exact .operands _ _ _ _ _ rfl hflow hcompletes

end

/-- A step on an expression. -/
theorem stepEval_moves (e : Expr) (hcompletes : completes) :
    Moves false flow completes calls depth stack (stepEval cx e env stack depth store) := by
  have hoperands (task : Task) (hstmt : task.endsStmt = false) (hflow : task.isFlow = false)
      (es : List Expr) : Moves false flow completes calls depth stack
        (operands cx task es env stack depth store) :=
    hstmt ▸ operands_moves cx task (fun h => absurd (hflow.symm.trans h) Bool.noConfusion)
      (fun _ => hcompletes) es
  cases e
  case ref | lambda =>
      simp only [stepEval]
      split <;> first | exact .value _ _ rfl | exact .fail _ _
  case unary | binary =>
      simp only [stepEval]
      split <;> exact hoperands _ rfl rfl _
  case literal | receiver => exact .value _ _ rfl
  case missing => exact .fail _ _
  all_goals
    simp only [stepEval]
    exact hoperands _ rfl rfl _

/-- A step on a simple statement. -/
theorem stepSimple_moves (s : Simple) (hcompletes : s.isTerminator = false → completes) :
    Moves true flow completes calls depth stack (stepSimple cx s env stack depth store) := by
  have hoperands (task : Task) (hstmt : task.endsStmt = true) (hflow : task.isFlow = false)
      (h : task.completes = true → completes) (es : List Expr) :
      Moves true flow completes calls depth stack (operands cx task es env stack depth store) :=
    hstmt ▸ operands_moves cx task (fun h => absurd (hflow.symm.trans h) Bool.noConfusion) h es
  cases s
  case ret x =>
      simp only [stepSimple]
      split
      · exact .returned _ _ rfl
      · exact hoperands .ret rfl rfl Bool.noConfusion _
  case throw x => exact hoperands .throw rfl rfl Bool.noConfusion [x]
  case delete x =>
      cases x
      case binary op x y t =>
          simp only [stepSimple, stepDelete]
          split
          · exact hoperands _ rfl rfl (fun _ => hcompletes rfl) _
          · exact .fail _ _
      case property x name t =>
        exact hoperands (.deleteField name) rfl rfl (fun _ => hcompletes rfl) [x]
      all_goals exact .fail _ _
  case debugger => exact .normal _ rfl (hcompletes rfl)
  case yield => exact .fail _ _
  all_goals
    simp only [stepSimple]
    exact hoperands _ rfl rfl (fun _ => hcompletes rfl) _

/-- A step on a statement. -/
theorem stepExec_moves (s : Stmt) :
    Moves true True True calls depth stack (stepExec cx s env stack depth store) := by
  cases s
  case simple s share => exact stepSimple_moves cx s fun _ => trivial
  case whileLoop c body l => exact enterLoop_moves trivial trivial _
  case forLoop init c post body l =>
      simp only [stepExec]
      split
      · exact enterLoop_moves trivial trivial _
      · exact operands_moves cx (.loopAgain _) (fun _ => trivial) (fun _ => trivial) _
  case ifElse c t e =>
      exact operands_moves cx (.branch t e) (fun _ => trivial) (fun _ => trivial) [c]
  case switch x body l =>
      exact operands_moves cx (.switchOn l body) (fun _ => trivial) (fun _ => trivial) [x]
  case doWhile | tryCatch => exact .inside _ _ _ _ rfl rfl trivial
  case breakTo | continueTo => exact .exits _ _ rfl trivial
  all_goals exact .fail _ _

end Machine

end Resumable
