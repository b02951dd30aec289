import Resumable.Proofs.Run
import Resumable.Proofs.Pairing.Store

/-!
# Locality of steps

A step looks at the focus and at the top of the stack only, so what waits below
can be exchanged. The limit on calls under way matters only to a step that calls
a function; without it a machine is free.
-/

namespace Resumable

def Step.onto (below : List Waiting) : Step → Step
  | .next s => .next { s with stack := s.stack ++ below }
  | .halt result store => .halt result store

namespace Machine

variable (cx : Context) (below : List Waiting)

/-! ## What waits below -/

theorem callNative_onto (name : String) (kind : NativeKind) (args : List Value)
    (stack : List Waiting) (depth : Nat) (store : Store) :
    callNative cx name kind args (stack ++ below) depth store =
      (callNative cx name kind args stack depth store).onto below := by
  cases kind <;> rfl

theorem callValue_onto (callee : Value) (args : List Value) (stack : List Waiting)
    (depth : Nat) (store : Store) :
    callValue cx callee args (stack ++ below) depth store =
      (callValue cx callee args stack depth store).onto below := by
  cases callee with
  | closure tag fn env =>
      simp only [callValue]
      split
      · rfl
      · cases cx.program.func? fn <;> rfl
  | native tag name kind => exact callNative_onto cx below name kind args stack depth store
  | _ => rfl

theorem storeIn_onto (target : Expr) (value result : Value) (env : Env)
    (stack : List Waiting) (depth : Nat) (store : Store) :
    storeIn target value result env (stack ++ below) depth store =
      (storeIn target value result env stack depth store).onto below := by
  unfold storeIn
  split
  · split <;> rfl
  · rfl
  · rfl
  · rfl

theorem enterLoop_onto (l : Loop) (env : Env) (stack : List Waiting) (depth : Nat)
    (store : Store) :
    enterLoop l env (stack ++ below) depth store =
      (enterLoop l env stack depth store).onto below := by
  unfold enterLoop
  split <;> rfl

theorem scanCases_onto (label : String) (subject : Value) (env : Env)
    (stack : List Waiting) (depth : Nat) (store : Store) (body : List Stmt)
    (fallback : Option (List Stmt)) :
    scanCases label subject env (stack ++ below) depth store body fallback =
      (scanCases label subject env stack depth store body fallback).onto below := by
  fun_induction scanCases label subject env stack depth store body fallback with
  | case1 => rfl
  | case2 => rfl
  | case3 => rfl
  | case4 _ _ ih => simpa only [scanCases] using ih
  | case5 s rest fallback hcase hdefault ih => rw [scanCases.eq_5 _ _ _ _ _ _ _ _ _ hcase hdefault, ih]

theorem perform_onto (task : Task) (vs : List Value) (env : Env) (stack : List Waiting)
    (depth : Nat) (store : Store) :
    perform cx task vs env (stack ++ below) depth store =
      (perform cx task vs env stack depth store).onto below := by
  cases task
  case call => exact callValue_onto cx below _ _ stack depth store
  case assign target => exact storeIn_onto below target _ _ env stack depth store
  case loopAgain l => exact enterLoop_onto below l env stack depth store
  case switchOn label body => exact scanCases_onto below label _ env stack depth store body none
  case caseTest label subject rest fallback =>
      simp only [perform]
      split
      · rfl
      · exact scanCases_onto below label subject env stack depth store rest fallback
  case incDec op target =>
      simp only [perform]
      split
      · exact storeIn_onto below target _ _ env stack depth store
      · rfl
  all_goals
    simp only [perform]
    repeat' split
    all_goals rfl

theorem operands_onto (task : Task) (es : List Expr) (env : Env) (stack : List Waiting)
    (depth : Nat) (store : Store) :
    operands cx task es env (stack ++ below) depth store =
      (operands cx task es env stack depth store).onto below := by
  cases es with
  | nil => exact perform_onto cx below task [] env stack depth store
  | cons e rest => rfl

theorem stepEval_onto (e : Expr) (env : Env) (stack : List Waiting) (depth : Nat)
    (store : Store) :
    stepEval cx e env (stack ++ below) depth store =
      (stepEval cx e env stack depth store).onto below := by
  cases e
  case ref v =>
      simp only [stepEval]
      split <;> rfl
  case lambda fn type =>
      simp only [stepEval]
      split <;> rfl
  case binary op x y type =>
      simp only [stepEval]
      split <;> rfl
  case construct cls args => exact operands_onto cx below _ args env stack depth store
  all_goals rfl

theorem stepExec_onto (s : Stmt) (env : Env) (stack : List Waiting) (depth : Nat)
    (store : Store) :
    stepExec cx s env (stack ++ below) depth store =
      (stepExec cx s env stack depth store).onto below := by
  cases s
  case simple s share =>
      cases s
      case ret x =>
          simp only [stepExec, stepSimple]
          split <;> rfl
      case delete x =>
          cases x
          case binary op x y type =>
              simp only [stepExec, stepSimple, stepDelete]
              split <;> rfl
          all_goals rfl
      case log args => exact operands_onto cx below _ args env stack depth store
      case super cls args => exact operands_onto cx below _ args env stack depth store
      all_goals rfl
  case whileLoop c body l => exact enterLoop_onto below _ env stack depth store
  case forLoop init c post body l =>
      simp only [stepExec]
      split
      · exact enterLoop_onto below _ env stack depth store
      · rfl
  all_goals rfl

theorem nextRound_onto (l : Loop) (env : Env) (stack : List Waiting) (depth : Nat)
    (store : Store) :
    nextRound l env (stack ++ below) depth store =
      (nextRound l env stack depth store).onto below := by
  unfold nextRound
  split
  · exact enterLoop_onto below l env stack depth store
  · rfl

theorem stepValue_onto (v : Value) (w : Waiting) (depth : Nat) (store : Store) :
    stepValue cx v (w :: below) depth store = (stepValue cx v [w] depth store).onto below := by
  cases w with
  | operands task done rest env =>
      cases rest with
      | nil => exact perform_onto cx below task _ env [] depth store
      | cons e rest => rfl
  | _ => rfl

theorem stepComplete_onto (c : Completion) (w : Waiting) (depth : Nat) (store : Store) :
    stepComplete cx c (w :: below) depth store =
      (stepComplete cx c [w] depth store).onto below := by
  cases w with
  | block rest env => cases c <;> cases rest <;> rfl
  | loop l env =>
      cases c with
      | normal => exact nextRound_onto below l env [] depth store
      | continued label =>
          simp only [stepComplete]
          split
          · exact nextRound_onto below l env [] depth store
          · rfl
      | _ => rfl
  | switch own => cases c <;> rfl
  | call fn => cases c <;> rfl
  | _ => rfl

theorem stepThrown_onto (v : Value) (w : Waiting) (depth : Nat) (store : Store) :
    stepThrown v (w :: below) depth store = (stepThrown v [w] depth store).onto below := by
  cases w with
  | tryCatch catches env => cases catches <;> rfl
  | _ => rfl

def Focus.starts : Focus → Bool
  | .eval .. | .exec .. => true
  | _ => false

/-- A step on an expression or a statement does not look at the stack. -/
theorem step_onto_of_starts {focus : Focus} (h : Focus.starts focus = true)
    (stack : List Waiting) (depth : Nat) (store : Store) :
    step cx ⟨focus, stack ++ below, depth, store⟩ =
      (step cx ⟨focus, stack, depth, store⟩).onto below := by
  cases focus with
  | eval e env => exact stepEval_onto cx below e env stack depth store
  | exec s env => exact stepExec_onto cx below s env stack depth store
  | _ => cases h

/-- A step looks at the top of the stack only. -/
theorem step_onto (focus : Focus) (w : Waiting) (depth : Nat) (store : Store) :
    step cx ⟨focus, w :: below, depth, store⟩ =
      (step cx ⟨focus, [w], depth, store⟩).onto below := by
  cases focus with
  | eval e env => exact stepEval_onto cx below e env [w] depth store
  | exec s env => exact stepExec_onto cx below s env [w] depth store
  | value v => exact stepValue_onto cx below v w depth store
  | complete c => exact stepComplete_onto cx below c w depth store
  | thrown v => exact stepThrown_onto below v w depth store

/-! ## The limit on calls -/

/-- The function that a step on this state calls, if it calls a closure. -/
def callee? (s : State) : Option FuncId :=
  match s.focus, s.stack with
  | .value v, .operands .call done [] _ :: _ =>
      match (done ++ [v]).headD .null with
      | .closure _ fn _ => some fn
      | _ => none
  | _, _ => none

theorem callee?_onto (focus : Focus) (w : Waiting) (depth : Nat) (store : Store) :
    callee? ⟨focus, w :: below, depth, store⟩ = callee? ⟨focus, [w], depth, store⟩ := by
  cases focus with
  | value v =>
      cases w with
      | operands task done rest env => cases task <;> cases rest <;> rfl
      | _ => rfl
  | _ => rfl

/-- The machine without a limit on calls. -/
def free (p : Program) (s : State) : Step :=
  step ⟨p, s.depth + 1⟩ s

theorem callValue_limit {p : Program} {d d' : Nat} {callee : Value} {args : List Value}
    {stack : List Waiting} {depth : Nat} {store : Store}
    (h : ∀ tag fn env, callee = .closure tag fn env → depth < d ∧ depth < d') :
    callValue ⟨p, d⟩ callee args stack depth store =
      callValue ⟨p, d'⟩ callee args stack depth store := by
  cases callee with
  | closure tag fn env =>
      obtain ⟨hd, hd'⟩ := h tag fn env rfl
      simp only [callValue, if_neg (Nat.not_le.2 hd), if_neg (Nat.not_le.2 hd')]
  | _ => rfl

/-- Only a step that calls a closure looks at the limit. -/
theorem step_limit {p : Program} {d d' : Nat} {s : State}
    (h : ∀ fn, callee? s = some fn → s.depth < d ∧ s.depth < d') :
    step ⟨p, d⟩ s = step ⟨p, d'⟩ s := by
  obtain ⟨focus, stack, depth, store⟩ := s
  cases focus
  case value v =>
      cases stack with
      | nil => rfl
      | cons w stack =>
          cases w with
          | operands task done rest env =>
              cases rest with
              | cons e rest => rfl
              | nil =>
                  cases task
                  case call =>
                      refine callValue_limit fun tag fn env' hcallee => h fn ?_
                      simp only [callee?, hcallee]
                  all_goals rfl
          | _ => rfl
  case exec st env =>
      cases st
      case simple s share =>
          cases s
          case log args => cases args <;> rfl
          case super cls args => cases args <;> rfl
          all_goals rfl
      all_goals rfl
  case eval e env =>
      cases e
      case construct cls args => cases args <;> rfl
      all_goals rfl
  all_goals rfl

theorem step_eq_free {p : Program} {d : Nat} {s : State}
    (h : ∀ fn, callee? s = some fn → s.depth < d) : step ⟨p, d⟩ s = free p s :=
  step_limit fun fn hfn => ⟨h fn hfn, Nat.lt_succ_self _⟩

/-- Finitely many steps of the free machine are steps under any limit that is
large enough. -/
theorem Steps.limited {p : Program} {ok : State → Prop} {s t : State}
    (h : Steps (free p) ok s t) : ∃ d, ∀ limit, d ≤ limit → Steps (step ⟨p, limit⟩) ok s t := by
  induction h with
  | refl s => exact ⟨0, fun _ _ => .refl s⟩
  | @head s t u hok hnext _ ih =>
      obtain ⟨d, hd⟩ := ih
      refine ⟨max (s.depth + 1) d, fun limit hlimit => ?_⟩
      have hstep : step ⟨p, limit⟩ s = free p s := step_eq_free fun _ _ => by omega
      exact .head hok (hstep.trans hnext) (hd limit (by omega))

theorem Ends.limited {p : Program} {ok : State → Prop} {s : State} {r : Except Failure Value}
    {σ : Store} (h : Ends (free p) ok s r σ) :
    ∃ d, ∀ limit, d ≤ limit → Ends (step ⟨p, limit⟩) ok s r σ := by
  obtain ⟨t, hsteps, hok, hhalt⟩ := h
  obtain ⟨d, hd⟩ := hsteps.limited
  refine ⟨max (t.depth + 1) d, fun limit hlimit => ⟨t, hd limit (by omega), hok, ?_⟩⟩
  have hstep : step ⟨p, limit⟩ t = free p t := step_eq_free fun _ _ => by omega
  exact hstep.trans hhalt

theorem free_onto_of_starts (p : Program) (below : List Waiting) {focus : Focus}
    (h : Focus.starts focus = true) (stack : List Waiting) (depth : Nat) (store : Store) :
    free p ⟨focus, stack ++ below, depth, store⟩ =
      (free p ⟨focus, stack, depth, store⟩).onto below :=
  step_onto_of_starts _ below h stack depth store

theorem free_onto (p : Program) (below : List Waiting) (focus : Focus) (w : Waiting)
    (depth : Nat) (store : Store) :
    free p ⟨focus, w :: below, depth, store⟩ =
      (free p ⟨focus, [w], depth, store⟩).onto below :=
  step_onto _ below focus w depth store

/-! ## Steps that need more than their form -/

theorem free_ref {p : Program} {v : Variable} {env : Env} {stack : List Waiting} {depth : Nat}
    {store : Store} {x : Value} (h : store.lookup env v = .ok x) :
    free p ⟨.eval (.ref v) env, stack, depth, store⟩ = .next ⟨.value x, stack, depth, store⟩ := by
  simp [free, step, stepEval, h, give]

theorem free_lambda {p : Program} {fn : FuncId} {f : Func} (h : p.func? fn = some f) {t : Ty}
    {env : Env} {stack : List Waiting} {depth : Nat} {store : Store} :
    free p ⟨.eval (.lambda fn t) env, stack, depth, store⟩ =
      .next ⟨.value (.closure store.tags fn env), stack, depth, store.newTag.2⟩ := by
  simp [free, step, stepEval, h, give, Store.newTag]

/-- A call that the limit allows. -/
theorem callValue_closure {p : Program} {fn : FuncId} {f : Func} (hf : p.func? fn = some f)
    (tag : Nat) (env : Env) (args : List Value) (stack : List Waiting) (depth : Nat)
    (store : Store) :
    callValue ⟨p, depth + 1⟩ (.closure tag fn env) args stack depth store =
      .next ⟨.complete .normal, .block f.body (store.frames.size :: env) :: .call fn :: stack,
        depth + 1, (store.newFrame (activation f args)).2⟩ := by
  have hlimit : ¬ depth + 1 ≤ depth := by omega
  simp [callValue, hlimit, hf, enterBlock, Store.newFrame]

/-- The first state of a call that nothing waits for. -/
def entered (f : Func) (fn : FuncId) (env : Env) (args : List Value) (store : Store) : State :=
  ⟨.complete .normal, [.block f.body (store.frames.size :: env), .call fn], 1,
    (store.newFrame (activation f args)).2⟩

theorem start_closure {p : Program} {fn : FuncId} {f : Func} (hf : p.func? fn = some f)
    {limit : Nat} (hlimit : 0 < limit) (tag : Nat) (env : Env) (args : List Value) (store : Store) :
    start ⟨p, limit⟩ (.closure tag fn env) args store = .next (entered f fn env args store) := by
  have hzero : ¬ limit = 0 := by omega
  simp [start, callValue, hzero, hf, enterBlock, Store.newFrame, entered]

/-- A call ends as without a limit, under every limit that is large enough. -/
theorem Ends.called {p : Program} {fn : FuncId} {f : Func} (hf : p.func? fn = some f)
    {ok : State → Prop} {env : Env} {args : List Value} {store σ : Store} {r : Except Failure Value}
    (h : Ends (free p) ok (entered f fn env args store) r σ) (tag : Nat) :
    ∃ limit, ∀ depth, limit ≤ depth →
      ∃ fuel, call ⟨p, depth⟩ fuel (.closure tag fn env) args store = some (r, σ) := by
  obtain ⟨limit, hlimit⟩ := h.limited
  refine ⟨limit + 1, fun depth hdepth => ?_⟩
  exact call_of_ends (start_closure hf (by omega) tag env args store) (hlimit depth (by omega))

/-- Some state makes a given call in its next step. -/
theorem exists_free_eq_callValue (p : Program) (callee : Value) (args : List Value)
    (store : Store) : ∃ s, free p s = callValue ⟨p, 0 + 1⟩ callee args [] 0 store := by
  refine ⟨⟨.value ((callee :: args).getLast (List.cons_ne_nil _ _)),
    [.operands .call (callee :: args).dropLast [] []], 0, store⟩, ?_⟩
  simp only [free, step, stepValue, perform, List.dropLast_concat_getLast]
  rfl

theorem free_call {p : Program} {fn : FuncId} {f : Func} (hf : p.func? fn = some f)
    {v : Value} {done args : List Value} {tag : Nat} {base env : Env} {stack : List Waiting}
    {depth : Nat} {store : Store} (h : done ++ [v] = .closure tag fn base :: args) :
    free p ⟨.value v, .operands .call done [] env :: stack, depth, store⟩ =
      .next ⟨.complete .normal, .block f.body (store.frames.size :: base) :: .call fn :: stack,
        depth + 1, (store.newFrame (activation f args)).2⟩ := by
  simp [free, step, stepValue, perform, h, callValue_closure hf]

theorem free_assign {p : Program} {v : Variable} {x : Value} {j : FrameId} {env : Env}
    {stack : List Waiting} {depth : Nat} {σ : Store} (h : (σ.binding j v.id).isSome) :
    free p ⟨.value x, .operands (.assign (.ref v)) [] [] (j :: env) :: stack, depth, σ⟩ =
      .next ⟨.value x, stack, depth, σ.setBinding j v x⟩ := by
  have hframe : σ.frameOf? v (j :: env) = some j := by
    rw [Store.frameOf?_cons, if_pos h]
  simp [free, step, stepValue, perform, storeIn, Store.declared, hframe, give, Store.assign,
    Store.setBinding]

end Machine

open Machine

abbrev Runs (p : Program) : State → State → Prop :=
  Steps (free p) fun _ => True

end Resumable
