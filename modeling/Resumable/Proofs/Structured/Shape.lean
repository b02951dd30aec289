import Resumable.Proofs.Discipline

/-!
# What a step can leave on the stack

Only a step that calls a function puts the end of a call on the stack. A step
on an expression leaves expressions to evaluate, and so does a step with a value
unless it decides where control goes.
-/

namespace Resumable

namespace Machine

variable {cx : Context} {depth : Nat} {store : Store} {env : Env}

/-! ## Calls -/

def CallFree : Step → Prop
  | .next s => s.stack.all fun w => !w.isCall
  | .halt .. => True

variable {stack : List Waiting}

theorem Moves.callFree {stmt : Bool} {flow completes : Prop} {st : Step}
    (h : Moves stmt flow completes False depth stack st) (hstack : stack.all fun w => !w.isCall) :
    CallFree st := by
  cases h with
  | enter _ _ _ _ _ hcalls => exact hcalls.elim
  | inside body env w σ hw =>
      cases w <;> simp_all [CallFree, Waiting.isCall, Waiting.encloses]
  | _ => first | exact trivial | exact hstack

/-- Only a step that calls a function puts the end of a call on the stack. -/
theorem free_callFree {p : Program} {focus : Focus} (h : stack.all fun w => !w.isCall)
    (hcall : callee? ⟨focus, stack, depth, store⟩ = none) :
    CallFree (free p ⟨focus, stack, depth, store⟩) := by
  cases focus
  case eval e env => exact (stepEval_moves _ e trivial : Moves _ False True False _ _ _).callFree h
  case exec s env => exact (stepExec_moves _ s : Moves _ _ _ False _ _ _).callFree h
  case value v =>
      cases stack with
      | nil => exact trivial
      | cons w stack =>
          simp only [List.all_cons, Bool.and_eq_true] at h
          cases w with
          | operands task done rest env =>
              refine (stepValue_moves _ task (fun h => h) (fun h => h) v done rest ?_).callFree h.2
              intro fn hfn
              rw [← callee?_onto stack, hcall] at hfn
              cases hfn
          | _ => exact h.2
  case complete c =>
      cases stack with
      | nil => exact trivial
      | cons w stack =>
          simp only [List.all_cons, Bool.and_eq_true] at h
          cases w with
          | call fn => cases h.1
          | block rest env =>
              cases c <;> cases rest <;> exact h.2
          | loop l env =>
              have hmoves : Moves true True True False depth stack
                  (nextRound l env stack depth store) :=
                nextRound_moves trivial trivial l
              cases c with
              | normal => exact hmoves.callFree h.2
              | continued label =>
                  simp only [free, step, stepComplete]
                  split
                  · exact hmoves.callFree h.2
                  · exact h.2
              | _ => exact h.2
          | switch own => cases c <;> exact h.2
          | _ => exact h.2
  case thrown v =>
      cases stack with
      | nil => exact trivial
      | cons w stack =>
          simp only [List.all_cons, Bool.and_eq_true] at h
          cases w with
          | tryCatch catches env =>
              cases catches with
              | nil => exact h.2
              | cons handler rest =>
                  simpa [free, step, stepThrown, enterBlock, CallFree, Waiting.isCall] using h.2
          | _ => exact h.2

/-! ## Mild steps -/

/-- A step on an expression or a simple statement: it leaves expressions to
evaluate, or it has a value, or the statement is over. If the statement cannot
end normally then nothing is left that could. -/
inductive Mild (completes : Bool) : Step → Prop where
  | halt (r : Except Failure Value) (σ : Store) : Mild completes (.halt r σ)
  | value (v : Value) (depth : Nat) (σ : Store) : Mild completes (.next ⟨.value v, [], depth, σ⟩)
  | thrown (v : Value) (depth : Nat) (σ : Store) : Mild completes (.next ⟨.thrown v, [], depth, σ⟩)
  | eval (e : Expr) (env : Env) {tops : List Waiting} (depth : Nat) (σ : Store) :
      (∀ w ∈ tops, w.isMild = true ∧ (w.completes = true → completes = true)) →
      Mild completes (.next ⟨.eval e env, tops, depth, σ⟩)
  | normal (depth : Nat) (σ : Store) : completes = true →
      Mild completes (.next ⟨.complete .normal, [], depth, σ⟩)
  | returned (v : Value) (depth : Nat) (σ : Store) :
      Mild completes (.next ⟨.complete (.returned v), [], depth, σ⟩)

theorem Moves.mild {stmt completes : Bool} {st : Step}
    (h : Moves stmt False (completes = true) False depth [] st) : Mild completes st := by
  cases h with
  | fail f σ => exact .halt _ _
  | thrown v σ => exact .thrown _ _ _
  | value v σ => exact .value _ _ _
  | eval e env σ => exact .eval _ _ _ _ (by simp)
  | operands e env done rest σ _ hflow hcompletes =>
      have hmild := Bool.eq_false_iff.2 hflow
      exact .eval _ _ _ _ (by simpa [Waiting.isMild, Waiting.completes] using ⟨hmild, hcompletes⟩)
  | normal σ _ hcompletes => exact .normal _ _ hcompletes
  | returned v σ => exact .returned _ _ _
  | exits _ _ _ h | block _ _ _ _ h | inside _ _ _ _ _ _ h | enter _ _ _ _ _ h => exact h.elim

end Machine

end Resumable
