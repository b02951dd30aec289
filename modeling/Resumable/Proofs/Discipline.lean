import Resumable.Proofs.Moves

/-!
# The discipline of the stack

What waits on top of the stack waits for a value or for the end of a statement,
and gets what it waits for: an expression runs above operands or the bottom, a
statement above a block, a loop, a switch, a handler or the end of a call.
Every step keeps this, so every run does.
-/

namespace Resumable

namespace Machine

def wantsValue : List Waiting → Bool
  | [] => true
  | .operands .. :: _ => true
  | _ => false

/-- Whether everything on a stack stands above what waits for its outcome. -/
def orderly : List Waiting → Bool
  | [] => true
  | .operands task _ _ _ :: rest => (wantsValue rest == !task.endsStmt) && orderly rest
  | .call _ :: rest => wantsValue rest && orderly rest
  | _ :: rest => !wantsValue rest && orderly rest

section

variable (stack : List Waiting)

@[simp] theorem wantsValue_nil : wantsValue [] = true := rfl

@[simp] theorem wantsValue_operands (task : Task) (done : List Value) (rest : List Expr)
    (env : Env) : wantsValue (.operands task done rest env :: stack) = true := rfl

@[simp] theorem wantsValue_block (rest : List Stmt) (env : Env) :
    wantsValue (.block rest env :: stack) = false := rfl

@[simp] theorem wantsValue_loop (l : Loop) (env : Env) :
    wantsValue (.loop l env :: stack) = false := rfl

@[simp] theorem wantsValue_switch (label : String) :
    wantsValue (.switch label :: stack) = false := rfl

@[simp] theorem wantsValue_tryCatch (cs : List Catch) (env : Env) :
    wantsValue (.tryCatch cs env :: stack) = false := rfl

@[simp] theorem wantsValue_call (fn : FuncId) : wantsValue (.call fn :: stack) = false := rfl

end

/-- The stack of a state is orderly and waits for what the work at hand gives. -/
def Orderly (s : State) : Prop :=
  orderly s.stack = true ∧
    match s.focus with
    | .eval .. | .value _ => wantsValue s.stack = true
    | .exec .. | .complete _ => wantsValue s.stack = false
    | .thrown _ => True

def LeadsOrderly : Step → Prop
  | .next s => Orderly s
  | .halt .. => True

variable {cx : Context} {stack : List Waiting} {depth : Nat} {store : Store}

theorem Moves.orderly {stmt : Bool} {flow completes calls : Prop} {st : Step}
    (h : Moves stmt flow completes calls depth stack st) (hstack : orderly stack = true)
    (hwants : wantsValue stack = !stmt) : LeadsOrderly st := by
  cases h with
  | fail => exact trivial
  | inside body env w σ hw hstmt =>
      have hbelow : Machine.orderly (w :: stack) = true := by
        cases w <;> simp_all [Machine.orderly, Waiting.encloses]
      have hblock : wantsValue (w :: stack) = false := by
        cases w <;> first | rfl | cases hw
      simp [LeadsOrderly, Orderly, Machine.orderly, hbelow, hblock]
  | _ => simp_all [LeadsOrderly, Orderly, Machine.orderly]

theorem stepComplete_orderly (h : orderly stack = true) (hv : wantsValue stack = false)
    (c : Completion) : LeadsOrderly (stepComplete cx c stack depth store) := by
  match stack with
  | [] => exact trivial
  | .operands .. :: _ => simp [wantsValue] at hv
  | .block rest env :: stack =>
      simp only [orderly, Bool.and_eq_true, Bool.not_eq_true'] at h
      cases c <;> cases rest <;>
        simp [stepComplete, complete, LeadsOrderly, Orderly, orderly, h]
  | .loop l env :: stack =>
      simp only [orderly, Bool.and_eq_true, Bool.not_eq_true'] at h
      have hmoves : Moves true True True False depth stack (nextRound l env stack depth store) :=
        nextRound_moves trivial trivial l
      have hnext := hmoves.orderly h.2 h.1
      cases c with
      | normal => exact hnext
      | continued label =>
          simp only [stepComplete]
          split
          · exact hnext
          · simp [complete, LeadsOrderly, Orderly, h]
      | _ => simp [stepComplete, complete, LeadsOrderly, Orderly, h]
  | .switch own :: stack =>
      simp only [orderly, Bool.and_eq_true, Bool.not_eq_true'] at h
      cases c <;> simp [stepComplete, complete, LeadsOrderly, Orderly, h]
  | .tryCatch catches env :: stack =>
      simp only [orderly, Bool.and_eq_true, Bool.not_eq_true'] at h
      simp [stepComplete, complete, LeadsOrderly, Orderly, h]
  | .call fn :: stack =>
      simp only [orderly, Bool.and_eq_true] at h
      cases c <;> simp [stepComplete, give, fail, LeadsOrderly, Orderly, h]

theorem stepThrown_orderly (h : orderly stack = true) (v : Value) :
    LeadsOrderly (stepThrown v stack depth store) := by
  match stack with
  | [] => exact trivial
  | .operands .. :: stack =>
      simp only [orderly, Bool.and_eq_true] at h
      exact ⟨h.2, trivial⟩
  | .block .. :: stack | .loop .. :: stack | .switch _ :: stack | .call _ :: stack =>
      simp only [orderly, Bool.and_eq_true] at h
      exact ⟨h.2, trivial⟩
  | .tryCatch catches env :: stack =>
      simp only [orderly, Bool.and_eq_true, Bool.not_eq_true'] at h
      cases catches with
      | nil => exact ⟨h.2, trivial⟩
      | cons handler rest =>
          simp [stepThrown, enterBlock, LeadsOrderly, Orderly, orderly, h]

theorem stepValue_orderly (h : orderly stack = true) (hv : wantsValue stack = true) (v : Value) :
    LeadsOrderly (stepValue cx v stack depth store) := by
  match stack with
  | [] => exact trivial
  | .operands task done rest env :: stack =>
      simp only [orderly, Bool.and_eq_true, beq_iff_eq] at h
      exact (stepValue_moves cx task (fun h => h) (fun h => h) v done rest
        fun _ _ => trivial).orderly h.2 h.1

/-- Every step keeps the discipline. -/
theorem Orderly.step {s t : State} (h : Orderly s) (hstep : step cx s = .next t) : Orderly t := by
  obtain ⟨focus, stack, depth, store⟩ := s
  have hleads : LeadsOrderly (Machine.step cx ⟨focus, stack, depth, store⟩) := by
    obtain ⟨hstack, hfocus⟩ := h
    cases focus with
    | eval e env =>
        exact (stepEval_moves cx e trivial : Moves _ False True False _ _ _).orderly hstack hfocus
    | exec s env => exact (stepExec_moves cx s : Moves _ _ _ False _ _ _).orderly hstack hfocus
    | value v => exact stepValue_orderly hstack hfocus v
    | complete c => exact stepComplete_orderly hstack hfocus c
    | thrown v => exact stepThrown_orderly hstack v
  rwa [hstep] at hleads

theorem Orderly.free {p : Program} {s t : State} (h : Orderly s) (hstep : free p s = .next t) :
    Orderly t :=
  h.step hstep

end Machine

end Resumable
