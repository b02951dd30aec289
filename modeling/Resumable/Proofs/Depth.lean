import Resumable.Proofs.Discipline

/-!
# How many calls are under way

A state counts the calls that wait on its stack. Every step of an orderly run
keeps the count right, so two runs with alike stacks meet the limit together.
-/

namespace Resumable.Machine

def calls : List Waiting → Nat
  | [] => 0
  | .call _ :: rest => calls rest + 1
  | _ :: rest => calls rest

def LeadsLevel : Step → Prop
  | .next s => s.depth = calls s.stack
  | .halt .. => True

attribute [local simp] calls LeadsLevel

variable {cx : Context} {stack : List Waiting} {depth : Nat} {store : Store}

theorem Moves.level {stmt : Bool} {flow completes enters : Prop} {st : Step}
    (h : Moves stmt flow completes enters depth stack st) (hdepth : depth = calls stack) :
    LeadsLevel st := by
  cases h with
  | inside body env w σ hw =>
      cases w <;> simp_all [Waiting.encloses]
  | _ => simp [hdepth]

theorem stepComplete_level (h : depth = calls stack) (c : Completion) :
    LeadsLevel (stepComplete cx c stack depth store) := by
  cases stack with
  | nil => exact trivial
  | cons w stack =>
      cases w with
      | block rest env => cases c <;> cases rest <;> simpa [stepComplete, complete] using h
      | loop l env =>
          replace h : depth = calls stack := h
          have hmoves : Moves true True True False depth stack (nextRound l env stack depth store) :=
            nextRound_moves trivial trivial l
          have hnext := hmoves.level h
          cases c with
          | normal => exact hnext
          | continued label =>
              simp only [stepComplete]
              split
              · exact hnext
              · simp [complete, h]
          | _ => simp [stepComplete, complete, h]
      | call fn => cases c <;> simp [stepComplete, give, fail, h]
      | switch own => cases c <;> simpa [stepComplete, complete] using h
      | _ => simpa [stepComplete, complete] using h

theorem stepThrown_level (h : depth = calls stack) (v : Value) :
    LeadsLevel (stepThrown v stack depth store) := by
  cases stack with
  | nil => exact trivial
  | cons w stack =>
      cases w with
      | tryCatch catches env => cases catches <;> simpa [stepThrown, enterBlock] using h
      | call fn => simp [stepThrown, h]
      | _ => simpa [stepThrown] using h

/-- A value that is wanted ends no call. -/
theorem stepValue_level (h : depth = calls stack) (hwants : wantsValue stack = true) (v : Value) :
    LeadsLevel (stepValue cx v stack depth store) := by
  cases stack with
  | nil => exact trivial
  | cons w stack =>
      cases w with
      | operands task done rest env =>
          exact (stepValue_moves cx task (fun h => h) (fun h => h) v done rest
            fun _ _ => trivial).level h
      | _ => cases hwants

/-- A state whose stack is in order and whose calls are counted right. -/
structure Level (s : State) : Prop where
  orderly : Orderly s
  depth : s.depth = calls s.stack

theorem Level.step {s t : State} (h : Level s) (hstep : step cx s = .next t) : Level t := by
  refine ⟨h.orderly.step hstep, ?_⟩
  obtain ⟨⟨-, hfocus⟩, hdepth⟩ := h
  obtain ⟨focus, stack, depth, store⟩ := s
  have hleads : LeadsLevel (Machine.step cx ⟨focus, stack, depth, store⟩) := by
    cases focus with
    | eval e env => exact (stepEval_moves cx e trivial : Moves _ False True False _ _ _).level hdepth
    | exec s env => exact (stepExec_moves cx s : Moves _ _ _ False _ _ _).level hdepth
    | value v => exact stepValue_level hdepth hfocus v
    | complete c => exact stepComplete_level hdepth c
    | thrown v => exact stepThrown_level hdepth v
  rwa [hstep] at hleads

/-- The first state of a call. -/
theorem level_entered (f : Func) (fn : FuncId) (env : Env) (args : List Value) (store : Store) :
    Level (entered f fn env args store) where
  orderly := ⟨rfl, rfl⟩
  depth := rfl

end Resumable.Machine
