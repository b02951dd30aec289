import Resumable.Proofs.Discipline
import Resumable.Proofs.Regular

/-!
# The machine of jump code

The machine of the language extended by jumps in the activations of one
function: a label does nothing, and a jump goes on after the label that it
names, whatever waits in the activation. A dispatch is a switch that has a jump
after each of its marks. The machine has no limit on calls.
-/

namespace Resumable

def Stmt.after? (l : String) : List Stmt → Option (List Stmt)
  | [] => none
  | .label m :: rest => if m = l then some rest else after? l rest
  | _ :: rest => after? l rest

def Arm.stmts (arm : Arm) : List Stmt :=
  [if arm.value.isMissing then .defaultMark else .caseMark arm.value, .goto arm.target]

namespace Machine

def activeFn? : List Waiting → Option FuncId
  | [] => none
  | .call fn :: _ => some fn
  | _ :: rest => activeFn? rest

def unwind : List Waiting → List Waiting
  | [] => []
  | .call fn :: rest => .call fn :: rest
  | _ :: rest => unwind rest

def jumpExec (p : Program) (fn : FuncId) (s : Stmt) (env : Env) (stack : List Waiting)
    (depth : Nat) (store : Store) : Option Step :=
  match s with
  | .label _ => some (complete stack depth store .normal)
  | .goto l =>
      ((p.func? fn).bind fun f => Stmt.after? l f.body).map fun rest =>
        enterBlock rest env (unwind stack) depth store
  | .condGoto c thenL elseL =>
      some (operands ⟨p, depth + 1⟩ (.branch [.goto thenL] [.goto elseL]) [c] env stack depth store)
  | .dispatch x arms =>
      some (operands ⟨p, depth + 1⟩ (.switchOn "" (arms.flatMap Arm.stmts)) [x] env stack depth store)
  | _ => none

def jump (p : Program) (fn : FuncId) (s : State) : Step :=
  match s.focus with
  | .exec st env =>
      if activeFn? s.stack = some fn then
        (jumpExec p fn st env s.stack s.depth s.store).getD (free p s)
      else free p s
  | _ => free p s

variable {p : Program} {fn : FuncId}

theorem jump_eq_free_of_inactive {s : State} (h : activeFn? s.stack ≠ some fn) :
    jump p fn s = free p s := by
  unfold jump
  split
  · rw [if_neg h]
  · rfl

theorem jump_eq_free_of_simple {s : Simple} {share : Option Nat} {env : Env}
    {stack : List Waiting} {depth : Nat} {store : Store} :
    jump p fn ⟨.exec (.simple s share) env, stack, depth, store⟩ =
      free p ⟨.exec (.simple s share) env, stack, depth, store⟩ := by
  simp [jump, jumpExec]

theorem jump_eq_free_of_focus {focus : Focus} {stack : List Waiting} {depth : Nat} {store : Store}
    (h : ∀ s env, focus ≠ .exec s env) :
    jump p fn ⟨focus, stack, depth, store⟩ = free p ⟨focus, stack, depth, store⟩ := by
  cases focus with
  | exec s env => exact absurd rfl (h s env)
  | _ => rfl

/-! ## The discipline of the stack -/

theorem orderly_unwind {stack : List Waiting} (h : orderly stack = true)
    (hfn : activeFn? stack = some fn) :
    orderly (unwind stack) = true ∧ wantsValue (unwind stack) = false := by
  induction stack with
  | nil => cases hfn
  | cons w rest ih =>
      cases w with
      | call g => exact ⟨h, rfl⟩
      | _ =>
          simp only [orderly, Bool.and_eq_true] at h
          exact ih h.2 hfn

/-- Jumps keep the discipline of the stack. -/
theorem Orderly.jump {s t : State} (h : Orderly s) (hstep : jump p fn s = .next t) : Orderly t := by
  obtain ⟨focus, stack, depth, store⟩ := s
  have hleads : LeadsOrderly (Machine.jump p fn ⟨focus, stack, depth, store⟩) := by
    have hfree : LeadsOrderly (Machine.free p ⟨focus, stack, depth, store⟩) := by
      cases hs : Machine.free p ⟨focus, stack, depth, store⟩ with
      | next u => exact h.free hs
      | halt => exact trivial
    unfold Machine.jump
    split
    · next st env hfocus =>
        simp only at hfocus
        subst hfocus
        obtain ⟨hstack, hwants⟩ := h
        simp only at hwants hstack
        split
        · next hactive =>
            cases st
            case label l => simp [jumpExec, complete, LeadsOrderly, Orderly, hstack, hwants]
            case goto l =>
                obtain ⟨h₁, h₂⟩ := orderly_unwind hstack hactive
                simp only [jumpExec]
                cases (p.func? fn).bind fun f => Stmt.after? l f.body with
                | none => exact hfree
                | some rest => simp [enterBlock, LeadsOrderly, Orderly, orderly, h₁, h₂]
            case condGoto | dispatch =>
                simp only [jumpExec, Option.getD_some]
                have hmoves (task : Task) (es : List Expr) :=
                  (operands_moves ⟨p, depth + 1⟩ task (fun _ => trivial) (fun _ => trivial) es :
                    Moves _ True True False depth stack (operands _ task es env stack depth store))
                exact (hmoves _ _).orderly hstack hwants
            all_goals exact hfree
        · exact hfree
    · exact hfree
  rwa [hstep] at hleads

end Machine

end Resumable
