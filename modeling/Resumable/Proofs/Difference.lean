import Resumable.Proofs.Regular
import Resumable.Proofs.Scope

/-!
# Differences that can be seen

A pass over a program fails to keep the meaning of a function if some call of it
ends, and no call of what it was turned into ends alike, whatever the limit.
-/

namespace Resumable

open Machine

/-- A program of some functions, none of which has more than five variables. -/
def sample (funcs : Array Func) : Workspace where
  program := { funcs, varCount := 5 }

def tracing : Store :=
  ({} : Store).bindTracing ⟨1, "t", .variant⟩

/-- After a pass the first function of a program does not do what a machine did
with it before, although the machine comes to an end and meets a condition on
the way. -/
def Differs {α : Type} (funcs : Array Func) (pass : Lowering α) (next : State → Step) (f : Func)
    (ok : State → Bool) : Prop :=
  ∃ a w' fuel r σ, pass (sample funcs) = .ok a w' ∧ (sample funcs).program.func? 1 = some f ∧
    (sample funcs).program.scoped = true ∧ tracing.valid (sample funcs).program = true ∧
    watch next ok fuel (entered f 1 [] [] tracing) = some (r, σ) ∧
    ∀ depth fuel' r' σ',
      call ⟨w'.program, depth⟩ fuel' (.closure 0 1 []) [] tracing = some (r', σ') →
        ¬ EndAlike tracing r σ r' σ'

/-- A difference that can be seen without comparing values. -/
theorem Differs.of_observed {α : Type} {funcs : Array Func} {pass : Lowering α}
    {next : State → Step} {f : Func} {ok : State → Bool} (fuel limit : Nat)
    (hf : (sample funcs).program.func? 1 = some f) (hscoped : (sample funcs).program.scoped = true)
    (htracing : tracing.valid (sample funcs).program = true)
    (hruns : Lowering.succeeds pass (sample funcs) (fun w' =>
      (watch next ok fuel (entered f 1 [] [] tracing)).any fun answer =>
        endsWell w'.program limit fuel (.closure 0 1 []) [] tracing
          fun answer' => observed answer ≠ observed answer') = true) :
    Differs funcs pass next f ok := by
  obtain ⟨a, w', hpass, hruns⟩ := Lowering.ok_of_succeeds hruns
  obtain ⟨⟨r, σ⟩, hwatch, hends⟩ := (Option.any_eq_true _ _).1 hruns
  refine ⟨a, w', fuel, r, σ, hpass, hf, hscoped, htracing, hwatch, ?_⟩
  intro depth fuel' r' σ' hcall halike
  have hne := good_of_endsWell hends hcall
  simp [halike.observed_eq] at hne

end Resumable
