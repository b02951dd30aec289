import Resumable.Proofs.Run
import Resumable.Proofs.Unreachable.Seal

/-!
# Runs that keep a seal

No step of a run lets a function under the seal out: the work at hand, what waits
and the store stay free of them. Main statements: every step leads from a state that
keeps the seal to another one or to a free end, and no state that keeps it calls a
function under the seal.
-/

namespace Resumable.Seal

open Machine

variable (S : Seal)

/-- A state on the way to set a variable under the seal. -/
inductive Setting : State → Prop where
  | exec {s : Stmt} {env : Env} {stack : List Waiting} {depth : Nat} {store : Store} :
      S.Sets s → (∀ w ∈ stack, S.rule.OfWaiting w) → S.ClearStore store →
      Setting ⟨.exec s env, stack, depth, store⟩
  | assign {x : Variable} {fn : FuncId} {t : Ty} {env env' : Env} {stack : List Waiting} {depth : Nat}
      {store : Store} : S.var x.id → (∀ w ∈ stack, S.rule.OfWaiting w) → S.ClearStore store →
      Setting ⟨.eval (.assign (.ref x) (.lambda fn t)) env, .operands .discard [] [] env' :: stack,
        depth, store⟩
  | literal {x : Variable} {fn : FuncId} {t : Ty} {env env' env'' : Env} {stack : List Waiting}
      {depth : Nat} {store : Store} : S.var x.id → (∀ w ∈ stack, S.rule.OfWaiting w) →
      S.ClearStore store →
      Setting ⟨.eval (.lambda fn t) env, .operands (.assign (.ref x)) [] [] env' ::
        .operands .discard [] [] env'' :: stack, depth, store⟩
  | closure {x : Variable} {v : Value} {env env' : Env} {stack : List Waiting} {depth : Nat}
      {store : Store} : S.var x.id → (∀ w ∈ stack, S.rule.OfWaiting w) → S.ClearStore store →
      Setting ⟨.value v,
        .operands (.assign (.ref x)) [] [] env :: .operands .discard [] [] env' :: stack,
        depth, store⟩
  | set {v : Value} {env : Env} {stack : List Waiting} {depth : Nat} {store : Store} :
      (∀ w ∈ stack, S.rule.OfWaiting w) → S.ClearStore store →
      Setting ⟨.value v, .operands .discard [] [] env :: stack, depth, store⟩

/-- A state that keeps the seal, or is on the way to set one of its variables. -/
def Kept (s : State) : Prop :=
  S.rule.Holds s ∨ S.Setting s

/-- A step leads to a state that keeps the seal, or to a free end. -/
def LeadsKept : Step → Prop :=
  Machine.Leads S.Kept fun r σ => S.rule.OfResult r ∧ S.ClearStore σ

variable {S} {cx : Context}

theorem LeadsKept.of_leadsOn {step : Step} (h : S.rule.LeadsOn step) : S.LeadsKept step := by
  cases step with
  | next s =>
      rcases h with h | h
      · exact .inl h
      · obtain ⟨hs, hstack, hstore⟩ := h
        exact .inr (.exec hs hstack hstore)
  | halt r σ => exact h

/-- Setting a variable under the seal takes five steps, of which each leads to
the next or fails. -/
theorem Setting.leadsKept {s : State} (h : S.Setting s) : S.LeadsKept (step cx s) := by
  cases h with
  | exec hs hstack hstore =>
      obtain ⟨x, fn, t, share, rfl, hx⟩ := hs
      exact .inr (.assign hx hstack hstore)
  | assign hx hstack hstore => exact .inr (.literal hx hstack hstore)
  | literal hx hstack hstore =>
      simp only [step, stepEval]
      split
      · exact ⟨trivial, hstore⟩
      · exact .inr (.closure hx hstack { hstore with })
  | @closure x v env env' stack depth store hx hstack hstore =>
      simp only [step, stepValue, perform, storeIn, List.nil_append, List.headD_cons]
      split
      · exact .inr (.set hstack (hstore.assign (.inl hx)))
      · exact ⟨trivial, hstore⟩
  | set hstack hstore => exact .inl ⟨trivial, hstack, hstore⟩

/-- Every step keeps the seal. -/
theorem Kept.leadsKept (hp : S.Guards cx.program) {s : State} (h : S.Kept s) :
    S.LeadsKept (step cx s) := by
  rcases h with h | h
  · exact .of_leadsOn (h.leadsOn lawful_rule fun fn f _ hfn hf => hp fn f hf hfn)
  · exact h.leadsKept

/-- No function under the seal is under way in a state that keeps it. -/
theorem Kept.not_call {s : State} (h : S.Kept s) {fn : FuncId} (hfn : .call fn ∈ s.stack) :
    ¬ S.func fn := by
  rcases h with ⟨-, hstack, -⟩ | h
  · exact hstack _ hfn
  · cases h with
    | exec _ hstack _ => exact hstack _ hfn
    | assign _ hstack _ | set hstack _ | literal _ hstack _ | closure _ hstack _ =>
        exact hstack (.call fn) (by simpa using hfn)

theorem leadsKept_start (hp : S.Guards cx.program) {callee : Value} (hcallee : S.Free callee)
    {args : List Value} (hargs : ∀ v ∈ args, S.Free v) {store : Store} (hstore : S.ClearStore store) :
    S.LeadsKept (start cx callee args store) := by
  refine .of_leadsOn (Rule.leads_callValue (by simp) hstore lawful_rule hcallee ?_ hargs).on
  rintro tag fn env f rfl hf
  exact hp fn f hf hcallee

end Resumable.Seal
