import Resumable.Proofs.Depth
import Resumable.Proofs.Regular
import Resumable.Proofs.Scope

/-!
# The same code in two stores

A function that finds all its variables in its own frames, or nowhere, does the
same in any two stores that correspond as far as these frames reach: the two runs
take the same number of steps, meet the limit on calls together and end alike.
Meanwhile the second run leaves alone whatever was put aside.
-/

namespace Resumable

/-- A function looks up a variable outside of its own: its body mentions the
variable, or that of a function made in it does, and no function in between has
it. -/
inductive Program.Looks (p : Program) (x : Nat) : FuncId → Prop where
  | mentions {fn : FuncId} {f : Func} : p.func? fn = some f →
      x ∈ (bodyRefs f.body).map Variable.id → x ∉ f.vars → Looks p x fn
  | inner {fn g : FuncId} {f : Func} : p.func? fn = some f → g ∈ bodyLiterals f.body →
      Looks p x g → x ∉ f.vars → Looks p x fn

/-- One program on both sides. Only variables that are unbound in `globals` are
looked for beyond the frames, and natives have no part in it. -/
def Sides.twin (p : Program) (globals : Bindings) (A : Aside) : Sides where
  source := p
  target := p
  known fn := (p.func? fn).isSome
  free fn x := p.Looks x fn
  loose _ := False
  special _ := False
  common x := globals.lookup x = none
  slot _ _ := False
  heard := False
  aside := A

section

variable {p : Program} {globals : Bindings} {A : Aside}

theorem Sides.twin_sound (p : Program) (globals : Bindings) (A : Aside) :
    (twin p globals A).Sound where
  types := rfl
  funcs := by
    intro fn hfn
    obtain ⟨f, hf⟩ := Option.isSome_iff_exists.1 hfn
    exact ⟨f, f, hf, hf, rfl⟩
  body := by
    intro fn hfn _
    obtain ⟨f, hf⟩ := Option.isSome_iff_exists.1 hfn
    refine ⟨f, f, hf, hf, rfl, rfl, .refl f.body fun t ht e he => ?_⟩
    refine Expr.covered_of_lt (fun v hv => ?_) fun g hg _ => ⟨fun x hx => ?_, .inr trivial⟩
    · by_cases hown : v.id ∈ f.vars
      · exact .inr hown
      · refine .inl (.mentions hf (List.mem_map_of_mem ?_) hown)
        rw [bodyRefs_eq]
        exact List.mem_flatMap.2 ⟨t, ht, List.mem_flatMap.2 ⟨e, he, hv⟩⟩
    · by_cases hown : x ∈ f.vars
      · exact .inr hown
      · refine .inl (.inner hf ?_ hx hown)
        rw [bodyLiterals_eq]
        exact List.mem_flatMap.2 ⟨t, ht, List.mem_flatMap.2 ⟨e, he, hg⟩⟩
  slot := False.elim

end

namespace Machine

section

variable {S : Sides} {P : Pairing}

/-- Corresponding stacks have the same calls on them. -/
theorem calls_eq {stack stack' : List Waiting} (h : StackPair S P stack stack') :
    calls stack = calls stack' := by
  induction h with
  | nil => rfl
  | cons hw _ ih => cases hw <;> simp [calls, ih]

/-- Corresponding states call the same function next. -/
theorem callee?_eq {focus focus' : Focus} (hf : FocusPair S P focus focus')
    {stack stack' : List Waiting} (hs : StackPair S P stack stack') (depth depth' : Nat)
    (σ σ' : Store) :
    callee? ⟨focus, stack, depth, σ⟩ = callee? ⟨focus', stack', depth', σ'⟩ := by
  cases hf with
  | @value v v' hv =>
      cases hs with
      | nil => rfl
      | cons hw hs =>
          cases hw with
          | @operands R T env env' task task' done done' rest rest' _ ht hdone hrest =>
              cases ht with
              | call =>
                  cases hrest with
                  | cons _ _ => rfl
                  | nil =>
                      have hcallee : ValuePair S P ((done ++ [v]).headD .null)
                          ((done' ++ [v']).headD .null) :=
                        ValuePair.headD (List.rel_append hdone (.cons hv .nil))
                      simp only [callee?]
                      generalize (done ++ [v]).headD .null = c at hcallee ⊢
                      generalize (done' ++ [v']).headD .null = c' at hcallee ⊢
                      cases hcallee <;> rfl
              | _ => rfl
          | _ => rfl
  | _ => rfl

end

/-- A call beyond the limit fails. -/
theorem step_of_limit {p : Program} {limit : Nat} {s : State} {fn : FuncId}
    (h : callee? s = some fn) (hlimit : limit ≤ s.depth) :
    step ⟨p, limit⟩ s =
      fail s.store (.eval .invalidInput s!"call depth exceeds {limit}") := by
  obtain ⟨focus, stack, depth, σ⟩ := s
  unfold callee? at h
  split at h
  · next v done env stack hfocus hstack =>
      cases hfocus
      cases hstack
      split at h
      · next hcallee =>
          change callValue ⟨p, limit⟩ ((done ++ [v]).headD .null) _ stack depth σ = _
          rw [hcallee, callValue, if_pos hlimit]
      · cases h
  · cases h

variable {p : Program} {globals : Bindings} {A : Aside} {P : Pairing}

/-- Corresponding states of two runs of the same code. -/
structure Twin (p : Program) (globals : Bindings) (A : Aside) (P : Pairing) (s s' : State) :
    Prop where
  store : StorePair (.twin p globals A) P s.store s'.store
  focus : FocusPair (.twin p globals A) P s.focus s'.focus
  stack : StackPair (.twin p globals A) P s.stack s'.stack
  level : Level s
  level' : Level s'

theorem Twin.depth_eq {s s' : State} (h : Twin p globals A P s s') : s.depth = s'.depth := by
  rw [h.level.depth, h.level'.depth, calls_eq h.stack]

/-- Without a limit, corresponding states take corresponding steps. -/
theorem freePair {σ σ' : Store} {focus focus' : Focus} {stack stack' : List Waiting}
    {depth depth' : Nat} (hσ : StorePair (.twin p globals A) P σ σ')
    (hf : FocusPair (.twin p globals A) P focus focus')
    (hs : StackPair (.twin p globals A) P stack stack') :
    StepPair (.twin p globals A) P (free p ⟨focus, stack, depth, σ⟩)
      (free p ⟨focus', stack', depth', σ'⟩) := by
  have hshared (e e' : Expr) (env env' : Env) (he : focus = .eval e env)
      (he' : focus' = .eval e' env') : e = e' := by
    subst he he'
    cases hf with
    | eval _ hpair => exact hpair.2.resolve_right not_false
  by_cases hliteral : ∃ fn, literal? ⟨focus, stack, depth, σ⟩ = some fn ∧ p.func? fn = none
  · -- a function that does not exist fails on both sides
    obtain ⟨fn, hfn, hnone⟩ := hliteral
    cases hf with
    | @eval R T env env' e e' _ _ =>
        cases hshared e e' env env' rfl rfl
        cases e with
        | lambda g t =>
            cases hfn
            simp only [free, step, stepEval, hnone]
            exact .halt (Pairing.le_refl P) hσ (.failure (Failure.report_ne_thrown _))
        | _ => cases hfn
    | _ => cases hfn
  · have hallows : (Sides.twin p globals A).Allows ⟨focus, stack, depth, σ⟩ := by
      constructor
      · intro fn hfn
        exact Option.ne_none_iff_isSome.1 fun hnone => hliteral ⟨fn, hfn, hnone⟩
      · intros
        exact not_false
    exact lockstep (Sides.twin_sound p globals A) hσ hf hs hshared hallows fun _ _ => not_false

/-- Corresponding states take corresponding steps. -/
theorem Twin.stepPair {s s' : State} (h : Twin p globals A P s s') (limit : Nat) :
    StepPair (.twin p globals A) P (step ⟨p, limit⟩ s) (step ⟨p, limit⟩ s') := by
  have hcallee := callee?_eq h.focus h.stack s.depth s'.depth s.store s'.store
  by_cases hover : ∃ fn, callee? s = some fn ∧ limit ≤ s.depth
  · obtain ⟨fn, hfn, hlimit⟩ := hover
    rw [step_of_limit hfn hlimit, step_of_limit (hcallee ▸ hfn) (h.depth_eq ▸ hlimit)]
    exact .halt (Pairing.le_refl P) h.store (.failure (Failure.report_ne_thrown _))
  · have hfree : step ⟨p, limit⟩ s = free p s := step_eq_free fun fn hfn => by
      by_contra hlt
      exact hover ⟨fn, hfn, Nat.not_lt.1 hlt⟩
    have hfree' : step ⟨p, limit⟩ s' = free p s' := step_eq_free fun fn hfn => by
      by_contra hlt
      exact hover ⟨fn, hcallee.trans hfn, h.depth_eq ▸ Nat.not_lt.1 hlt⟩
    rw [hfree, hfree']
    exact freePair h.store h.focus h.stack

/-! ## Runs -/

/-- Two runs do not end, or they end with what corresponds under a pairing that
may have grown. -/
inductive Outcomes {α : Type} (S : Sides) (P : Pairing) (Rel : Pairing → α → α → Prop) :
    Option (α × Store) → Option (α × Store) → Prop where
  | none : Outcomes S P Rel none none
  | some {Q : Pairing} {a a' : α} {σ σ' : Store} : P ≤ Q → StorePair S Q σ σ' → Rel Q a a' →
      Outcomes S P Rel (some (a, σ)) (some (a', σ'))

theorem Outcomes.of_le {α : Type} {S : Sides} {P Q : Pairing} {Rel : Pairing → α → α → Prop}
    {o o' : Option (α × Store)} (hle : P ≤ Q) (h : Outcomes S Q Rel o o') :
    Outcomes S P Rel o o' := by
  cases h with
  | none => exact .none
  | some hmore hσ hrel => exact .some (Pairing.le_trans hle hmore) hσ hrel

theorem Twin.run {s s' : State} (h : Twin p globals A P s s') (limit fuel : Nat) :
    Outcomes (.twin p globals A) P (ResultPair (.twin p globals A)) (run ⟨p, limit⟩ fuel s)
      (run ⟨p, limit⟩ fuel s') := by
  induction fuel generalizing P s s' with
  | zero => exact .none
  | succ fuel ih =>
      have hpair := h.stepPair limit
      rw [Machine.run, Machine.run]
      cases hs : step ⟨p, limit⟩ s with
      | halt r σ =>
          rw [hs] at hpair
          cases hs' : step ⟨p, limit⟩ s' with
          | next t' =>
              rw [hs'] at hpair
              cases hpair
          | halt r' σ' =>
              rw [hs'] at hpair
              cases hpair with
              | halt hle hσ hr => exact .some hle hσ hr
      | next t =>
          rw [hs] at hpair
          cases hs' : step ⟨p, limit⟩ s' with
          | halt r' σ' =>
              rw [hs'] at hpair
              cases hpair
          | next t' =>
              rw [hs'] at hpair
              have hlevel := h.level.step hs
              have hlevel' := h.level'.step hs'
              cases hpair with
              | next hle hσ hf hstack =>
                  exact (ih ⟨hσ, hf, hstack, hlevel, hlevel'⟩).of_le hle

section

variable {σ σ' : Store}

/-- Calls of a function from environments that agree on what it looks up. -/
theorem call_closure (hσ : StorePair (.twin p globals A) P σ σ') {fn : FuncId}
    (hfn : (p.func? fn).isSome) {env env' : Env}
    (henv : ∀ x, p.Looks x fn → P.Agrees (.twin p globals A) x env env') {args args' : List Value}
    (hargs : List.Forall₂ (ValuePair (.twin p globals A) P) args args') (tag tag' limit fuel : Nat) :
    Outcomes (.twin p globals A) P (ResultPair (.twin p globals A))
      (call ⟨p, limit⟩ fuel (.closure tag fn env) args σ)
      (call ⟨p, limit⟩ fuel (.closure tag' fn env') args' σ') := by
  by_cases hlimit : limit = 0
  · subst hlimit
    exact .some (Pairing.le_refl P) hσ (.failure (Failure.report_ne_thrown _))
  · obtain ⟨f, f', Q, R, hf, hf', hle, hσ, hview, hbody⟩ :=
      hσ.call (Sides.twin_sound p globals A) hfn not_false henv hargs
    replace hf : p.func? fn = some f := hf
    replace hf' : p.func? fn = some f' := hf'
    have hpos : 0 < limit := Nat.pos_of_ne_zero hlimit
    rw [call, call, start_closure hf hpos, start_closure hf' hpos]
    have htwin : Twin p globals A Q (entered f fn env args _) (entered f' fn env' args' _) :=
      ⟨hσ, .complete .normal, .cons (.block hview hbody) (.cons (.call rfl not_false) .nil),
        level_entered .., level_entered ..⟩
    exact (htwin.run limit fuel).of_le hle

theorem call_value (hσ : StorePair (.twin p globals A) P σ σ') {callee callee' : Value}
    (hcallee : ValuePair (.twin p globals A) P callee callee') (limit fuel : Nat) :
    Outcomes (.twin p globals A) P (ResultPair (.twin p globals A))
      (call ⟨p, limit⟩ fuel callee [] σ) (call ⟨p, limit⟩ fuel callee' [] σ') := by
  have hformat : callee.format p = callee'.format p :=
    hcallee.format_eq (S := .twin p globals A) (Sides.twin_sound p globals A).toShows
  cases hcallee with
  | closure _ hfn henv _ => exact call_closure hσ hfn henv .nil ..
  | native _ _ hheard _ => exact hheard.elim
  | _ =>
      simp only [call, start, callValue, fail, finish, hformat]
      exact .some (Pairing.le_refl P) hσ (.failure (Failure.report_ne_thrown _))

inductive ResumptionPair (S : Sides) (P : Pairing) : Resumption → Resumption → Prop where
  | yielded {v v' : Value} : ValuePair S P v v' → ResumptionPair S P (.yielded v) (.yielded v')
  | done : ResumptionPair S P .done .done
  | failed {f f' : Failure} : ResultPair S P (.error f) (.error f') →
      ResumptionPair S P (.failed f) (.failed f')

theorem ResumptionPair.mono {S : Sides} {P Q : Pairing} (h : P ≤ Q) {a a' : Resumption}
    (ha : ResumptionPair S P a a') : ResumptionPair S Q a a' := by
  cases ha with
  | yielded hv => exact .yielded (hv.mono h)
  | done => exact .done
  | failed hf => exact .failed (hf.mono h)

theorem isInstance_eq {S : Sides} {v v' : Value} (h : ValuePair S P v v') (name : String) :
    v.isInstance p name = v'.isInstance p name := by
  cases h with
  | object cls _ => cases cls <;> rfl
  | _ => rfl

/-- Resumptions of objects that correspond. -/
theorem resume_value (hσ : StorePair (.twin p globals A) P σ σ') {gen gen' : Value}
    (hgen : ValuePair (.twin p globals A) P gen gen') (limit fuel : Nat) :
    Outcomes (.twin p globals A) P (ResumptionPair (.twin p globals A))
      (resume ⟨p, limit⟩ fuel gen σ) (resume ⟨p, limit⟩ fuel gen' σ') := by
  have hformat : gen.format p = gen'.format p :=
    hgen.format_eq (S := .twin p globals A) (Sides.twin_sound p globals A).toShows
  cases hgen with
  | @object ref ref' cls hr =>
      have hnext := FieldsPair.get hσ (hσ.fields hr) (.text Generator.nextField)
      have hcall := call_value hσ hnext limit fuel
      rw [resume, resume]
      generalize call ⟨p, limit⟩ fuel _ [] σ = o at hcall ⊢
      generalize call ⟨p, limit⟩ fuel _ [] σ' = o' at hcall ⊢
      cases hcall with
      | none => exact .none
      | @some Q r r' τ τ' hle hτ hresult =>
          have hvalue := FieldsPair.get hτ (hτ.fields (hle.object hr)) (.text Generator.valueField)
          cases hresult with
          | ok _ => exact .some hle hτ (.yielded hvalue)
          | @thrown v v' hv =>
              simp only [Option.bind_eq_bind, Option.bind_some, isInstance_eq hv]
              split
              · exact .some hle hτ .done
              · exact .some hle hτ (.failed (.thrown hv))
          | @failure f hf =>
              cases f with
              | thrown v => exact absurd rfl (hf v)
              | _ => exact .some hle hτ (.failed (.failure hf))
  | native _ _ hheard _ => exact hheard.elim
  | _ =>
      simp only [resume, hformat]
      exact .some (Pairing.le_refl P) hσ (.failed (.failure (Failure.report_ne_thrown _)))

end

end Machine

end Resumable
