import Resumable.Proofs.Structured.Frames
import Resumable.Proofs.Structured.Twin

/-!
# Structured code and its jump code do the same

Every step of a program with a function in structured form is followed by the
jump machine on the program with its jump code. Values and stores are the same
all the way.
-/

namespace Resumable

open Machine JumpCode

/-- A function in structured form in one program and as jump code in another. -/
structure Lowered (p q : Program) (id : FuncId) (whole : List Stmt) : Prop where
  twins : Twins id p q
  nodup : (Graph.labelsOf whole).Nodup
  code : ∃ f g pos, p.func? id = some f ∧ q.func? id = some g ∧ g.params = f.params ∧
    g.locals = f.locals ∧ g.body = whole ∧ Leads whole whole pos ∧
    StretchAt whole [] f.body [] true pos []

/-- A condition on states that only expressions and operators can fail, and that
looks no deeper into the stack than a step does. -/
structure Guard (ok : State → Prop) : Prop where
  exec : ∀ {s env stack depth σ}, ok ⟨.exec s env, stack, depth, σ⟩
  complete : ∀ {c stack depth σ}, ok ⟨.complete c, stack, depth, σ⟩
  thrown : ∀ {v stack depth σ}, ok ⟨.thrown v, stack, depth, σ⟩
  discard : ∀ {v done rest env stack depth σ},
    ok ⟨.value v, .operands .discard done rest env :: stack, depth, σ⟩
  flow : ∀ {v task done rest env stack depth σ}, task.isFlow = true →
    ok ⟨.value v, .operands task done rest env :: stack, depth, σ⟩
  below : ∀ {focus w stack stack' depth σ}, ok ⟨focus, w :: stack, depth, σ⟩ →
    ok ⟨focus, w :: stack', depth, σ⟩
  eval : ∀ {e env stack stack' depth σ}, ok ⟨.eval e env, stack, depth, σ⟩ →
    ok ⟨.eval e env, stack', depth, σ⟩

inductive Mirrors (q : Program) (id : FuncId) (whole : List Stmt) (ok : State → Prop) :
    Step → State → Prop where
  | next {t s' t' : State} : Steps (jump q id) ok s' t' → Match whole id t t' →
      Mirrors q id whole ok (.next t) s'
  | halt {r : Except Failure Value} {σ : Store} {s' : State} : Ends (jump q id) ok s' r σ →
      Mirrors q id whole ok (.halt r σ) s'

section

variable {p q : Program} {id : FuncId} {whole : List Stmt} {ok : State → Prop} {env : Env}
  {stack stack' : List Waiting} {depth : Nat} {σ : Store} {s' t' : State}

theorem Mirrors.steps {step : Step} (h : Steps (jump q id) ok s' t')
    (hrest : Mirrors q id whole ok step t') : Mirrors q id whole ok step s' := by
  cases hrest with
  | next hsteps hmatch => exact .next (h.trans hsteps) hmatch
  | halt hends => exact .halt (h.ends hends)

/-! ## Jumps -/

theorem isFrame_block (post : List Stmt) (env : Env) :
    [Waiting.block post env].all Waiting.isFrame = true := rfl

theorem unwind_append {dead : List Waiting} (hdead : dead.all Waiting.isFrame = true) :
    unwind (dead ++ .call id :: stack) = .call id :: stack := by
  induction dead with
  | nil => rfl
  | cons w dead ih =>
      simp only [List.all_cons, Bool.and_eq_true] at hdead
      cases w <;> first | exact ih hdead.2 | cases hdead.1

theorem activeFn?_append {dead : List Waiting} (hdead : dead.all Waiting.isFrame = true) :
    activeFn? (dead ++ .call id :: stack) = some id := by
  induction dead with
  | nil => rfl
  | cons w dead ih =>
      simp only [List.all_cons, Bool.and_eq_true] at hdead
      cases w <;> first | exact ih hdead.2 | cases hdead.1

theorem jump_goto (hcode : (q.func? id).map Func.body = some whole) {l : String}
    {rest : List Stmt} (hl : Stmt.after? l whole = some rest) {dead : List Waiting}
    (hdead : dead.all Waiting.isFrame = true) :
    jump q id ⟨.exec (.goto l) env, dead ++ .call id :: stack, depth, σ⟩ =
      .next ⟨.complete .normal, .block rest env :: .call id :: stack, depth, σ⟩ := by
  obtain ⟨g, hg, rfl⟩ := Option.map_eq_some_iff.1 hcode
  simp [Machine.jump, jumpExec, activeFn?_append hdead, hg, hl, unwind_append hdead, enterBlock]

/-- A block that starts with a jump. -/
theorem steps_goto (hok : Guard ok) (hcode : (q.func? id).map Func.body = some whole) {l : String}
    {rest : List Stmt} (hl : Stmt.after? l whole = some rest) (post : List Stmt)
    {dead : List Waiting} (hdead : dead.all Waiting.isFrame = true) :
    Steps (jump q id) ok
      ⟨.complete .normal, .block (.goto l :: post) env :: (dead ++ .call id :: stack), depth, σ⟩
      ⟨.complete .normal, .block rest env :: .call id :: stack, depth, σ⟩ := by
  refine .head hok.complete rfl (.single hok.exec ?_)
  have hdead : (.block post env :: dead).all Waiting.isFrame = true := by
    simpa [Waiting.isFrame] using hdead
  exact jump_goto hcode hl hdead

theorem Leads.steps (hok : Guard ok) (hcode : (q.func? id).map Func.body = some whole)
    {post pos : List Stmt} (h : Leads whole post pos) :
    Steps (jump q id) ok ⟨.complete .normal, .block post env :: .call id :: stack, depth, σ⟩
      ⟨.complete .normal, .block pos env :: .call id :: stack, depth, σ⟩ := by
  induction h with
  | refl => exact .refl _
  | label l _ ih =>
      refine .head hok.complete rfl (.head hok.exec ?_ ih)
      simp [Machine.jump, jumpExec, activeFn?, Machine.complete]
  | goto post hl _ ih =>
      have hnone : ([] : List Waiting).all Waiting.isFrame = true := rfl
      exact (steps_goto hok hcode hl post hnone).trans ih

theorem steps_condGoto (hok : Guard ok) (c : Expr) (succ fail : String) (post : List Stmt) :
    Steps (jump q id) ok
      ⟨.complete .normal, .block (.condGoto c succ fail :: post) env :: .call id :: stack, depth, σ⟩
      ⟨.eval c env, .operands (.branch [.goto succ] [.goto fail]) [] [] env :: .block post env ::
        .call id :: stack, depth, σ⟩ := by
  refine .head hok.complete rfl (.single hok.exec ?_)
  simp [Machine.jump, jumpExec, activeFn?, operands, evaluate]

theorem steps_branch (hok : Guard ok) (hcode : (q.func? id).map Func.body = some whole) {v : Value}
    {succ fail : String} {rest : List Stmt}
    (h : Stmt.after? (if v.truthy then succ else fail) whole = some rest) (post : List Stmt) :
    Steps (jump q id) ok
      ⟨.value v, .operands (.branch [.goto succ] [.goto fail]) [] [] env :: .block post env ::
        .call id :: stack, depth, σ⟩
      ⟨.complete .normal, .block rest env :: .call id :: stack, depth, σ⟩ := by
  refine .head (hok.flow rfl) ?_ (steps_goto hok hcode h [] (isFrame_block post env))
  cases hv : v.truthy <;> simp [Machine.jump, free, step, stepValue, perform, enterBlock, hv]

theorem steps_dispatch (hok : Guard ok) (x : Expr) (arms : List Arm) (post : List Stmt) :
    Steps (jump q id) ok
      ⟨.complete .normal, .block (.dispatch x arms :: post) env :: .call id :: stack, depth, σ⟩
      ⟨.eval x env, .operands (.switchOn "" (arms.flatMap Arm.stmts)) [] [] env ::
        .block post env :: .call id :: stack, depth, σ⟩ := by
  refine .head hok.complete rfl (.single hok.exec ?_)
  simp [Machine.jump, jumpExec, activeFn?, operands, evaluate]

theorem steps_expr (hok : Guard ok) (x : Expr) (post : List Stmt) :
    Steps (jump q id) ok
      ⟨.complete .normal, .block (.expr x :: post) env :: .call id :: stack, depth, σ⟩
      ⟨.eval x env, .operands .discard [] [] env :: .block post env :: .call id :: stack,
        depth, σ⟩ :=
  .head hok.complete rfl (.single hok.exec jump_eq_free_of_simple)

/-! ## Positions -/

/-- Control is at a position that stands for what waits. -/
theorem Mirrors.live {scope : Scope} {frames : List Waiting} {post pos : List Stmt}
    (hframes : Frames whole env scope frames pos) (hpost : Leads whole post pos)
    (hstacks : Stacks whole id true stack stack')
    (hsteps : Steps (jump q id) ok s'
      ⟨.complete .normal, .block post env :: .call id :: stack', depth, σ⟩) :
    Mirrors q id whole ok (.next ⟨.complete .normal, frames ++ .call id :: stack, depth, σ⟩) s' :=
  .next hsteps (.same true (.frames (.live true hframes) hpost hstacks) rfl)

variable {scope : Scope} {l : Loop} {cont done : String} {start next tail : List Stmt}
  {frames : List Waiting}

/-- A loop at its test. -/
theorem Mirrors.enterLoop (hok : Guard ok) (hcode : (q.func? id).map Func.body = some whole)
    (hloop : LoopCode whole scope l cont done start next)
    (hdone : Stmt.after? done whole = some tail) (hframes : Frames whole env scope frames tail)
    (hstacks : Stacks whole id true stack stack') {pos : List Stmt}
    (htests : Tests whole l done start pos)
    (hsteps : Steps (jump q id) ok s'
      ⟨.complete .normal, .block pos env :: .call id :: stack', depth, σ⟩) :
    Mirrors q id whole ok (Machine.enterLoop l env (frames ++ .call id :: stack) depth σ) s' := by
  unfold Machine.enterLoop
  cases htests with
  | always hmissing hpos =>
      rw [if_pos hmissing]
      exact .live (.block hloop.body (.loop hloop hdone hframes)) hpos hstacks hsteps
  | @cond rest m hmissing hm hpos =>
      rw [if_neg (by simp [hmissing])]
      exact .next (hsteps.trans ((hpos.steps hok hcode).trans (steps_condGoto hok _ _ _ _)))
        (.same true (.decides _ (.loopTest rest hloop hm hdone hframes) hstacks) trivial)

/-- A loop at the end of a round. -/
theorem Mirrors.nextRound (hok : Guard ok) (hcode : (q.func? id).map Func.body = some whole)
    (hloop : LoopCode whole scope l cont done start next)
    (hdone : Stmt.after? done whole = some tail) (hframes : Frames whole env scope frames tail)
    (hstacks : Stacks whole id true stack stack') {post : List Stmt}
    (hpost : Leads whole post next)
    (hsteps : Steps (jump q id) ok s'
      ⟨.complete .normal, .block post env :: .call id :: stack', depth, σ⟩) :
    Mirrors q id whole ok (Machine.nextRound l env (frames ++ .call id :: stack) depth σ) s' := by
  unfold Machine.nextRound
  have hsteps := hsteps.trans (hpost.steps hok hcode)
  cases hloop.rounds with
  | test hmissing htests =>
      rw [if_pos hmissing]
      exact .enterLoop hok hcode hloop hdone hframes hstacks htests hsteps
  | post hmissing hpos htests =>
      rw [if_neg (by simp [hmissing])]
      exact .next (hsteps.trans ((hpos.steps hok hcode).trans (steps_expr hok _ _)))
        (.same true (.decides _ (.loopAgain hloop htests hdone hframes) hstacks) trivial)

/-! ## Switches -/

variable {own : String} {subject : Value} {fallback : Option (List Stmt)}

/-- A part of the body of a switch is entered. -/
theorem Mirrors.enterSwitch (hok : Guard ok) (hcode : (q.func? id).map Func.body = some whole)
    (hdone : Stmt.after? done whole = some tail) (hframes : Frames whole env scope frames tail)
    (hstacks : Stacks whole id true stack stack') {m : String} {rest pos : List Stmt}
    {arms : List Arm} (hm : Stmt.after? m whole = some pos)
    (hpart : StretchAt whole (⟨own, done, none⟩ :: scope) rest arms true pos tail)
    (more post : List Stmt) (hs' : ok s')
    (hstep : jump q id s' = Machine.enterSwitch "" (.goto m :: more) env
      (.block post env :: .call id :: stack') depth σ) :
    Mirrors q id whole ok
      (Machine.enterSwitch own rest env (frames ++ .call id :: stack) depth σ) s' := by
  have hdead : [Waiting.switch "", .block post env].all Waiting.isFrame = true := rfl
  exact .live (.block hpart.unmark (.switch hdone hframes)) (.refl pos) hstacks
    (.head hs' hstep (steps_goto hok hcode hm (more.filter fun s => !s.isCaseMark) hdead))

theorem scanCases_cons {s : Stmt} (hs : s.isCaseMark = false) {rest : List Stmt} :
    scanCases own subject env stack depth σ (s :: rest) fallback =
      scanCases own subject env stack depth σ rest fallback := by
  cases s <;> first | rfl | cases hs

/-- The cases of a switch are looked through. -/
theorem Mirrors.scan (hok : Guard ok) (hcode : (q.func? id).map Func.body = some whole)
    (hnodup : (Graph.labelsOf whole).Nodup) (hdone : Stmt.after? done whole = some tail)
    (hframes : Frames whole env scope frames tail) (hstacks : Stacks whole id true stack stack')
    (post : List Stmt) (hs' : ok s') {inner : Scope} (hinner : inner = ⟨own, done, none⟩ :: scope)
    {rest code more : List Stmt} {arms : List Arm} {falls falls₁ : Bool}
    {fallback fallback' : Option (List Stmt)}
    (hlist : ListCode True inner falls rest arms code falls₁) (hsuffix : code ++ more <:+ whole)
    (hmore : falls₁ = true → Leads whole more tail)
    (hfallback : Option.Rel (EntersAt whole inner tail) fallback fallback')
    (hstep : jump q id s' = scanCases "" subject env
      (.block (.goto done :: post) env :: .call id :: stack') depth σ
        (arms.flatMap Arm.stmts) fallback') :
    Mirrors q id whole ok
      (scanCases own subject env (frames ++ .call id :: stack) depth σ rest fallback) s' := by
  induction hlist using ListCode.alongList generalizing fallback fallback' with
  | nil =>
      cases hfallback with
      | none => exact .live hframes (.single hdone post) hstacks (.single hs' hstep)
      | some hfallback =>
          obtain ⟨m, jumps, arms, pos, rfl, hm, hpart⟩ := hfallback
          rw [hinner] at hpart
          exact .enterSwitch hok hcode hdone hframes hstacks hm hpart jumps
            (.goto done :: post) hs' hstep
  | cons hfirst _ ih =>
      rw [List.append_assoc] at hsuffix
      rw [scanCases_cons hfirst.isCaseMark_eq]
      exact ih hinner (suffix_of_append hsuffix) hmore hfallback hstep
  | case m hx hrest _ =>
      rw [List.append_assoc] at hsuffix
      have hm := after?_of_enter hnodup hsuffix
      have hpart : StretchAt whole _ _ _ true _ tail :=
        ⟨⟨_, _, _, hrest, rfl, hmore⟩, suffix_of_append hsuffix⟩
      rw [hinner] at hpart hfallback
      simp only [List.flatMap_cons, Arm.stmts, hx trivial, Bool.false_eq_true, if_false] at hstep
      exact .next (.single hs' hstep) (.same true
        (.decides _ (.caseTest post hm hpart hfallback hdone hframes) hstacks) trivial)
  | default m hrest ih =>
      rw [List.append_assoc] at hsuffix
      have hm := after?_of_enter hnodup hsuffix
      have hpart : StretchAt whole _ _ _ true _ tail :=
        ⟨⟨_, _, _, hrest, rfl, hmore⟩, suffix_of_append hsuffix⟩
      rw [scanCases]
      refine ih hinner hpart.suffix hmore (.some ?_) hstep
      exact ⟨m, _, _, _, rfl, hm, hpart⟩
  | label m _ ih =>
      rw [List.append_assoc] at hsuffix
      exact ih hinner (suffix_of_append hsuffix) hmore hfallback hstep

/-! ## What both programs do alike -/

theorem Around.wantsValue_eq {falls : Bool} {pos : List Stmt}
    (h : Around whole env scope falls frames pos) :
    wantsValue (frames ++ .call id :: stack) = false := by
  cases h with
  | live _ h => cases h <;> rfl
  | dead => rfl

/-- Where a value is wanted the statement at hand is not over yet. -/
theorem Stacks.of_wantsValue {falls : Bool} (h : Stacks whole id falls stack stack')
    (hv : wantsValue stack = true) (falls' : Bool) : Stacks whole id falls' stack stack' := by
  cases h with
  | nil => exact .nil falls'
  | same _ hbelow hsuits h => exact .same falls' hbelow hsuits h
  | frames haround _ _ => rw [haround.wantsValue_eq] at hv; cases hv
  | decides _ hdecides h => exact .decides falls' hdecides h

theorem Stacks.of_inactive {falls : Bool} (h : Stacks whole id falls stack stack')
    (hactive : activeFn? stack' ≠ some id) (falls' : Bool) : Stacks whole id falls' stack stack' := by
  cases h with
  | nil => exact .nil falls'
  | same _ hbelow hsuits h => exact .same falls' hbelow hsuits h
  | frames => exact absurd rfl hactive
  | decides _ hdecides h => exact .decides falls' hdecides h

theorem activeFn?_callFree {tops : List Waiting} (h : (tops.all fun w => !w.isCall) = true) :
    activeFn? (tops ++ stack) = activeFn? stack := by
  induction tops with
  | nil => rfl
  | cons w tops ih =>
      simp only [List.all_cons, Bool.and_eq_true] at h
      cases w <;> first | exact ih h.2 | cases h.1

/-- Work of any kind outside the activations of the function. -/
theorem Stacks.append_inactive {falls : Bool} (h : Stacks whole id falls stack stack')
    (hactive : activeFn? stack' ≠ some id) {tops : List Waiting}
    (htops : (tops.all fun w => !w.isCall) = true) :
    Stacks whole id true (tops ++ stack) (tops ++ stack') := by
  induction tops with
  | nil => exact h.of_inactive hactive true
  | cons w tops ih =>
      simp only [List.all_cons, Bool.and_eq_true] at htops
      refine .same true (fun _ => rfl) ?_ (ih htops.2)
      have hbelow : activeFn? (tops ++ stack') ≠ some id := by
        rwa [activeFn?_callFree htops.2]
      cases w <;> first | exact .inr hbelow | cases htops.1

/-- Operands that decide nothing about control. -/
theorem Stacks.append_mild {falls completes : Bool} (h : Stacks whole id falls stack stack')
    (hfalls : completes = true → falls = true) {tops : List Waiting}
    (htops : ∀ w ∈ tops, w.isMild = true ∧ (w.completes = true → completes = true)) :
    ∃ falls', Stacks whole id falls' (tops ++ stack) (tops ++ stack') := by
  induction tops with
  | nil => exact ⟨falls, h⟩
  | cons w tops ih =>
      obtain ⟨hw, htops⟩ := List.forall_mem_cons.1 htops
      have hsuits : w.Suits id (tops ++ stack') := by
        cases w <;> first | exact .inl hw.1 | cases hw.1
      cases tops with
      | nil => exact ⟨true, .same true (fun hc => hfalls (hw.2 hc)) hsuits h⟩
      | cons u tops =>
          obtain ⟨falls', hrest⟩ := ih htops
          have hu := (htops u (.head _)).1
          have hwants : wantsValue (u :: tops ++ stack) = true := by
            cases u <;> first | rfl | cases hu
          exact ⟨true, .same true (fun _ => rfl) hsuits (hrest.of_wantsValue hwants true)⟩

/-- A step on an expression or a simple statement is the same in both. -/
theorem Mirrors.mild {falls completes : Bool} {step : Step} (hmild : Mild completes step)
    (hstacks : Stacks whole id falls stack stack') (hfalls : completes = true → falls = true)
    (hs' : ok s') (hstep : jump q id s' = step.onto stack') :
    Mirrors q id whole ok (step.onto stack) s' := by
  cases hmild with
  | halt r σ => exact .halt (.of_halt hs' hstep)
  | value v d σ => exact .next (.single hs' hstep) (.same falls hstacks trivial)
  | thrown v d σ => exact .next (.single hs' hstep) (.same falls hstacks trivial)
  | eval e env d σ htops =>
      obtain ⟨falls', hstacks⟩ := hstacks.append_mild hfalls htops
      exact .next (.single hs' hstep) (.same falls' hstacks trivial)
  | normal d σ hc => exact .next (.single hs' hstep) (.same falls hstacks (hfalls hc))
  | returned v d σ => exact .next (.single hs' hstep) (.same falls hstacks trivial)

/-- A step outside the activations of the function is the same in both. -/
theorem Mirrors.inactive {falls : Bool} {step : Step} (hfree : CallFree step)
    (hstacks : Stacks whole id falls stack stack') (hactive : activeFn? stack' ≠ some id)
    (hs' : ok s') (hstep : jump q id s' = step.onto stack') :
    Mirrors q id whole ok (step.onto stack) s' := by
  cases step with
  | halt r σ => exact .halt (.of_halt hs' hstep)
  | next t =>
      refine .next (.single hs' hstep) (.same true (hstacks.append_inactive hactive hfree) ?_)
      have hnew : activeFn? (t.stack ++ stack') ≠ some id := by
        rwa [activeFn?_callFree hfree]
      cases t.focus with
      | complete c => cases c <;> first | exact rfl | exact hnew | exact trivial
      | exec => exact hnew
      | _ => exact trivial

/-- A call, of the function itself or of any other one. -/
theorem Mirrors.call (hL : Lowered p q id whole) (hstacks : Stacks whole id true stack stack')
    {v : Value} {vs : List Value} {fn : FuncId}
    (hfn : callee? ⟨.value v, .operands .call vs [] env :: stack, depth, σ⟩ = some fn)
    (hs' : ok ⟨.value v, .operands .call vs [] env :: stack', depth, σ⟩) :
    Mirrors q id whole ok (free p ⟨.value v, .operands .call vs [] env :: stack, depth, σ⟩)
      ⟨.value v, .operands .call vs [] env :: stack', depth, σ⟩ := by
  simp only [callee?] at hfn
  split at hfn
  · next tag fn' base hhead =>
      cases hfn
      have hsource : free p ⟨.value v, .operands .call vs [] env :: stack, depth, σ⟩ =
          callValue ⟨p, depth + 1⟩ (.closure tag fn base) (vs ++ [v]).tail stack depth σ := by
        rw [← hhead]; rfl
      have htarget : jump q id ⟨.value v, .operands .call vs [] env :: stack', depth, σ⟩ =
          callValue ⟨q, depth + 1⟩ (.closure tag fn base) (vs ++ [v]).tail stack' depth σ := by
        rw [← hhead]; rfl
      rw [hsource]
      by_cases hid : fn = id
      · subst hid
        obtain ⟨f, g, pos, hf, hg, hparams, hlocals, hbody, hleads, hstretch⟩ := hL.code
        rw [callValue_closure hf]
        rw [callValue_closure hg, hbody] at htarget
        have hactivation (args : List Value) : activation g args = activation f args := by
          simp only [activation, hparams, hlocals]
        rw [hactivation] at htarget
        exact .next (.single hs' htarget)
          (.same true (.frames (.live true (.block hstretch .base)) hleads hstacks) rfl)
      · rw [hL.twins.callValue_eq _ (by rintro t e ⟨⟩; exact hid rfl)] at htarget
        cases hf : p.func? fn with
        | none =>
            have hlimit : ¬ depth + 1 ≤ depth := by omega
            simp only [callValue, hlimit, if_false, hf] at htarget ⊢
            exact .halt (.of_halt hs' htarget)
        | some f =>
            rw [callValue_closure hf] at htarget ⊢
            refine .next (.single hs' htarget) (.same true (.same true (fun _ => rfl) (.inr ?_)
              (.same true (fun _ => rfl) hid hstacks)) rfl)
            simpa [activeFn?] using hid
  · cases hfn

end

end Resumable
