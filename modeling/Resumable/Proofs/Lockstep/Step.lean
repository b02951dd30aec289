import Resumable.Proofs.Lockstep.Call
import Resumable.Proofs.Regular

/-!
# Steps in lockstep

Corresponding states take corresponding steps. The steps left out are those
that the two sides are known to differ in: on a pair of expressions that are
not equal, and calls of special functions.
-/

namespace Resumable

open Machine

/-! ## Parts of covered expressions -/

section

variable {S : Sides} {R : Nat → Prop} {T : Prop}

theorem Expr.mem_nodesList {n : Expr} {es : List Expr} :
    n ∈ nodesList es ↔ ∃ e ∈ es, n ∈ e.nodes := by
  induction es with
  | nil => simp [nodesList]
  | cons e es ih => simp [nodesList, ih]

namespace Expr

section

attribute [local simp] Covered nodes NodeCovered

@[simp] theorem covered_missing : missing.Covered S R T := by
  simp

@[simp] theorem covered_literal {l : Literal} {t : Ty} : (literal l t).Covered S R T := by
  simp

@[simp] theorem covered_receiver {t : Ty} : (receiver t).Covered S R T := by
  simp

@[simp] theorem covered_ref {v : Variable} : (ref v).Covered S R T ↔ R v.id := by
  simp

@[simp] theorem covered_lambda {fn : FuncId} {t : Ty} :
    (lambda fn t).Covered S R T ↔
      (S.known fn → (∀ x, S.free fn x → R x) ∧ (S.loose fn ∨ T)) := by
  simp

@[simp] theorem covered_unary {op : UnaryOp} {x : Expr} {t : Ty} :
    (unary op x t).Covered S R T ↔ x.Covered S R T := by
  simp

@[simp] theorem covered_binary {op : BinaryOp} {x y : Expr} {t : Ty} :
    (binary op x y t).Covered S R T ↔ x.Covered S R T ∧ y.Covered S R T := by
  simp [or_imp, forall_and]

@[simp] theorem covered_conditional {c t e : Expr} {ty : Ty} :
    (conditional c t e ty).Covered S R T ↔
      c.Covered S R T ∧ t.Covered S R T ∧ e.Covered S R T := by
  simp [or_imp, forall_and]

@[simp] theorem covered_assign {target value : Expr} :
    (assign target value).Covered S R T ↔ target.Covered S R T ∧ value.Covered S R T := by
  simp [or_imp, forall_and]

@[simp] theorem covered_call {callee : Expr} {args : List Expr} {t : Ty} :
    (call callee args t).Covered S R T ↔
      callee.Covered S R T ∧ ∀ e ∈ args, e.Covered S R T := by
  simp only [Covered, nodes, NodeCovered, List.mem_cons, List.mem_append, mem_nodesList, or_imp,
    forall_and, forall_eq, true_and, forall_exists_index, and_imp]
  exact and_congr_right fun _ => ⟨fun h e he n hn => h n e he hn, fun h n e he hn => h e he n hn⟩

@[simp] theorem covered_property {x : Expr} {name : String} {t : Ty} :
    (property x name t).Covered S R T ↔ x.Covered S R T := by
  simp

@[simp] theorem covered_construct {cls : Option ClassId} {args : List Expr} :
    (construct cls args).Covered S R T ↔ ∀ e ∈ args, e.Covered S R T := by
  simp only [Covered, nodes, NodeCovered, List.mem_cons, mem_nodesList, or_imp, forall_and,
    forall_eq, true_and, forall_exists_index, and_imp]
  exact ⟨fun h e he n hn => h n e he hn, fun h n e he hn => h e he n hn⟩

end

theorem Covered.pair {e : Expr} (h : e.Covered S R T) : ExprPair S R T e e :=
  ⟨h, .inl rfl⟩

/-- What two bounds allow is in both. -/
theorem Covered.and {R' : Nat → Prop} {T' : Prop} {e : Expr} (h : e.Covered S R T)
    (h' : e.Covered S R' T') : e.Covered S (fun x => R x ∧ R' x) T' := by
  intro n hn
  have hnode := h n hn
  have hnode' := h' n hn
  cases n with
  | ref v => exact ⟨hnode, hnode'⟩
  | lambda fn t =>
      exact fun hfn => ⟨fun x hx => ⟨(hnode hfn).1 x hx, (hnode' hfn).1 x hx⟩, (hnode' hfn).2⟩
  | _ => trivial

theorem Covered.list {es : List Expr} (h : ∀ e ∈ es, e.Covered S R T) :
    List.Forall₂ (ExprPair S R T) es es :=
  List.forall₂_same.2 fun e he => (h e he).pair

end Expr

theorem ExprPair.isMissing_eq (hS : S.Sound) {e e' : Expr} (h : ExprPair S R T e e') :
    e.isMissing = e'.isMissing := by
  rcases h.2 with rfl | hslot
  · rfl
  · rw [(hS.slot hslot).1, (hS.slot hslot).2]

/-! ## Statements of one kind -/

theorem StmtPair.isCaseMark_eq {s s' : Stmt} (h : StmtPair S R T s s') :
    s.isCaseMark = s'.isCaseMark := by
  cases h <;> rfl

theorem StmtsPair.dropMarks {body body' : List Stmt} (h : StmtsPair S R T body body') :
    StmtsPair S R T (body.filter fun s => !s.isCaseMark) (body'.filter fun s => !s.isCaseMark) := by
  induction body generalizing body' with
  | nil => cases h; exact .nil
  | cons s rest ih =>
      cases h with
      | cons hs hrest =>
          simp only [List.filter_cons, ← hs.isCaseMark_eq]
          split
          · exact .cons hs (ih hrest)
          · exact ih hrest

end

namespace StepPair

variable {S : Sides} {P : Pairing} {σ σ' : Store} {stack stack' : List Waiting}
  {depth depth' d d' : Nat} {R : Nat → Prop} {T : Prop} {env env' : Env}

/-! ## Tasks -/

theorem storeIn (hσ : StorePair S P σ σ') (hs : StackPair S P stack stack')
    (hview : View S P R T env env') {target : Expr} (htarget : target.Covered S R T)
    {v v' r r' : Value} (hv : ValuePair S P v v') (hr : ValuePair S P r r') :
    StepPair S P (Machine.storeIn target v r env stack depth σ)
      (Machine.storeIn target v' r' env' stack' depth' σ') := by
  cases target
  case ref x =>
      have hx : R x.id := Expr.covered_ref.1 htarget
      have ha := hview.agrees _ hx
      simp only [Machine.storeIn, hσ.declared ha]
      split
      · exact give (hσ.assign ha hv) hs hr
      · exact fail hσ (Failure.report_ne_thrown _)
  case property x name t =>
      exact evaluate hσ (.cons (.operands hview (.storeField name hv hr) .nil .nil) hs) hview
        (Expr.covered_property.1 htarget).pair
  case binary op x y t =>
      obtain ⟨hx, hy⟩ := Expr.covered_binary.1 htarget
      cases op
      case index =>
          exact evaluate hσ (.cons (.operands hview (.storeIndex hv hr) .nil (.cons hy.pair .nil)) hs)
            hview hx.pair
      all_goals exact fail hσ (Failure.report_ne_thrown _)
  all_goals exact fail hσ (Failure.report_ne_thrown _)

/-- Values that are no loose functions select paired fields. -/
theorem keyPair (hS : S.Sound) (hσ : StorePair S P σ σ') {v v' : Value} (hv : ValuePair S P v v')
    (hname : ∀ tag fn env, v = .closure tag fn env → ¬ S.loose fn) :
    KeyPair P (σ.key S.source v) (σ'.key S.target v') := by
  refine hσ.key hS.types (fun fn hfn => ?_) hv hname
  obtain ⟨f, f', hf, hf', -⟩ := hS.funcs hfn
  simp [hf, hf']

theorem binary (hS : S.Sound) (hσ : StorePair S P σ σ') (op : BinaryOp) {vs vs' : List Value}
    (hvs : List.Forall₂ (ValuePair S P) vs vs')
    (hname : ∀ tag fn env, (Task.binary op).fieldName? vs = some (.closure tag fn env) →
      ¬ S.loose fn) :
    ResultPair S P (Machine.binary ⟨S.source, d⟩ op (vs.headD .null) (vs.getD 1 .null) σ)
      (Machine.binary ⟨S.target, d'⟩ op (vs'.headD .null) (vs'.getD 1 .null) σ') := by
  have hx := ValuePair.headD hvs
  have hy := ValuePair.getD hvs 1
  simp only [Task.fieldName?] at hname
  cases op
  case eq => exact .ok (by rw [hx.equal_eq hσ hy]; exact .bool _)
  case ne => exact .ok (by rw [hx.equal_eq hσ hy]; exact .bool _)
  case index =>
      have hformat := hx.format_eq hS.toShows
      generalize vs.headD .null = x at hx hformat hname ⊢
      generalize vs'.headD .null = x' at hx hformat ⊢
      cases hx with
      | object cls hr =>
          exact .ok ((hσ.fields hr).get hσ (keyPair hS hσ hy
            fun tag fn env heq => hname tag fn env (by rw [heq])))
      | _ =>
          simp only [Machine.binary, hformat]
          exact .failure (Failure.report_ne_thrown _)
  case member =>
      have hformat := hy.format_eq hS.toShows
      generalize vs.getD 1 .null = y at hy hformat hname ⊢
      generalize vs'.getD 1 .null = y' at hy hformat ⊢
      cases hy with
      | object cls hr =>
          simp only [Machine.binary]
          rw [(hσ.fields hr).has_eq hσ (keyPair hS hσ hx
            fun tag fn env heq => hname tag fn env (by rw [heq]))]
          exact .ok (.bool _)
      | _ =>
          simp only [Machine.binary, hformat]
          exact .failure (Failure.report_ne_thrown _)
  case lt | le | gt | ge =>
      simp only [Machine.binary]
      exact ResultPair.compare hS.toShows _ hx hy
  all_goals
    simp only [Machine.binary]
    exact ResultPair.arithmetic hS.toShows _ hx hy

theorem enterLoop (hS : S.Sound) (hσ : StorePair S P σ σ') (hs : StackPair S P stack stack')
    (hview : View S P R T env env') {l l' : Loop} (hl : LoopPair S R T l l') :
    StepPair S P (Machine.enterLoop l env stack depth σ)
      (Machine.enterLoop l' env' stack' depth' σ') := by
  simp only [Machine.enterLoop, hl.cond.isMissing_eq hS]
  split
  · exact enterBlock hσ (.cons (.loop hview hl) hs) hview hl.body
  · exact evaluate hσ (.cons (.operands hview (.loopTest hl) .nil .nil) hs) hview hl.cond

theorem enterSwitch (hσ : StorePair S P σ σ') (hs : StackPair S P stack stack')
    (hview : View S P R T env env') (label : String) {rest rest' : List Stmt}
    (hrest : StmtsPair S R T rest rest') :
    StepPair S P (Machine.enterSwitch label rest env stack depth σ)
      (Machine.enterSwitch label rest' env' stack' depth' σ') :=
  enterBlock hσ (.cons (.switch label) hs) hview hrest.dropMarks

theorem scanCases (hσ : StorePair S P σ σ') (hs : StackPair S P stack stack')
    (hview : View S P R T env env') (label : String) {v v' : Value} (hv : ValuePair S P v v')
    {body body' : List Stmt} (hbody : StmtsPair S R T body body')
    {fallback fallback' : Option (List Stmt)}
    (hfallback : Option.Rel (StmtsPair S R T) fallback fallback') :
    StepPair S P (Machine.scanCases label v env stack depth σ body fallback)
      (Machine.scanCases label v' env' stack' depth' σ' body' fallback') := by
  induction body generalizing body' fallback fallback' with
  | nil =>
      cases hbody
      cases hfallback with
      | none => exact complete hσ hs .normal
      | some hrest => exact enterSwitch hσ hs hview label hrest
  | cons s rest ih =>
      cases hbody with
      | cons hst hrest =>
          cases hst with
          | caseMark hx =>
              exact evaluate hσ
                (.cons (.operands hview (.caseTest label hv hrest hfallback) .nil .nil) hs) hview hx
          | defaultMark =>
              simp only [Machine.scanCases]
              exact ih hrest (.some hrest)
          | _ =>
              simp only [Machine.scanCases]
              exact ih hrest hfallback

theorem newFields (hS : S.Shows) (hσ : StorePair S P σ σ') (cls : Option ClassId) :
    FieldsPair S P (Machine.newFields ⟨S.source, d⟩ cls) (Machine.newFields ⟨S.target, d'⟩ cls) := by
  have hset (names : List Field) : ∀ fs fs' : Fields, FieldsPair S P fs fs' →
      FieldsPair S P (names.foldl (fun fs f => Fields.set fs (.text f.name) .null) fs)
        (names.foldl (fun fs f => Fields.set fs (.text f.name) .null) fs') := by
    induction names with
    | nil => exact fun _ _ h => h
    | cons f rest ih => exact fun _ _ h => ih _ _ (h.set hσ (.text f.name) .null)
  simp only [Machine.newFields, hS.types]
  split
  · exact hset _ _ _ .nil
  · exact .nil

/-- A new object is paired with a new object of the same class. -/
theorem construct (hS : S.Shows) (hσ : StorePair S P σ σ') (hs : StackPair S P stack stack')
    (cls : Option ClassId) (vs vs' : List Value) :
    StepPair S P (Machine.perform ⟨S.source, d⟩ (.construct cls) vs env stack depth σ)
      (Machine.perform ⟨S.target, d'⟩ (.construct cls) vs' env' stack' depth' σ') := by
  have hbeyond := hσ.beyond
    (Beyond.newObject (Machine.newFields ⟨S.target, d'⟩ cls) fun hr => hσ.objects.right hr)
    (hσ.aside.newObject _)
  have hle : P ≤ P.addObject σ.objects.size σ'.objects.size := Pairing.le_addObject _ _
  refine of_le hle (give (hbeyond.pairObject ?_ hσ.away_object (fun hr => hσ.objects.right hr) ?_)
    (hs.mono hle)
    (.object cls (.inr ⟨rfl, rfl⟩)))
  · simp [Store.newObject]
  · rw [Store.fields_newObject, if_pos rfl]
    exact newFields hS hσ cls

/-- A test that comes out alike. -/
theorem ite {c c' : Prop} [Decidable c] [Decidable c'] (h : c ↔ c') {a a' b b' : Step}
    (hyes : StepPair S P a a') (hno : StepPair S P b b') :
    StepPair S P (if c then a else b) (if c' then a' else b') := by
  by_cases hc : c
  · rw [if_pos hc, if_pos (h.1 hc)]
    exact hyes
  · rw [if_neg hc, if_neg fun hc' => hc (h.2 hc')]
    exact hno

/-- Work on the fields of an object. With any other value it fails, and says what
the value is. -/
theorem onObject (hS : S.Shows) (hσ : StorePair S P σ σ') {work work' : Nat → Step}
    (message : String → String) : ∀ {x x' : Value}, ValuePair S P x x' →
    (∀ r r' cls, x = .object r cls → P.object r r' → StepPair S P (work r) (work' r')) →
    StepPair S P
      (match x with
        | .object ref _ => work ref
        | v => Machine.fail σ (.eval .typeError (message (v.format S.source))))
      (match x' with
        | .object ref _ => work' ref
        | v => Machine.fail σ' (.eval .typeError (message (v.format S.target)))) := by
  intro x x' hx hwork
  have hformat := hx.format_eq hS
  cases hx with
  | object cls hobject => exact hwork _ _ cls rfl hobject
  | _ =>
      simp only [hformat]
      exact fail hσ (Failure.report_ne_thrown _)

theorem incDec (hS : S.Sound) (hσ : StorePair S P σ σ') (hs : StackPair S P stack stack')
    (hview : View S P R T env env') (op : UnaryOp) {target : Expr} (htarget : target.Covered S R T)
    {vs vs' : List Value} (hx : ValuePair S P (vs.headD .null) (vs'.headD .null)) :
    StepPair S P (Machine.perform ⟨S.source, d⟩ (.incDec op target) vs env stack depth σ)
      (Machine.perform ⟨S.target, d'⟩ (.incDec op target) vs' env' stack' depth' σ') := by
  have hsum := ResultPair.arithmetic hS.toShows .add hx
    (ValuePair.int (if op.isDecrement then -1 else 1))
  simp only [Machine.perform]
  generalize Operation.arithmetic S.source .add (vs.headD .null)
    (.int (if op.isDecrement then -1 else 1)) = r at hsum ⊢
  generalize Operation.arithmetic S.target .add (vs'.headD .null)
    (.int (if op.isDecrement then -1 else 1)) = r' at hsum ⊢
  cases hsum with
  | ok hv =>
      refine storeIn hσ hs hview htarget hv ?_
      split
      · exact hx
      · exact hv
  | thrown hv => exact .halt (Pairing.le_refl P) hσ (.thrown hv)
  | failure hf => exact fail hσ hf

/-- A task on paired values, under limits that allow calls. -/
theorem perform (hS : S.Sound) (hσ : StorePair S P σ σ') (hs : StackPair S P stack stack')
    (hview : View S P R T env env') {task task' : Task} (ht : TaskPair S P R T task task')
    {vs vs' : List Value} (hvs : List.Forall₂ (ValuePair S P) vs vs')
    (hname : ∀ tag fn env, task.fieldName? vs = some (.closure tag fn env) → ¬ S.loose fn)
    (hplain : task = .call → ∀ tag fn env, vs.headD .null = .closure tag fn env → ¬ S.special fn)
    (hd : depth < d) (hd' : depth' < d') :
    StepPair S P (Machine.perform ⟨S.source, d⟩ task vs env stack depth σ)
      (Machine.perform ⟨S.target, d'⟩ task' vs' env' stack' depth' σ') := by
  have hx := ValuePair.headD hvs
  have hy := ValuePair.getD hvs 1
  have htruthy : (vs.headD .null).truthy = true ↔ (vs'.headD .null).truthy = true := by
    rw [hx.truthy_eq]
  cases ht with
  | unary op => exact answer hσ hs (ResultPair.unary hS.toShows op hx)
  | binary op => exact answer hσ hs (binary hS hσ op hvs hname)
  | logical op he => exact ite (by rw [hx.truthy_eq]) (evaluate hσ hs hview he) (give hσ hs hx)
  | conditional ht he =>
      simp only [Machine.perform, hx.truthy_eq]
      split
      · exact evaluate hσ hs hview ht
      · exact evaluate hσ hs hview he
  | assign htarget => exact storeIn hσ hs hview htarget hx hx
  | incDec op htarget => exact incDec hS hσ hs hview op htarget hx
  | storeField name hv hr =>
      refine onObject hS.toShows hσ (fun text => "cannot set " ++ name ++ " of " ++ text) hx
        fun r r' cls _ hobject => ?_
      exact give (hσ.modifyFields hobject ((hσ.fields hobject).set hσ (.text name) hv)) hs hr
  | storeIndex hv hr =>
      refine onObject hS.toShows hσ ("cannot index " ++ ·) hx fun r r' cls hfirst hobject => ?_
      simp only [Task.fieldName?, hfirst] at hname
      have hkey := keyPair hS hσ hy fun tag fn env heq => hname tag fn env (congrArg some heq)
      exact give (hσ.modifyFields hobject ((hσ.fields hobject).set hσ hkey hv)) hs hr
  | call =>
      refine callValue hS hσ hs hx (hplain rfl) hd hd' ?_
      cases hvs with
      | nil => exact .nil
      | cons _ hrest => exact hrest
  | property name =>
      refine onObject hS.toShows hσ (fun text => "cannot read " ++ name ++ " of " ++ text) hx
        fun r r' cls _ hobject => ?_
      exact give hσ hs ((hσ.fields hobject).get hσ (.text name))
  | construct cls => exact construct hS.toShows hσ hs cls vs vs'
  | discard => exact complete hσ hs .normal
  | ret => exact complete hσ hs (.returned hx)
  | throw => exact .next (Pairing.le_refl P) hσ (.thrown hx) hs
  | assert message =>
      exact ite htruthy (complete hσ hs .normal) (fail hσ (Failure.report_ne_thrown _))
  | log =>
      simp only [Machine.perform, ValuePair.map_display hS.toShows hvs]
      exact complete (hσ.logLine _) hs .normal
  | deleteField name =>
      refine onObject hS.toShows hσ ("cannot delete from " ++ ·) hx fun r r' cls _ hobject => ?_
      exact complete (hσ.modifyFields hobject ((hσ.fields hobject).erase hσ (.text name))) hs .normal
  | deleteIndex =>
      refine onObject hS.toShows hσ ("cannot delete from " ++ ·) hy fun r r' cls hsecond hobject => ?_
      simp only [Task.fieldName?, hsecond] at hname
      have hkey := keyPair hS hσ hx fun tag fn env heq => hname tag fn env (congrArg some heq)
      exact complete (hσ.modifyFields hobject ((hσ.fields hobject).erase hσ hkey)) hs .normal
  | branch ht he =>
      simp only [Machine.perform, hx.truthy_eq]
      split
      · exact enterBlock hσ hs hview ht
      · exact enterBlock hσ hs hview he
  | loopTest hl =>
      exact ite htruthy (enterBlock hσ (.cons (.loop hview hl) hs) hview hl.body)
        (complete hσ hs .normal)
  | loopAgain hl => exact enterLoop hS hσ hs hview hl
  | switchOn label hbody => exact scanCases hσ hs hview label hx hbody .none
  | caseTest label hv hrest hfallback =>
      exact ite (by rw [hv.equal_eq hσ hx]) (enterSwitch hσ hs hview label hrest)
        (scanCases hσ hs hview label hv hrest hfallback)

/-! ## Expressions and statements -/

theorem operands (hS : S.Sound) (hσ : StorePair S P σ σ') (hs : StackPair S P stack stack')
    (hview : View S P R T env env') {task task' : Task} (ht : TaskPair S P R T task task')
    {es es' : List Expr} (hes : List.Forall₂ (ExprPair S R T) es es') (hd : depth < d)
    (hd' : depth' < d') :
    StepPair S P (Machine.operands ⟨S.source, d⟩ task es env stack depth σ)
      (Machine.operands ⟨S.target, d'⟩ task' es' env' stack' depth' σ') := by
  cases hes with
  | nil =>
      refine perform hS hσ hs hview ht .nil (fun tag fn env h => ?_)
        (fun _ tag fn env h => nomatch h) hd hd'
      rw [Task.fieldName?_nil] at h
      cases h
  | cons he hes => exact evaluate hσ (.cons (.operands hview ht .nil hes) hs) hview he

/-- A step on an expression that both sides share. -/
theorem stepEval (hS : S.Sound) (hσ : StorePair S P σ σ') (hs : StackPair S P stack stack')
    (hview : View S P R T env env') {e : Expr} (he : e.Covered S R T)
    (hliteral : ∀ fn, e.lambdaId? = some fn → S.known fn) (hd : depth < d) (hd' : depth' < d') :
    StepPair S P (Machine.stepEval ⟨S.source, d⟩ e env stack depth σ)
      (Machine.stepEval ⟨S.target, d'⟩ e env' stack' depth' σ') := by
  cases e
  case missing => exact fail hσ (Failure.report_ne_thrown _)
  case literal l t => exact give hσ hs (.ofLiteral l)
  case ref v =>
      have hv : R v.id := Expr.covered_ref.1 he
      simp only [Machine.stepEval]
      rcases hσ.lookup (hview.agrees _ hv) with
        ⟨x, x', hx, hx', hpair⟩ | ⟨f, hf, hf', hown⟩
      · rw [hx, hx']
        exact give hσ hs hpair
      · rw [hf, hf']
        exact fail hσ hown
  case receiver t => exact give hσ hs .null
  case lambda fn t =>
      have hfn := hliteral fn rfl
      obtain ⟨hfree, hloose⟩ := Expr.covered_lambda.1 he hfn
      obtain ⟨f, f', hf, hf', -⟩ := hS.funcs hfn
      have hle : P ≤ P.addTag σ.tags σ'.tags := Pairing.le_addTag _ _
      simp only [Machine.stepEval, hf, hf']
      refine of_le hle (give ((hσ.beyond (Beyond.newTag P σ') hσ.aside.newTag).pairTag
        (Nat.lt_succ_self _) fun ht => hσ.tags.right ht) (hs.mono hle) ?_)
      exact .closure (.inr ⟨rfl, rfl⟩) hfn (fun x hx => (hview.agrees x (hfree x hx)).mono hle)
        (hloose.imp_right fun ht => (hview.tight ht).mono hle)
  case unary op x t =>
      have hx := Expr.covered_unary.1 he
      simp only [Machine.stepEval]
      split
      · exact operands hS hσ hs hview (.incDec op hx) (.cons hx.pair .nil) hd hd'
      · exact operands hS hσ hs hview (.unary op) (.cons hx.pair .nil) hd hd'
  case binary op x y t =>
      obtain ⟨hx, hy⟩ := Expr.covered_binary.1 he
      simp only [Machine.stepEval]
      split
      · exact operands hS hσ hs hview (.logical op hy.pair) (.cons hx.pair .nil) hd hd'
      · exact operands hS hσ hs hview (.binary op) (.cons hx.pair (.cons hy.pair .nil)) hd hd'
  case conditional c t e ty =>
      obtain ⟨hc, ht, he⟩ := Expr.covered_conditional.1 he
      exact operands hS hσ hs hview (.conditional ht.pair he.pair) (.cons hc.pair .nil) hd hd'
  case assign target value =>
      obtain ⟨ht, hv⟩ := Expr.covered_assign.1 he
      exact operands hS hσ hs hview (.assign ht) (.cons hv.pair .nil) hd hd'
  case call callee args t =>
      obtain ⟨hc, hargs⟩ := Expr.covered_call.1 he
      exact operands hS hσ hs hview .call (.cons hc.pair (Expr.Covered.list hargs)) hd hd'
  case property x name t =>
      exact operands hS hσ hs hview (.property name) (.cons (Expr.covered_property.1 he).pair .nil)
        hd hd'
  case construct cls args =>
      exact operands hS hσ hs hview (.construct cls)
        (Expr.Covered.list (Expr.covered_construct.1 he)) hd hd'

theorem stepDelete (hS : S.Sound) (hσ : StorePair S P σ σ') (hs : StackPair S P stack stack')
    (hview : View S P R T env env') {x : Expr} (hx : x.Covered S R T) (hd : depth < d)
    (hd' : depth' < d') :
    StepPair S P (Machine.stepDelete ⟨S.source, d⟩ x env stack depth σ)
      (Machine.stepDelete ⟨S.target, d'⟩ x env' stack' depth' σ') := by
  cases x
  case property x name t =>
      exact operands hS hσ hs hview (.deleteField name)
        (.cons (Expr.covered_property.1 hx).pair .nil) hd hd'
  case binary op x y t =>
      obtain ⟨hx, hy⟩ := Expr.covered_binary.1 hx
      simp only [Machine.stepDelete]
      split
      · exact operands hS hσ hs hview .deleteIndex (.cons hy.pair (.cons hx.pair .nil)) hd hd'
      · exact fail hσ (Failure.report_ne_thrown _)
  all_goals exact fail hσ (Failure.report_ne_thrown _)

theorem stepSimple (hS : S.Sound) (hσ : StorePair S P σ σ') (hs : StackPair S P stack stack')
    (hview : View S P R T env env') {s s' : Simple} (hst : SimplePair S R T s s') (hd : depth < d)
    (hd' : depth' < d') :
    StepPair S P (Machine.stepSimple ⟨S.source, d⟩ s env stack depth σ)
      (Machine.stepSimple ⟨S.target, d'⟩ s' env' stack' depth' σ') := by
  cases hst with
  | expr hx => exact operands hS hσ hs hview .discard (.cons hx .nil) hd hd'
  | ret hx =>
      simp only [Machine.stepSimple, hx.isMissing_eq hS]
      split
      · exact complete hσ hs (.returned .null)
      · exact operands hS hσ hs hview .ret (.cons hx .nil) hd hd'
  | yield _ => exact fail hσ (Failure.report_ne_thrown _)
  | delete hx => exact stepDelete hS hσ hs hview hx hd hd'
  | throw hx => exact operands hS hσ hs hview .throw (.cons hx .nil) hd hd'
  | assert message hx => exact operands hS hσ hs hview (.assert message) (.cons hx .nil) hd hd'
  | log hargs => exact operands hS hσ hs hview .log hargs hd hd'
  | debugger => exact complete hσ hs .normal
  | super hargs => exact operands hS hσ hs hview .discard hargs hd hd'

theorem stepExec (hS : S.Sound) (hσ : StorePair S P σ σ') (hs : StackPair S P stack stack')
    (hview : View S P R T env env') {s s' : Stmt} (hst : StmtPair S R T s s') (hd : depth < d)
    (hd' : depth' < d') :
    StepPair S P (Machine.stepExec ⟨S.source, d⟩ s env stack depth σ)
      (Machine.stepExec ⟨S.target, d'⟩ s' env' stack' depth' σ') := by
  have hmissing : ExprPair S R T .missing .missing := Expr.covered_missing.pair
  cases hst with
  | simple _ _ hs' => exact stepSimple hS hσ hs hview hs' hd hd'
  | breakTo l => exact complete hσ hs (.broke l)
  | continueTo l => exact complete hσ hs (.continued l)
  | ifElse hc ht he => exact operands hS hσ hs hview (.branch ht he) (.cons hc .nil) hd hd'
  | @whileLoop _ _ c c' body body' l hc hbody =>
      have hloop : LoopPair S R T ⟨l, c, .missing, body⟩ ⟨l, c', .missing, body'⟩ :=
        ⟨rfl, hc, hmissing, hbody⟩
      exact enterLoop hS hσ hs hview hloop
  | @doWhile _ _ c c' body body' l hc hbody =>
      have hloop : LoopPair S R T ⟨l, c, .missing, body⟩ ⟨l, c', .missing, body'⟩ :=
        ⟨rfl, hc, hmissing, hbody⟩
      exact enterBlock hσ (.cons (.loop hview hloop) hs) hview hbody
  | @forLoop _ _ i i' c c' p p' body body' l hi hc hp hbody =>
      have hloop : LoopPair S R T ⟨l, c, p, body⟩ ⟨l, c', p', body'⟩ := ⟨rfl, hc, hp, hbody⟩
      simp only [Machine.stepExec, hi.isMissing_eq hS]
      split
      · exact enterLoop hS hσ hs hview hloop
      · exact operands hS hσ hs hview (.loopAgain hloop) (.cons hi .nil) hd hd'
  | switch l hx hbody => exact operands hS hσ hs hview (.switchOn l hbody) (.cons hx .nil) hd hd'
  | tryCatch hbody hcs => exact enterBlock hσ (.cons (.tryCatch hview hcs) hs) hview hbody
  | _ => exact fail hσ (Failure.report_ne_thrown _)

/-! ## Outcomes delivered to the stack -/

theorem nextRound (hS : S.Sound) (hσ : StorePair S P σ σ') (hs : StackPair S P stack stack')
    (hview : View S P R T env env') {l l' : Loop} (hl : LoopPair S R T l l') :
    StepPair S P (Machine.nextRound l env stack depth σ)
      (Machine.nextRound l' env' stack' depth' σ') := by
  simp only [Machine.nextRound, hl.post.isMissing_eq hS]
  split
  · exact enterLoop hS hσ hs hview hl
  · exact evaluate hσ (.cons (.operands hview (.loopAgain hl) .nil .nil) hs) hview hl.post

theorem stepComplete (hS : S.Sound) (hσ : StorePair S P σ σ') (hs : StackPair S P stack stack')
    {c c' : Completion} (hc : CompletionPair S P c c') :
    StepPair S P (Machine.stepComplete ⟨S.source, d⟩ c stack depth σ)
      (Machine.stepComplete ⟨S.target, d'⟩ c' stack' depth' σ') := by
  cases hs with
  | nil => exact .halt (Pairing.le_refl P) hσ (.ok .null)
  | cons hw hs =>
      cases hw with
      | operands => exact complete hσ hs hc
      | block hview hrest =>
          cases hc with
          | normal =>
              cases hrest with
              | nil => exact complete hσ hs .normal
              | cons hst hrest =>
                  exact .next (Pairing.le_refl P) hσ (.exec hview hst) (.cons (.block hview hrest) hs)
          | broke l => exact complete hσ hs (.broke l)
          | continued l => exact complete hσ hs (.continued l)
          | returned hv => exact complete hσ hs (.returned hv)
      | loop hview hl =>
          cases hc with
          | normal => exact nextRound hS hσ hs hview hl
          | broke l =>
              simp only [Machine.stepComplete, hl.label]
              split
              · exact complete hσ hs .normal
              · exact complete hσ hs (.broke l)
          | continued l =>
              simp only [Machine.stepComplete, hl.label]
              split
              · exact nextRound hS hσ hs hview hl
              · exact complete hσ hs (.continued l)
          | returned hv => exact complete hσ hs (.returned hv)
      | switch label =>
          cases hc with
          | broke l =>
              simp only [Machine.stepComplete]
              split
              · exact complete hσ hs .normal
              · exact complete hσ hs (.broke l)
          | normal => exact complete hσ hs .normal
          | continued l => exact complete hσ hs (.continued l)
          | returned hv => exact complete hσ hs (.returned hv)
      | tryCatch => exact complete hσ hs hc
      | call hname _ =>
          cases hc with
          | normal => exact give hσ hs .null
          | returned hv => exact give hσ hs hv
          | _ =>
              simp only [Machine.stepComplete, hname]
              exact fail hσ (Failure.report_ne_thrown _)

def caught (var : Option Variable) (v : Value) : Bindings :=
  match var with
  | some x => [(x.id, v)]
  | none => []

theorem stepThrown_handler (v : Value) (var : Option Variable) (body : List Stmt)
    (catches : List Catch) (env : Env) (stack : List Waiting) (depth : Nat) (σ : Store) :
    Machine.stepThrown v (.tryCatch (.mk var body :: catches) env :: stack) depth σ =
      Machine.enterBlock body (σ.frames.size :: env) stack depth (σ.newFrame (caught var v)).2 := by
  cases var <;> rfl

/-- A handler runs in a new frame, which has its variable. -/
theorem enterHandler (hσ : StorePair S P σ σ') (hs : StackPair S P stack stack')
    (hview : View S P R T env env') {v v' : Value} (hv : ValuePair S P v v')
    {var : Option Variable} {body body' : List Stmt}
    (hbody : StmtsPair S (fun x => R x ∨ ∃ u, var = some u ∧ u.id = x) True body body')
    (catches catches' : List Catch) :
    StepPair S P (Machine.stepThrown v (.tryCatch (.mk var body :: catches) env :: stack) depth σ)
      (Machine.stepThrown v' (.tryCatch (.mk var body' :: catches') env' :: stack') depth' σ') := by
  have hfresh : ¬ P.Knows σ'.frames.size := fun hk => Nat.lt_irrefl _ (hσ.knows_lt hk)
  let names (x : Nat) : Prop := ∃ u, var = some u ∧ u.id = x
  have hle := Pairing.le_addFrame σ.frames.size names (fun _ _ => False) hfresh
  have hpair := (hσ.beyond (Beyond.newFrame (caught var v') fun hk => hσ.knows_lt hk)
    (hσ.aside.newFrame _)).pairFrame (caught var v) names (fun _ _ => False)
    (by simp [Store.newFrame] : σ'.frames.size < (σ'.newFrame _).2.frames.size) hfresh
    hσ.away_frame (fun hab => hσ.frames.right hab)
    (by
      rintro x ⟨u, rfl, rfl⟩
      simp [caught])
    (fun x _ => by
      rw [Store.binding_newFrame, if_pos rfl]
      cases var with
      | none => exact .none
      | some u =>
          by_cases hx : x = u.id
          · simpa [caught, hx] using OptionPair.some hv
          · simpa [caught, List.lookup_cons, beq_false_of_ne hx] using OptionPair.none)
    (fun _ _ h => h.elim)
  have hhides {x : Nat} : ¬ (P.addFrame σ.frames.size σ'.frames.size names
      fun _ _ => False).Hides σ'.frames.size x := by
    rintro ⟨y, hy | ⟨-, hy⟩⟩
    · exact hfresh (hσ.placed hy)
    · exact hy
  have hinner : View S (P.addFrame σ.frames.size σ'.frames.size names fun _ _ => False)
      (fun x => R x ∨ ∃ u, var = some u ∧ u.id = x) True (σ.frames.size :: env)
      (σ'.frames.size :: env') := by
    refine ⟨?_, fun _ => .inr ⟨rfl, rfl⟩⟩
    rintro x (hx | hx)
    · exact .frame (.inr ⟨rfl, rfl⟩) hhides ((hview.agrees x hx).mono hle)
    · exact .found (.inr ⟨rfl, rfl⟩) hhides (.inr ⟨rfl, hx⟩)
  rw [stepThrown_handler, stepThrown_handler]
  exact of_le hle (enterBlock hpair (hs.mono hle) hinner hbody)

theorem stepThrown (hσ : StorePair S P σ σ') (hs : StackPair S P stack stack') {v v' : Value}
    (hv : ValuePair S P v v') :
    StepPair S P (Machine.stepThrown v stack depth σ) (Machine.stepThrown v' stack' depth' σ') := by
  cases hs with
  | nil => exact .halt (Pairing.le_refl P) hσ (.thrown hv)
  | cons hw hs =>
      cases hw with
      | @tryCatch R T env env' cs cs' hview hcs =>
          cases hcs with
          | nil => exact .next (Pairing.le_refl P) hσ (.thrown hv) hs
          | @cons _ _ var body body' cs cs' hbody _ =>
              exact enterHandler hσ hs hview hv hbody cs cs'
      | _ => exact .next (Pairing.le_refl P) hσ (.thrown hv) hs

theorem stepValue (hS : S.Sound) (hσ : StorePair S P σ σ') (hs : StackPair S P stack stack')
    {v v' : Value} (hv : ValuePair S P v v')
    (hname : ∀ tag fn env, fieldName? ⟨.value v, stack, depth, σ⟩ = some (.closure tag fn env) →
      ¬ S.loose fn)
    (hplain : ∀ fn, callee? ⟨.value v, stack, depth, σ⟩ = some fn → ¬ S.special fn)
    (hd : depth < d) (hd' : depth' < d') :
    StepPair S P (Machine.stepValue ⟨S.source, d⟩ v stack depth σ)
      (Machine.stepValue ⟨S.target, d'⟩ v' stack' depth' σ') := by
  cases hs with
  | nil => exact .halt (Pairing.le_refl P) hσ (.ok hv)
  | cons hw hs =>
      cases hw with
      | operands hview ht hdone hrest =>
          have hvs := List.rel_append hdone (.cons hv .nil)
          cases hrest with
          | nil =>
              refine perform hS hσ hs hview ht hvs hname (fun hcall tag fn env heq => ?_) hd hd'
              subst hcall
              exact hplain fn (by simp only [callee?, heq])
          | cons he hrest => exact evaluate hσ (.cons (.operands hview ht hvs hrest) hs) hview he
      | _ => exact give hσ hs hv

end StepPair

/-- A step on this state makes values of known functions only and takes no loose
function as the name of a field. -/
structure Sides.Allows (S : Sides) (s : State) : Prop where
  literal : ∀ fn, literal? s = some fn → S.known fn
  name : ∀ tag fn env, fieldName? s = some (.closure tag fn env) → ¬ S.loose fn

theorem Sides.Allows.of_regular {S : Sides} {known loose : FuncId → Bool}
    (hknown : ∀ fn, known fn = true → S.known fn) (hloose : ∀ fn, S.loose fn → loose fn = true)
    {s : State} (h : regular known loose s = true) : S.Allows s where
  literal fn hfn := hknown fn (known_of_regular h hfn)
  name tag fn env hname hfn := by
    have hnot := not_loose_of_regular h hname
    rw [hloose fn hfn] at hnot
    cases hnot

/-- Only the top of the stack matters. -/
theorem Sides.Allows.top {S : Sides} {focus : Focus} {w : Waiting} {below : List Waiting}
    {depth : Nat} {σ : Store} (h : S.Allows ⟨focus, w :: below, depth, σ⟩) :
    S.Allows ⟨focus, [w], depth, σ⟩ where
  literal := h.literal
  name tag fn env hname := by
    refine h.name tag fn env (Eq.trans ?_ hname)
    cases focus with
    | value v =>
        cases w with
        | operands task done rest env => cases rest <;> rfl
        | _ => rfl
    | _ => rfl

theorem Sides.Allows.starts {S : Sides} {focus : Focus} {stack : List Waiting} {depth : Nat}
    {σ : Store} (hf : Focus.starts focus = true) (h : S.Allows ⟨focus, stack, depth, σ⟩) :
    S.Allows ⟨focus, [], depth, σ⟩ where
  literal := h.literal
  name tag fn env hname := by
    cases focus <;> simp [fieldName?] at hname

/-- The two machines without a limit on calls take corresponding steps. -/
theorem lockstep {S : Sides} {P : Pairing} {σ σ' : Store} {stack stack' : List Waiting}
    {depth depth' : Nat} {focus focus' : Focus} (hS : S.Sound) (hσ : StorePair S P σ σ')
    (hf : FocusPair S P focus focus') (hs : StackPair S P stack stack')
    (hshared : ∀ e e' env env', focus = .eval e env → focus' = .eval e' env' → e = e')
    (hallows : S.Allows ⟨focus, stack, depth, σ⟩)
    (hplain : ∀ fn, callee? ⟨focus, stack, depth, σ⟩ = some fn → ¬ S.special fn) :
    StepPair S P (free S.source ⟨focus, stack, depth, σ⟩)
      (free S.target ⟨focus', stack', depth', σ'⟩) := by
  have hd : depth < depth + 1 := Nat.lt_succ_self _
  have hd' : depth' < depth' + 1 := Nat.lt_succ_self _
  cases hf with
  | eval hview he =>
      cases hshared _ _ _ _ rfl rfl
      exact StepPair.stepEval hS hσ hs hview he.1 hallows.literal hd hd'
  | exec hview hst => exact StepPair.stepExec hS hσ hs hview hst hd hd'
  | value hv => exact StepPair.stepValue hS hσ hs hv hallows.name hplain hd hd'
  | complete hc => exact StepPair.stepComplete hS hσ hs hc
  | thrown hv => exact StepPair.stepThrown hσ hs hv

end Resumable
