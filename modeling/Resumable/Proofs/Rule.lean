import Resumable.Proofs.Locality
import Resumable.Proofs.Tree.Contents

/-!
# Rules that runs keep

A rule says which expressions may be evaluated and assigned to, which values may
be handed on, which functions may be under way and what the store may be like. A
body may also have statements that the rule sets apart. Main statement: a step
under a lawful rule leads to a state under the rule, or to a statement that is set
apart, if the body of the function that it calls is admitted.
-/

namespace Resumable

structure Rule where
  expr : Expr → Prop
  target : Expr → Prop
  value : Value → Prop
  func : FuncId → Prop
  store : Store → Prop
  apart : Stmt → Prop

def Value.isData : Value → Bool
  | .closure .. => false
  | _ => true

namespace Rule

open Machine

variable (R : Rule)

def Code (body : List Stmt) : Prop :=
  ∀ s ∈ allStmts body, ∀ e ∈ s.slots, R.expr e

def Admits (body : List Stmt) : Prop :=
  ∀ s ∈ body, R.apart s ∨ R.Code [s]

structure Lawful : Prop where
  missing : R.expr .missing
  child : ∀ {e c}, R.expr e → c ∈ e.children → R.expr c
  assigned : ∀ {t x}, R.expr (.assign t x) → R.target t
  changed : ∀ {op x t}, op.isIncDec = true → R.expr (.unary op x t) → R.target x
  place : ∀ {t c}, R.target t → c ∈ t.children → R.expr c
  data : ∀ {v}, v.isData = true → R.value v
  made : ∀ {fn t}, R.expr (.lambda fn t) → ∀ tag env, R.value (.closure tag fn env)
  called : ∀ {tag fn env}, R.value (.closure tag fn env) → R.func fn
  found : ∀ {σ env v x}, R.store σ → R.expr (.ref v) → σ.lookup env v = .ok x → R.value x
  field : ∀ {σ}, R.store σ → ∀ r k, R.value (Fields.get (σ.fields r) k)
  assign : ∀ {σ v x}, R.store σ → R.target (.ref v) → R.value x → ∀ env, R.store (σ.assign env v x)
  frame : ∀ {σ bs}, R.store σ → (∀ b ∈ bs, R.value b.2) → R.store (σ.newFrame bs).2
  object : ∀ {σ fs}, R.store σ → (∀ f ∈ fs, R.value f.2) → R.store (σ.newObject fs).2
  set : ∀ {σ x}, R.store σ → R.value x → ∀ r k, R.store (σ.modifyFields r (·.set k x))
  erase : ∀ {σ}, R.store σ → ∀ r k, R.store (σ.modifyFields r (·.erase k))
  noted : ∀ {σ τ}, R.store σ → τ.frames = σ.frames → τ.objects = σ.objects →
    τ.globals = σ.globals → R.store τ

/-! ## States -/

def OfLoop (l : Loop) : Prop :=
  R.expr l.cond ∧ R.expr l.post ∧ R.Code l.body

def OfTask : Task → Prop
  | .logical _ right => R.expr right
  | .conditional t e => R.expr t ∧ R.expr e
  | .assign target | .incDec _ target => R.target target
  | .storeField _ v r | .storeIndex v r => R.value v ∧ R.value r
  | .branch t e => R.Code t ∧ R.Code e
  | .loopTest l | .loopAgain l => R.OfLoop l
  | .switchOn _ body => R.Code body
  | .caseTest _ _ rest fallback => R.Code rest ∧ ∀ other ∈ fallback, R.Code other
  | _ => True

def OfWaiting : Waiting → Prop
  | .operands task done rest _ =>
      R.OfTask task ∧ (∀ v ∈ done, R.value v) ∧ ∀ e ∈ rest, R.expr e
  | .block rest _ => R.Admits rest
  | .loop l _ => R.OfLoop l
  | .tryCatch catches _ => ∀ c ∈ catches, R.Code c.body
  | .switch _ => True
  | .call fn => R.func fn

def OfFocus : Focus → Prop
  | .eval e _ => R.expr e
  | .exec s _ => R.Code [s]
  | .value v | .complete (.returned v) | .thrown v => R.value v
  | .complete _ => True

structure Holds (s : State) : Prop where
  focus : R.OfFocus s.focus
  stack : ∀ w ∈ s.stack, R.OfWaiting w
  store : R.store s.store

/-- A state that comes to a statement set apart. -/
inductive Poised : State → Prop where
  | mk {s : Stmt} {env : Env} {stack : List Waiting} {depth : Nat} {store : Store} :
      R.apart s → (∀ w ∈ stack, R.OfWaiting w) → R.store store →
      Poised ⟨.exec s env, stack, depth, store⟩

def OfResult : Except Failure Value → Prop
  | .ok v | .error (.thrown v) => R.value v
  | .error _ => True

def Leads : Step → Prop :=
  Machine.Leads R.Holds fun r σ => R.OfResult r ∧ R.store σ

/-- The same, or the next state comes to a statement set apart. -/
def LeadsOn : Step → Prop :=
  Machine.Leads (fun s => R.Holds s ∨ R.Poised s) fun r σ => R.OfResult r ∧ R.store σ

variable {R}

theorem Leads.on {step : Step} (h : R.Leads step) : R.LeadsOn step := by
  cases step with
  | next s => exact .inl h
  | halt r σ => exact h

/-! ## Code -/

section

variable {s : Stmt} {body more : List Stmt}

@[simp] theorem code_nil : R.Code [] := by
  simp [Code]

theorem code_append : R.Code (body ++ more) ↔ R.Code body ∧ R.Code more := by
  simp only [Code, allStmts_append, List.mem_append, or_imp, forall_and]

theorem code_cons : R.Code (s :: body) ↔ R.Code [s] ∧ R.Code body := by
  rw [← List.singleton_append, code_append]

theorem code_of_subset (h : R.Code body) (hsub : ∀ s ∈ more, s ∈ body) : R.Code more := by
  induction more with
  | nil => exact code_nil
  | cons s more ih =>
      obtain ⟨hs, hmore⟩ := List.forall_mem_cons.1 hsub
      obtain ⟨before, after, rfl⟩ := List.append_of_mem hs
      exact code_cons.2 ⟨(code_cons.1 (code_append.1 h).2).1, ih hmore⟩

theorem expr_of_mem_slots (h : R.Code (s :: body)) {e : Expr} (he : e ∈ s.slots) : R.expr e :=
  h s (mem_allStmts (.head _)) e he

/-- What stands in a statement stands in the code. -/
theorem mem_allStmts_of_bodies {inner : List Stmt} (h : inner ∈ s.bodies) {t : Stmt}
    (ht : t ∈ allStmts inner) : t ∈ allStmts [s] := by
  have hcatches (catches : List Catch) (c : Catch) (hc : c ∈ catches) (ht : t ∈ allStmts c.body) :
      t ∈ preorderCatches (fun _ => true) catches := by
    induction catches with
    | nil => cases hc
    | cons d catches ih =>
        rw [preorderCatches]
        rcases List.mem_cons.1 hc with rfl | hc
        · obtain ⟨var, body⟩ := c
          exact List.mem_append_left _ (by rw [preorderCatch]; exact ht)
        · exact List.mem_append_right _ (ih hc)
  rw [allStmts, preorderList, preorderList, List.append_nil]
  cases s with
  | tryCatch body catches =>
      rw [Stmt.preorder]
      refine List.mem_cons_of_mem _ ?_
      rcases List.mem_cons.1 h with rfl | h
      · exact List.mem_append_left _ ht
      · obtain ⟨c, hc, rfl⟩ := List.mem_map.1 h
        exact List.mem_append_right _ (hcatches catches c hc ht)
  | catchClause c =>
      obtain ⟨var, body⟩ := c
      obtain rfl := List.mem_singleton.1 h
      exact List.mem_cons_of_mem _ ht
  | ifElse c th el =>
      rw [Stmt.preorder]
      refine List.mem_cons_of_mem _ ?_
      rcases List.mem_cons.1 h with rfl | h
      · exact List.mem_append_left _ ht
      · obtain rfl := List.mem_singleton.1 h
        exact List.mem_append_right _ ht
  | whileLoop | doWhile | forLoop | forIn | switch =>
      obtain rfl := List.mem_singleton.1 h
      exact List.mem_cons_of_mem _ ht
  | _ => cases h

theorem code_of_bodies (h : R.Code (s :: body)) {inner : List Stmt} (hinner : inner ∈ s.bodies) :
    R.Code inner :=
  fun _ ht => (code_cons.1 h).1 _ (mem_allStmts_of_bodies hinner ht)

theorem Admits.of_code (h : R.Code body) : R.Admits body := by
  intro s hs
  obtain ⟨before, after, rfl⟩ := List.append_of_mem hs
  exact .inr (code_cons.1 (code_append.1 h).2).1

end

/-! ## Operations -/

section

variable {p : Program} {x y : Value}

theorem Lawful.first (hR : R.Lawful) {vs : List Value} (h : ∀ v ∈ vs, R.value v) :
    R.value (vs.headD .null) := by
  cases vs with
  | nil => exact hR.data rfl
  | cons v vs => exact h v (.head _)

theorem ofResult_unary (hR : R.Lawful) (op : UnaryOp) : R.OfResult (Operation.unary p op x) := by
  cases op <;> cases x <;> first | exact hR.data rfl | trivial

theorem ofResult_compare (hR : R.Lawful) (op : BinaryOp) :
    R.OfResult (Operation.compare p op x y) := by
  unfold Operation.compare
  split
  · exact hR.data rfl
  · split
    · exact hR.data rfl
    · trivial

theorem ofResult_onNumbers (hR : R.Lawful) (op : BinaryOp) :
    R.OfResult (Operation.onNumbers p op x y) := by
  simp only [Operation.onNumbers]
  repeat' split
  all_goals first | exact hR.data rfl | trivial

theorem ofResult_arithmetic (hR : R.Lawful) (op : BinaryOp) :
    R.OfResult (Operation.arithmetic p op x y) := by
  unfold Operation.arithmetic
  split
  · exact hR.data rfl
  · exact hR.data rfl
  · exact ofResult_onNumbers hR op

theorem ofResult_binary (hR : R.Lawful) {cx : Context} {store : Store} (hstore : R.store store)
    (op : BinaryOp) : R.OfResult (binary cx op x y store) := by
  unfold binary
  split
  case h_7 =>
      split
      · exact hR.field hstore ..
      · trivial
  case h_8 =>
      split
      · exact hR.data rfl
      · trivial
  case h_9 => exact ofResult_arithmetic hR _
  all_goals first | exact hR.data rfl | exact ofResult_compare hR _

theorem ofResult_lookup {store : Store} {env : Env} {v : Variable} {f : Failure}
    (h : store.lookup env v = .error f) : R.OfResult (.error f) := by
  simp only [Store.lookup] at h
  split at h <;> cases h
  trivial

theorem value_of_bind {bs : Bindings} (hbs : ∀ b ∈ bs, R.value b.2) (v : Variable)
    (hx : R.value x) : ∀ b ∈ bs.bind v x, R.value b.2 := by
  induction bs with
  | nil => exact List.forall_mem_singleton.2 hx
  | cons entry bs ih =>
      obtain ⟨hentry, hrest⟩ := List.forall_mem_cons.1 hbs
      rw [Bindings.bind]
      split
      · exact List.forall_mem_cons.2 ⟨hx, hrest⟩
      · exact List.forall_mem_cons.2 ⟨hentry, ih hrest⟩

theorem value_of_activation (hR : R.Lawful) (f : Func) {args : List Value}
    (hargs : ∀ v ∈ args, R.value v) : ∀ b ∈ activation f args, R.value b.2 := by
  refine List.foldlRecOn (motive := fun bs : Bindings => ∀ b ∈ bs, R.value b.2) f.locals _
    (List.foldlRecOn (motive := fun bs : Bindings => ∀ b ∈ bs, R.value b.2) _ _ (by simp) ?_)
    fun bs hbs v _ => value_of_bind hbs v (hR.data rfl)
  rintro bs hbs ⟨v, x⟩ hmem
  refine value_of_bind hbs v ?_
  rcases List.mem_append.1 (List.of_mem_zip hmem).2 with hx | hx
  · exact hargs x hx
  · obtain ⟨-, rfl⟩ := List.mem_replicate.1 hx
    exact hR.data rfl

theorem value_of_newFields (hR : R.Lawful) {cx : Context} (cls : Option ClassId) :
    ∀ f ∈ newFields cx cls, R.value f.2 := by
  have hset (fs : Fields) (k : Key) (hfs : ∀ f ∈ fs, R.value f.2) :
      ∀ f ∈ fs.set k .null, R.value f.2 := by
    induction fs with
    | nil => exact List.forall_mem_singleton.2 (hR.data rfl)
    | cons entry fs ih =>
        obtain ⟨hentry, hrest⟩ := List.forall_mem_cons.1 hfs
        rw [Fields.set]
        split
        · exact List.forall_mem_cons.2 ⟨hR.data rfl, hrest⟩
        · split
          · exact List.forall_mem_cons.2 ⟨hR.data rfl, hfs⟩
          · exact List.forall_mem_cons.2 ⟨hentry, ih hrest⟩
  unfold newFields
  split
  · exact List.foldlRecOn (motive := fun fs : Fields => ∀ f ∈ fs, R.value f.2) _ _ (by simp)
      fun fs hfs f _ => hset fs _ hfs
  · simp

end

section

variable {cx : Context} {stack : List Waiting} {depth : Nat} {store : Store} {env : Env}

/-! ## Ways to go on -/

theorem leads_fail (hstore : R.store store) {f : Failure} (hf : R.OfResult (.error f)) :
    R.Leads (fail store f) :=
  ⟨hf, hstore⟩

theorem leads_ite {c : Prop} [Decidable c] {yes no : Step} (hyes : R.Leads yes) (hno : R.Leads no) :
    R.Leads (if c then yes else no) := by
  split
  · exact hyes
  · exact hno

/-- Work on the fields of an object, which fails with any other value. -/
theorem leads_onObject (hstore : R.store store) {x : Value} {work : Nat → Step}
    (message : Value → String) (hwork : ∀ ref, R.Leads (work ref)) :
    R.Leads (match x with
      | .object ref _ => work ref
      | v => fail store (.eval .typeError (message v))) := by
  cases x with
  | object ref cls => exact hwork ref
  | _ => exact leads_fail hstore trivial

variable (hstack : ∀ w ∈ stack, R.OfWaiting w) (hstore : R.store store)

include hstack hstore

theorem leads_give {v : Value} (hv : R.value v) : R.Leads (give stack depth store v) :=
  ⟨hv, hstack, hstore⟩

theorem leads_finish {r : Except Failure Value} : R.OfResult r →
    R.Leads (match r with
      | .ok v => give stack depth store v
      | .error f => fail store f) := by
  intro hr
  cases r with
  | ok v => exact leads_give hstack hstore hr
  | error f => exact leads_fail hstore hr

theorem leads_complete {c : Completion} (hc : R.OfFocus (.complete c)) :
    R.Leads (complete stack depth store c) :=
  ⟨hc, hstack, hstore⟩

theorem leads_evaluate {e : Expr} (he : R.expr e) : R.Leads (evaluate e env stack depth store) :=
  ⟨he, hstack, hstore⟩

theorem leads_enterBlock {body : List Stmt} (hbody : R.Admits body) :
    R.Leads (enterBlock body env stack depth store) :=
  ⟨trivial, List.forall_mem_cons.2 ⟨hbody, hstack⟩, hstore⟩

/-- The first of some operands is evaluated for a task. -/
theorem leads_ask (task : Task) (htask : R.OfTask task) {e : Expr} {rest : List Expr}
    (hes : ∀ x ∈ e :: rest, R.expr x) :
    R.Leads (evaluate e env (.operands task [] rest env :: stack) depth store) := by
  obtain ⟨he, hrest⟩ := List.forall_mem_cons.1 hes
  exact ⟨he, List.forall_mem_cons.2 ⟨⟨htask, by simp, hrest⟩, hstack⟩, hstore⟩

variable (hR : R.Lawful)

include hR

/-! ## Calls and assignments -/

theorem leads_callValue {callee : Value} (hcallee : R.value callee)
    (hbody : ∀ tag fn env f, callee = .closure tag fn env → cx.program.func? fn = some f →
      R.Admits f.body)
    {args : List Value} (hargs : ∀ v ∈ args, R.value v) :
    R.Leads (callValue cx callee args stack depth store) := by
  have hfirst := hR.first hargs
  cases callee with
  | native tag name kind =>
      cases kind with
      | trace | count | record => exact ⟨hR.data rfl, hstack, hR.noted hstore rfl rfl rfl⟩
      | identity | throw => exact ⟨hfirst, hstack, hstore⟩
      | fail => exact leads_fail hstore trivial
  | closure tag fn env =>
      simp only [callValue]
      split
      · exact leads_fail hstore trivial
      · split
        · exact leads_fail hstore trivial
        · next f hf =>
            refine leads_enterBlock ?_ ?_ (hbody tag fn env f rfl hf)
            · exact List.forall_mem_cons.2 ⟨hR.called hcallee, hstack⟩
            · exact hR.frame hstore (value_of_activation hR f hargs)
  | _ => exact leads_fail hstore trivial

theorem leads_storeIn {target : Expr} (htarget : R.target target) {value result : Value}
    (hvalue : R.value value) (hresult : R.value result) :
    R.Leads (storeIn target value result env stack depth store) := by
  unfold storeIn
  split
  · split
    · exact leads_give hstack (hR.assign hstore htarget hvalue _) hresult
    · exact leads_fail hstore trivial
  · exact leads_ask hstack hstore (.storeField _ value result) ⟨hvalue, hresult⟩
      fun x hx => hR.place htarget hx
  · exact leads_ask hstack hstore (.storeIndex value result) ⟨hvalue, hresult⟩
      fun x hx => hR.place htarget hx
  · exact leads_fail hstore trivial

/-! ## Loops and switches -/

omit hR in
theorem leads_enterLoop {l : Loop} (hl : R.OfLoop l) :
    R.Leads (enterLoop l env stack depth store) := by
  unfold enterLoop
  split
  · refine leads_enterBlock ?_ hstore (.of_code hl.2.2)
    exact List.forall_mem_cons.2 ⟨hl, hstack⟩
  · exact leads_ask hstack hstore (.loopTest l) hl (by simpa using hl.1)

omit hR in
theorem leads_nextRound {l : Loop} (hl : R.OfLoop l) :
    R.Leads (nextRound l env stack depth store) := by
  unfold nextRound
  split
  · exact leads_enterLoop hstack hstore hl
  · exact leads_ask hstack hstore (.loopAgain l) hl (by simpa using hl.2.1)

omit hR in
theorem leads_enterSwitch (label : String) {rest : List Stmt} (hrest : R.Code rest) :
    R.Leads (enterSwitch label rest env stack depth store) := by
  refine leads_enterBlock ?_ hstore (.of_code ?_)
  · exact List.forall_mem_cons.2 ⟨trivial, hstack⟩
  · exact code_of_subset hrest fun _ hs => (List.mem_filter.1 hs).1

omit hR in
theorem leads_scanCases (label : String) (subject : Value) {body : List Stmt} (hbody : R.Code body)
    {fallback : Option (List Stmt)} (hfallback : ∀ other ∈ fallback, R.Code other) :
    R.Leads (scanCases label subject env stack depth store body fallback) := by
  fun_induction scanCases label subject env stack depth store body fallback with
  | case1 => exact leads_complete hstack hstore trivial
  | case2 rest => exact leads_enterSwitch hstack hstore label (hfallback rest rfl)
  | case3 x rest fallback =>
      have hx : R.expr x := expr_of_mem_slots hbody (.head _)
      exact leads_ask hstack hstore (.caseTest label subject rest fallback)
        ⟨(code_cons.1 hbody).2, hfallback⟩ (by simpa using hx)
  | case4 rest _ ih =>
      have hrest := (code_cons.1 hbody).2
      exact ih hrest fun other hother => by cases hother; exact hrest
  | case5 _ _ _ _ _ ih => exact ih (code_cons.1 hbody).2 hfallback

/-! ## Tasks -/

theorem leads_incDec (op : UnaryOp) {target : Expr} (htarget : R.target target) {vs : List Value}
    (hvs : ∀ v ∈ vs, R.value v) :
    R.Leads (perform cx (.incDec op target) vs env stack depth store) := by
  have hsum : R.OfResult (Operation.arithmetic cx.program .add (vs.headD .null)
      (.int (if op.isDecrement then -1 else 1))) := ofResult_arithmetic hR _
  simp only [perform]
  split
  · next updated heq =>
      rw [heq] at hsum
      refine leads_storeIn hstack hstore hR htarget hsum ?_
      split
      · exact hR.first hvs
      · exact hsum
  · next f heq =>
      rw [heq] at hsum
      exact leads_fail hstore hsum

theorem leads_perform {task : Task} (htask : R.OfTask task) {vs : List Value}
    (hvs : ∀ v ∈ vs, R.value v)
    (hbody : task = .call → ∀ tag fn env f, vs.headD .null = .closure tag fn env →
      cx.program.func? fn = some f → R.Admits f.body) :
    R.Leads (perform cx task vs env stack depth store) := by
  have hfirst := hR.first hvs
  cases task with
  | unary op => exact leads_finish hstack hstore (ofResult_unary hR op)
  | binary op => exact leads_finish hstack hstore (ofResult_binary hR hstore op)
  | logical op right =>
      exact leads_ite (leads_evaluate hstack hstore htask) (leads_give hstack hstore hfirst)
  | conditional t e =>
      refine leads_evaluate hstack hstore ?_
      split
      · exact htask.1
      · exact htask.2
  | assign target => exact leads_storeIn hstack hstore hR htask hfirst hfirst
  | incDec op target => exact leads_incDec hstack hstore hR op htask hvs
  | storeField name value result =>
      exact leads_onObject hstore (fun v => "cannot set " ++ name ++ " of " ++ v.format cx.program)
        fun ref => leads_give hstack (hR.set hstore htask.1 ..) htask.2
  | storeIndex value result =>
      exact leads_onObject hstore (fun v => "cannot index " ++ v.format cx.program)
        fun ref => leads_give hstack (hR.set hstore htask.1 ..) htask.2
  | call =>
      exact leads_callValue hstack hstore hR hfirst (hbody rfl)
        fun v hv => hvs v (List.mem_of_mem_tail hv)
  | property name =>
      exact leads_onObject hstore (fun v => "cannot read " ++ name ++ " of " ++ v.format cx.program)
        fun ref => leads_give hstack hstore (hR.field hstore ..)
  | construct cls =>
      exact leads_give hstack (hR.object hstore (value_of_newFields hR cls)) (hR.data rfl)
  | discard => exact leads_complete hstack hstore trivial
  | ret => exact leads_complete hstack hstore hfirst
  | throw => exact ⟨hfirst, hstack, hstore⟩
  | assert message =>
      exact leads_ite (leads_complete hstack hstore trivial) (leads_fail hstore trivial)
  | log => exact ⟨trivial, hstack, hR.noted hstore rfl rfl rfl⟩
  | deleteField name =>
      exact leads_onObject hstore (fun v => "cannot delete from " ++ v.format cx.program)
        fun ref => leads_complete hstack (hR.erase hstore ..) trivial
  | deleteIndex =>
      exact leads_onObject hstore (fun v => "cannot delete from " ++ v.format cx.program)
        fun ref => leads_complete hstack (hR.erase hstore ..) trivial
  | branch t e =>
      refine leads_enterBlock hstack hstore (.of_code ?_)
      split
      · exact htask.1
      · exact htask.2
  | loopTest l =>
      refine leads_ite (leads_enterBlock ?_ hstore (.of_code htask.2.2))
        (leads_complete hstack hstore trivial)
      exact List.forall_mem_cons.2 ⟨htask, hstack⟩
  | loopAgain l => exact leads_enterLoop hstack hstore htask
  | switchOn label body => exact leads_scanCases hstack hstore label _ htask (by simp)
  | caseTest label subject rest fallback =>
      exact leads_ite (leads_enterSwitch hstack hstore label htask.1)
        (leads_scanCases hstack hstore label subject htask.1 htask.2)

variable (cx) in
/-- A task without operands calls nothing. -/
theorem leads_operands (task : Task) (htask : R.OfTask task) (es : List Expr)
    (hes : ∀ e ∈ es, R.expr e) : R.Leads (operands cx task es env stack depth store) := by
  cases es with
  | nil => exact leads_perform hstack hstore hR htask (by simp) (by rintro - _ _ _ _ ⟨⟩)
  | cons e rest => exact leads_ask hstack hstore task htask hes

/-! ## Steps -/

theorem leads_stepEval {e : Expr} (he : R.expr e) : R.Leads (stepEval cx e env stack depth store) := by
  have hchild {c : Expr} (hc : c ∈ e.children) : R.expr c := hR.child he hc
  cases e with
  | missing => exact leads_fail hstore trivial
  | literal l t =>
      refine leads_give hstack hstore (hR.data ?_)
      cases l <;> rfl
  | ref v =>
      simp only [stepEval]
      cases hv : store.lookup env v with
      | ok x => exact leads_give hstack hstore (hR.found hstore he hv)
      | error f => exact leads_fail hstore (ofResult_lookup hv)
  | receiver t => exact leads_give hstack hstore (hR.data rfl)
  | lambda fn t =>
      simp only [stepEval]
      split
      · exact leads_fail hstore trivial
      · exact ⟨hR.made he .., hstack, hR.noted hstore rfl rfl rfl⟩
  | unary op x t =>
      refine leads_operands cx hstack hstore hR _ ?_ [x] fun y hy => hchild hy
      split
      · next hop => exact hR.changed hop he
      · trivial
  | binary op x y t =>
      simp only [stepEval]
      split
      · exact leads_operands cx hstack hstore hR (.logical op y) (hchild (.tail _ (.head _))) [x]
          fun z hz => hchild (List.mem_singleton.1 hz ▸ .head _)
      · exact leads_operands cx hstack hstore hR (.binary op) trivial [x, y] fun z hz => hchild hz
  | conditional c t e ty =>
      exact leads_operands cx hstack hstore hR (.conditional t e)
        ⟨hchild (.tail _ (.head _)), hchild (.tail _ (.tail _ (.head _)))⟩ [c]
        fun z hz => hchild (List.mem_singleton.1 hz ▸ .head _)
  | assign target value =>
      exact leads_operands cx hstack hstore hR (.assign target) (hR.assigned he) [value]
        fun z hz => hchild (List.mem_singleton.1 hz ▸ .tail _ (.head _))
  | call callee args t =>
      exact leads_operands cx hstack hstore hR .call trivial (callee :: args) fun z hz => hchild hz
  | property x name t =>
      exact leads_operands cx hstack hstore hR (.property name) trivial [x] fun z hz => hchild hz
  | construct cls args =>
      exact leads_operands cx hstack hstore hR (.construct cls) trivial args fun z hz => hchild hz

theorem leads_stepSimple {s : Simple} (hs : ∀ e ∈ s.slots, R.expr e) :
    R.Leads (stepSimple cx s env stack depth store) := by
  cases s with
  | expr x => exact leads_operands cx hstack hstore hR .discard trivial [x] hs
  | ret x =>
      simp only [stepSimple]
      split
      · exact leads_complete hstack hstore (hR.data rfl)
      · exact leads_operands cx hstack hstore hR .ret trivial [x] hs
  | throw x => exact leads_operands cx hstack hstore hR .throw trivial [x] hs
  | delete x =>
      have hchild {c : Expr} (hc : c ∈ x.children) : R.expr c := hR.child (hs x (.head _)) hc
      simp only [stepSimple]
      unfold stepDelete
      split
      · exact leads_operands cx hstack hstore hR (.deleteField _) trivial _ fun z hz => hchild hz
      · next op x y t =>
          split
          · refine leads_operands cx hstack hstore hR .deleteIndex trivial [y, x] fun z hz => hchild ?_
            exact (List.Perm.swap x y []).mem_iff.1 hz
          · exact leads_fail hstore trivial
      · exact leads_fail hstore trivial
  | assert x message => exact leads_operands cx hstack hstore hR (.assert message) trivial [x] hs
  | log args => exact leads_operands cx hstack hstore hR .log trivial args hs
  | debugger => exact leads_complete hstack hstore trivial
  | super cls args => exact leads_operands cx hstack hstore hR .discard trivial args hs
  | yield x => exact leads_fail hstore trivial

theorem leads_stepExec {s : Stmt} (hs : R.Code [s]) :
    R.Leads (stepExec cx s env stack depth store) := by
  have hslots {e : Expr} (he : e ∈ s.slots) : R.expr e := expr_of_mem_slots hs he
  have hbodies {body : List Stmt} (h : body ∈ s.bodies) : R.Code body := code_of_bodies hs h
  cases s with
  | simple s share => exact leads_stepSimple hstack hstore hR fun e he => hslots he
  | breakTo l | continueTo l => exact leads_complete hstack hstore trivial
  | ifElse c t e =>
      refine leads_operands cx hstack hstore hR (.branch t e) ⟨?_, ?_⟩ [c] ?_
      · exact hbodies (by simp [Stmt.bodies])
      · exact hbodies (by simp [Stmt.bodies])
      · simpa using hslots (.head _)
  | whileLoop c body l =>
      exact leads_enterLoop hstack hstore ⟨hslots (.head _), hR.missing, hbodies (.head _)⟩
  | doWhile c body l =>
      have hbody : R.Code body := hbodies (.head _)
      refine leads_enterBlock ?_ hstore (.of_code hbody)
      exact List.forall_mem_cons.2 ⟨⟨hslots (.head _), hR.missing, hbody⟩, hstack⟩
  | forLoop init c post body l =>
      have hl : R.OfLoop ⟨l, c, post, body⟩ :=
        ⟨hslots (by simp [Stmt.slots]), hslots (by simp [Stmt.slots]), hbodies (.head _)⟩
      simp only [stepExec]
      split
      · exact leads_enterLoop hstack hstore hl
      · exact leads_operands cx hstack hstore hR (.loopAgain ⟨l, c, post, body⟩) hl [init]
          (by simpa using hslots (.head _))
  | switch x body l =>
      exact leads_operands cx hstack hstore hR (.switchOn l body) (hbodies (.head _)) [x]
        (by simpa using hslots (.head _))
  | tryCatch body catches =>
      refine leads_enterBlock ?_ hstore (.of_code (hbodies (.head _)))
      refine List.forall_mem_cons.2 ⟨fun c hc => hbodies ?_, hstack⟩
      exact List.mem_cons_of_mem _ (List.mem_map_of_mem hc)
  | _ => exact leads_fail hstore trivial

end

section

variable {cx : Context} {stack : List Waiting} {depth : Nat} {store : Store}

theorem leads_stepValue (hR : R.Lawful) {v : Value} (hv : R.value v)
    (hstack : ∀ w ∈ stack, R.OfWaiting w) (hstore : R.store store)
    (hbody : ∀ fn f, callee? ⟨.value v, stack, depth, store⟩ = some fn → R.func fn →
      cx.program.func? fn = some f → R.Admits f.body) :
    R.Leads (stepValue cx v stack depth store) := by
  cases stack with
  | nil => exact ⟨hv, hstore⟩
  | cons w below =>
      obtain ⟨hw, hbelow⟩ := List.forall_mem_cons.1 hstack
      cases w with
      | operands task done rest env =>
          obtain ⟨htask, hdone, hrest⟩ := hw
          have hvs : ∀ x ∈ done ++ [v], R.value x := by
            simpa [or_imp, forall_and] using ⟨hdone, hv⟩
          cases rest with
          | nil =>
              refine leads_perform hbelow hstore hR htask hvs ?_
              rintro rfl tag fn env' f hfirst hf
              refine hbody fn f ?_ (hR.called (hfirst ▸ hR.first hvs)) hf
              simp only [callee?, hfirst]
          | cons e rest =>
              obtain ⟨he, hrest⟩ := List.forall_mem_cons.1 hrest
              exact ⟨he, List.forall_mem_cons.2 ⟨⟨htask, hvs, hrest⟩, hbelow⟩, hstore⟩
      | _ => exact leads_give hbelow hstore hv

theorem leads_stepThrown (hR : R.Lawful) {v : Value} (hv : R.value v)
    (hstack : ∀ w ∈ stack, R.OfWaiting w) (hstore : R.store store) :
    R.Leads (stepThrown v stack depth store) := by
  cases stack with
  | nil => exact ⟨hv, hstore⟩
  | cons w below =>
      obtain ⟨hw, hbelow⟩ := List.forall_mem_cons.1 hstack
      cases w with
      | tryCatch catches env =>
          cases catches with
          | nil => exact ⟨hv, hbelow, hstore⟩
          | cons handler rest =>
              refine leads_enterBlock hbelow (hR.frame hstore ?_) (.of_code (hw handler (.head _)))
              cases handler.var with
              | none => exact fun b hb => absurd hb List.not_mem_nil
              | some x => exact List.forall_mem_singleton.2 hv
      | _ => exact ⟨hv, hbelow, hstore⟩

theorem leadsOn_stepComplete (hR : R.Lawful) {c : Completion} (hc : R.OfFocus (.complete c))
    (hstack : ∀ w ∈ stack, R.OfWaiting w) (hstore : R.store store) :
    R.LeadsOn (stepComplete cx c stack depth store) := by
  cases stack with
  | nil => exact ⟨hR.data rfl, hstore⟩
  | cons w below =>
      obtain ⟨hw, hbelow⟩ := List.forall_mem_cons.1 hstack
      have hpass : R.LeadsOn (complete below depth store c) :=
        (leads_complete hbelow hstore hc).on
      have hnormal : R.LeadsOn (complete below depth store .normal) :=
        .inl ⟨trivial, hbelow, hstore⟩
      cases w with
      | operands | tryCatch => exact hpass
      | block rest env =>
          cases c with
          | normal =>
              cases rest with
              | nil => exact hpass
              | cons s rest =>
                  obtain ⟨hs, hrest⟩ := List.forall_mem_cons.1 hw
                  have hblock : ∀ w ∈ .block rest env :: below, R.OfWaiting w :=
                    List.forall_mem_cons.2 ⟨hrest, hbelow⟩
                  rcases hs with hs | hs
                  · exact .inr (.mk hs hblock hstore)
                  · exact .inl ⟨hs, hblock, hstore⟩
          | _ => exact hpass
      | loop l env =>
          have hround : R.LeadsOn (nextRound l env below depth store) :=
            (leads_nextRound hbelow hstore hw).on
          cases c with
          | normal => exact hround
          | continued label =>
              simp only [stepComplete]
              split
              · exact hround
              · exact hpass
          | broke label =>
              simp only [stepComplete]
              split
              · exact hnormal
              · exact hpass
          | returned v => exact hpass
      | switch own =>
          cases c with
          | broke label =>
              simp only [stepComplete]
              split
              · exact hnormal
              · exact hpass
          | _ => exact hpass
      | call fn =>
          cases c with
          | normal => exact .inl ⟨hR.data rfl, hbelow, hstore⟩
          | returned v => exact .inl ⟨hc, hbelow, hstore⟩
          | _ => exact ⟨trivial, hstore⟩

/-- Every step keeps a lawful rule. -/
theorem Holds.leadsOn (hR : R.Lawful) {s : State} (h : R.Holds s)
    (hbody : ∀ fn f, callee? s = some fn → R.func fn → cx.program.func? fn = some f →
      R.Admits f.body) : R.LeadsOn (step cx s) := by
  obtain ⟨focus, stack, depth, store⟩ := s
  obtain ⟨hfocus, hstack, hstore⟩ := h
  cases focus with
  | eval e env => exact (leads_stepEval hstack hstore hR hfocus).on
  | exec s env => exact (leads_stepExec hstack hstore hR hfocus).on
  | value v => exact (leads_stepValue hR hfocus hstack hstore hbody).on
  | complete c => exact leadsOn_stepComplete hR hfocus hstack hstore
  | thrown v => exact (leads_stepThrown hR hfocus hstack hstore).on

end

end Rule

end Resumable
