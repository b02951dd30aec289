import Resumable.Proofs.Continuation.Context
import Resumable.Proofs.Lockstep.Echo

/-!
# Chains follow expressions

Every step on an expression is followed by steps of the machine that runs the
continuations it has been rebuilt into. Where the source only takes an
expression apart, the target has nothing to do yet; this happens finitely often
in a row.
-/

namespace Resumable.Continuation

open Machine

/-- While a call at the bottom of the stack waits for its argument, the variables
of `pin` have the value that is to be called. -/
def Pins (pin : Variable → Prop) (s : State) : Prop :=
  ∀ v, pin v → ∀ c env, s.stack.getLast? = some (.operands .call [c] [] env) →
    s.store.lookup env v = .ok c

/-- How long the source can go on with the target at rest. -/
def lag (s : State) : Nat :=
  match s.focus with
  | .eval e _ => e.nodes.length
  | .thrown _ => s.stack.length
  | _ => 0

/-- The two programs have corresponding functions, up to expressions that have
been rebuilt, on their own or as the argument of a call. -/
structure Rebuilds (S : Sides) : Prop extends S.Sound where
  plain : ∀ fn, ¬ S.special fn
  rebuilt : ∀ {e e'}, S.slot e e' →
    (∃ n, Passes S.target n e none e' ∧ e.Covered S (· < n) False) ∨
    ∃ callee x x' t, e = .call callee [x] t ∧ e' = .call callee [x'] t ∧ S.slot x x'

/-- The target makes values of a function: of one that is known, or of a
continuation, which has no name. -/
def Makes (S : Sides) (fn : FuncId) : Prop :=
  S.known fn ∨ ∃ code, S.target.code? fn = some code ∧ code.name = ""

abbrev Walks (S : Sides) : State → State → Prop :=
  Steps (free S.target) (Calm (Makes S))

theorem Walks.of_idle {S : Sides} {s t : State} (h : Steps (free S.target) Idle s t) : Walks S s t :=
  h.transfer fun _ hidle => ⟨hidle.calm _, rfl⟩

/-- A state of the target goes on to a state that corresponds to the outcome of
a step. What the step shows, the last one of the target shows. -/
inductive Moves (S : Sides) (pin : Variable → Prop) (P : Pairing) (s : State) :
    Step → State → Prop where
  | idle {Q : Pairing} {t s' u t' : State} : P ≤ Q → Idle s → Calm (Makes S) s' →
      free S.target s' = .next u → Walks S u t' → Related S pin Q t t' →
      Moves S pin P s (.next t) s'
  | echo {Q : Pairing} {t s' m t' : State} : P ≤ Q → Walks S s' m → ShowsAlike S Q s m →
      free S.target m = .next t' → Related S pin Q t t' → Moves S pin P s (.next t) s'
  | halt {Q : Pairing} {r r' : Except Failure Value} {σ σ' : Store} {s' m : State} : P ≤ Q →
      Walks S s' m → ShowsAlike S Q s m → free S.target m = .halt r' σ' → StorePair S Q σ σ' →
      ResultPair S Q r r' → Moves S pin P s (.halt r σ) s'

/-- A state of the target goes on as a step does, or corresponds to its outcome
already. -/
inductive Follows (S : Sides) (pin : Variable → Prop) (P : Pairing) (s : State) :
    Step → State → Prop where
  | moves {step : Step} {s' : State} : Moves S pin P s step s' → Follows S pin P s step s'
  | stay {t s' : State} : Idle s → lag t < lag s → Related S pin P t s' →
      Follows S pin P s (.next t) s'

variable {S : Sides} {pin : Variable → Prop} {P Q : Pairing} {s : State}

namespace Moves

theorem of_walks {step : Step} {s' t' : State} (hwalks : Walks S s' t')
    (h : Moves S pin P s step t') : Moves S pin P s step s' := by
  cases h with
  | idle hle hidle hcalm hstep hrest hrel =>
      cases hwalks with
      | refl => exact .idle hle hidle hcalm hstep hrest hrel
      | head hfirst hfirstStep hwalks =>
          exact .idle hle hidle hfirst hfirstStep (hwalks.trans (.head hcalm hstep hrest)) hrel
  | echo hle hm hechoes hstep hrel => exact .echo hle (hwalks.trans hm) hechoes hstep hrel
  | halt hle hm hechoes hstep hσ hr => exact .halt hle (hwalks.trans hm) hechoes hstep hσ hr

theorem of_le (h : P ≤ Q) {step : Step} {s' : State} (hmoves : Moves S pin Q s step s') :
    Moves S pin P s step s' := by
  cases hmoves with
  | idle hle hidle hcalm hstep hrest hrel =>
      exact .idle (Pairing.le_trans h hle) hidle hcalm hstep hrest hrel
  | echo hle hm hechoes hstep hrel => exact .echo (Pairing.le_trans h hle) hm hechoes hstep hrel
  | halt hle hm hechoes hstep hσ hr =>
      exact .halt (Pairing.le_trans h hle) hm hechoes hstep hσ hr

/-- Steps that show nothing. -/
theorem of_idle (hle : P ≤ Q) (hidle : Idle s) {t s' u t' : State} (hidle' : Idle s')
    (hstep : free S.target s' = .next u) (hrest : Walks S u t') (h : Related S pin Q t t') :
    Moves S pin P s (.next t) s' :=
  .idle hle hidle (hidle'.calm _) hstep hrest h

/-- Corresponding steps of the tops of two stacks. -/
theorem of_stepPair {st st' : Step} (h : StepPair S P st st') {stack stack' : List Waiting}
    (hs : StackRel S pin P stack stack') {s' : State} (hechoes : ShowsAlike S P s s')
    (hstep : free S.target s' = st'.onto stack') : Moves S pin P s (st.onto stack) s' := by
  cases h with
  | next hle hσ hf htops =>
      exact .echo hle (.refl _) (hechoes.mono hle) hstep (.run hσ hf ((hs.mono hle).append htops))
  | halt hle hσ hr => exact .halt hle (.refl _) (hechoes.mono hle) hstep hσ hr

end Moves

/-! ## Steps of the source -/

section

variable {p : Program} {env : Env} {stack : List Waiting} {depth : Nat} {σ : Store}

theorem Operates.free_eq {e x : Expr} {task : Task} {es : List Expr} (h : Operates e task (x :: es)) :
    free p ⟨.eval e env, stack, depth, σ⟩ =
      .next ⟨.eval x env, .operands task [] es env :: stack, depth, σ⟩ := by
  cases h <;> simp [free, step, stepEval, operands, evaluate, *]

theorem Operates.idle {e : Expr} {task : Task} {es : List Expr} (h : Operates e task es) :
    Idle ⟨.eval e env, stack, depth, σ⟩ := by
  cases h <;> exact ⟨rfl, rfl, rfl⟩

theorem Operates.nodes_lt {e x : Expr} {task : Task} {es : List Expr}
    (h : Operates e task (x :: es)) : x.nodes.length < e.nodes.length := by
  cases h <;> simp only [Expr.nodes, List.length_cons, List.length_append] <;> omega

theorem Operates.taskPair {R : Nat → Prop} {e : Expr} {task : Task} {es : List Expr}
    (h : Operates e task es) (he : e.Covered S R False) : TaskPair S P R False task task := by
  cases h with
  | unary => exact .unary _
  | binary => exact .binary _
  | assign => exact .assign (Expr.covered_assign.1 he).1
  | call => exact .call
  | property => exact .property _

theorem Operates.covered {R : Nat → Prop} {T : Prop} {e : Expr} {task : Task} {es : List Expr}
    (h : Operates e task es) (he : e.Covered S R T) : ∀ x ∈ es, x.Covered S R T := by
  cases h with
  | unary => simpa using Expr.covered_unary.1 he
  | binary => simpa using Expr.covered_binary.1 he
  | assign => simpa using (Expr.covered_assign.1 he).2
  | call => simpa using Expr.covered_call.1 he
  | property => simpa using Expr.covered_property.1 he

theorem Chooses.free_eq {e x : Expr} {task : Task} {yes no : Option Expr}
    (h : Chooses e task x yes no) : free p ⟨.eval e env, stack, depth, σ⟩ =
      .next ⟨.eval x env, .operands task [] [] env :: stack, depth, σ⟩ := by
  cases h <;> rfl

theorem Chooses.idle {e x : Expr} {task : Task} {yes no : Option Expr}
    (h : Chooses e task x yes no) : Idle ⟨.eval e env, stack, depth, σ⟩ := by
  cases h <;> exact ⟨rfl, rfl, rfl⟩

theorem Chooses.nodes_lt {e x : Expr} {task : Task} {yes no : Option Expr}
    (h : Chooses e task x yes no) : x.nodes.length < e.nodes.length := by
  cases h <;> simp only [Expr.nodes, List.length_cons, List.length_append] <;> omega

theorem Chooses.covered {R : Nat → Prop} {T : Prop} {e x : Expr} {task : Task}
    {yes no : Option Expr} (h : Chooses e task x yes no) (he : e.Covered S R T) :
    x.Covered S R T ∧ (∀ y, yes = some y → y.Covered S R T) ∧
      ∀ y, no = some y → y.Covered S R T := by
  cases h with
  | or | and => simpa using Expr.covered_binary.1 he
  | conditional => simpa using Expr.covered_conditional.1 he

def chosen {α : Type} (v : Value) (yes no : α) : α :=
  if v.truthy then yes else no

/-- A test leads to one of the two ways. -/
theorem Chooses.free_value {e x : Expr} {task : Task} {yes no : Option Expr}
    (h : Chooses e task x yes no) (p : Program) (v : Value) (env : Env) (stack : List Waiting)
    (depth : Nat) (σ : Store) :
    (chosen v yes no = none → free p ⟨.value v, .operands task [] [] env :: stack, depth, σ⟩ =
      .next ⟨.value v, stack, depth, σ⟩) ∧
    ∀ y, chosen v yes no = some y →
      free p ⟨.value v, .operands task [] [] env :: stack, depth, σ⟩ =
        .next ⟨.eval y env, stack, depth, σ⟩ := by
  cases h <;> cases hv : v.truthy <;>
    simp [chosen, hv, free, step, stepValue, perform, evaluate, give]

end

/-! ## Runs of the target -/

section

variable {p : Program} {env : Env} {stack : List Waiting} {depth : Nat} {σ : Store}

/-- Variables are read one after the other; then the task has its operands. -/
theorem runs_refs {task : Task} {us : List Variable} {vs : List Value}
    (h : List.Forall₂ (fun u v => σ.lookup env u = .ok v) us vs) {done front : List Value}
    {v x : Value} (heq : done ++ v :: vs = front ++ [x]) :
    Steps (free p) Idle ⟨.value v, .operands task done (us.map .ref) env :: stack, depth, σ⟩
      ⟨.value x, .operands task front [] env :: stack, depth, σ⟩ := by
  induction h generalizing done v with
  | nil =>
      obtain ⟨rfl, hv⟩ := List.append_inj' heq rfl
      cases hv
      exact .refl _
  | @cons u y us vs hu _ ih =>
      refine .head ⟨rfl, rfl, rfl⟩ rfl (.head ⟨rfl, rfl, rfl⟩ (free_ref hu) (ih ?_))
      rw [← heq, List.append_assoc]
      rfl

/-- An operation on variables reads them first. -/
theorem Operates.runs_refs {f : Expr} {task : Task} {us : List Variable}
    (hf : Operates f task (us.map .ref)) {vs front : List Value} {x : Value}
    (h : List.Forall₂ (fun u v => σ.lookup env u = .ok v) us vs) (heq : vs = front ++ [x]) :
    Steps (free p) Idle ⟨.eval f env, stack, depth, σ⟩
      ⟨.value x, .operands task front [] env :: stack, depth, σ⟩ := by
  cases h with
  | nil => exact absurd heq (by simp)
  | @cons u v us vs hu hus =>
      exact .head hf.idle hf.free_eq (.head ⟨rfl, rfl, rfl⟩ (free_ref hu)
        (Continuation.runs_refs hus heq))

/-- The body of a continuation is evaluated. -/
theorem runs_ret {e : Expr} (he : e.isMissing = false) :
    Steps (free p) Idle ⟨.complete .normal, .block [.ret e] env :: stack, depth, σ⟩
      ⟨.eval e env, .operands .ret [] [] env :: .block [] env :: stack, depth, σ⟩ := by
  refine .head ⟨rfl, rfl, rfl⟩ rfl (.single ⟨rfl, rfl, rfl⟩ ?_)
  simp [free, step, stepExec, stepSimple, he, operands, evaluate]

/-- The value of a continuation's body is its value. -/
theorem runs_return (c : FuncId) (v : Value) :
    Steps (free p) Idle
      ⟨.value v, .operands .ret [] [] env :: .block [] env :: .call c :: stack, depth, σ⟩
      ⟨.value v, stack, depth - 1, σ⟩ :=
  .head ⟨rfl, rfl, rfl⟩ rfl (.head ⟨rfl, rfl, rfl⟩ rfl (.single ⟨rfl, rfl, rfl⟩ rfl))

/-- A thrown value passes a call of a continuation. -/
theorem runs_throw (c : FuncId) (v : Value) :
    Steps (free p) Idle
      ⟨.thrown v, .operands .ret [] [] env :: .block [] env :: .call c :: stack, depth, σ⟩
      ⟨.thrown v, stack, depth - 1, σ⟩ :=
  .head ⟨rfl, rfl, rfl⟩ rfl (.head ⟨rfl, rfl, rfl⟩ rfl (.single ⟨rfl, rfl, rfl⟩ rfl))

/-- A continuation is evaluated before the value that it is to get. -/
theorem walks_callee {k : Expr} {c : Value} {τ : Store} (f : Expr)
    (hcalm : ∀ stack, Calm (Makes S) ⟨.eval k env, stack, depth, σ⟩)
    (h : ∀ stack, free S.target ⟨.eval k env, stack, depth, σ⟩ = .next ⟨.value c, stack, depth, τ⟩) :
    Walks S ⟨.eval (deliver (some k) f) env, stack, depth, σ⟩
      ⟨.eval f env, .operands .call [c] [] env :: stack, depth, τ⟩ :=
  .head (Idle.calm ⟨rfl, rfl, rfl⟩ _) rfl (.head (hcalm _) (h _)
    (.single (Idle.calm ⟨rfl, rfl, rfl⟩ _) rfl))

end

section

variable {σ σ' : Store} {env env' : Env} {stack stack' : List Waiting} {depth depth' : Nat}

theorem Awaits.makes {n : Nat} {c : FuncId} {ctx : List Waiting}
    (h : Awaits S P pin stack n (.func c) env ctx) : Makes S c := by
  cases h with
  | given _ _ hfn => exact .inl hfn
  | operand _ _ _ _ _ _ _ _ _ hcode => exact .inr ⟨_, hcode, rfl⟩
  | choice _ _ _ _ _ _ _ _ _ hcode => exact .inr ⟨_, hcode, rfl⟩

/-- Handing a value to a continuation starts with the continuation; then the
stacks correspond, and the value is to be evaluated. -/
theorem walks_deliver (hS : S.Sound) (hσ : StorePair S P σ σ') {n : Nat} {k : Option Expr}
    {ctx : List Waiting} (hk : Awaits S P pin stack n (.expr k) env' ctx)
    (hwants : wantsValue stack = true) (hs : StackRel S pin P stack stack')
    (hpin : ∀ v c env, pin v → ctx = [.operands .call [c] [] env] → stack = [] →
      σ.lookup env v = .ok c) (f : Expr) :
    ∃ stack₁ τ, Walks S ⟨.eval (deliver k f) env', stack', depth', σ'⟩
      ⟨.eval f env', stack₁, depth', τ⟩ ∧ StorePair S P σ τ ∧
      StackRel S pin P (ctx ++ stack) stack₁ := by
  have hcalm {v : Variable} (stack : List Waiting) :
      Calm (Makes S) ⟨.eval (.ref v) env', stack, depth', σ'⟩ := Idle.calm ⟨rfl, rfl, rfl⟩ _
  cases hk with
  | none => exact ⟨stack', σ', .refl _, hσ, hs⟩
  | lambda t hfunc =>
      obtain ⟨g, hg⟩ := hfunc.exists_func hS
      exact ⟨_, _, walks_callee f (calm_lambda hfunc.makes t _ · _ _) fun _ => free_lambda hg,
        hσ.beyond (Beyond.newTag P σ') hσ.aside.newTag, .kont _ _ hfunc hwants hs⟩
  | held _ hsees hfunc =>
      exact ⟨_, _, walks_callee f hcalm fun _ => free_ref (hsees.lookup hσ), hσ,
        .kont _ _ hfunc hwants hs⟩
  | @pinned _ v env _ c hv hbelow _ hagrees =>
      have hc := hpin v c env hv rfl hbelow
      rcases hσ.lookup hagrees with ⟨x, x', hx, hx', hpair⟩ | ⟨failure, hfail, -⟩
      · rw [hc] at hx
        cases hx
        refine ⟨_, _, walks_callee f hcalm fun _ => free_ref hx', hσ, .cons ?_ hs⟩
        have hview : View S P (fun _ => False) False env env' := ⟨fun _ h => h.elim, False.elim⟩
        exact .operands hview .call (.cons hpair .nil) .nil
      · rw [hc] at hfail
        cases hfail

/-! ## Frames of continuations -/

/-- The variables of a continuation's activation. -/
theorem lookup_activation {f : Func} {q : Variable} (hparams : f.params = [q]) (v : Value) (x : Nat) :
    (activation f [v]).lookup x =
      if x ∈ f.locals.map Variable.id then some .null else if x = q.id then some v else none := by
  rw [activation_eq, Bindings.lookup_bindAll_null, hparams]
  simp [Bindings.bindAll, Bindings.lookup_bind]

/-- What a call of a continuation leaves behind: a new frame that is not known
yet, with the values of its variables. -/
structure Opened (S : Sides) (P : Pairing) (σ τ : Store) (j : FrameId) : Prop where
  stores : StorePair S P σ τ
  lt : j < τ.frames.size
  fresh : ¬ P.Knows j
  away : ¬ S.aside.frame j

def veiled (P : Pairing) (τ : Store) (j : FrameId) : Pairing :=
  P.addPlain j fun x v => τ.binding j x = some v

namespace Opened

variable {τ : Store} {j : FrameId}

theorem newFrame (hσ : StorePair S P σ σ') (bs : Bindings) :
    Opened S P σ (σ'.newFrame bs).2 σ'.frames.size where
  stores := hσ.beyond (Beyond.newFrame bs fun hk => hσ.knows_lt hk) (hσ.aside.newFrame bs)
  lt := by simp [Store.newFrame]
  fresh hk := Nat.lt_irrefl _ (hσ.knows_lt hk)
  away := hσ.away_frame

theorem le (h : Opened S P σ τ j) : P ≤ veiled P τ j :=
  Pairing.le_addPlain _ h.fresh

theorem pair (h : Opened S P σ τ j) : StorePair S (veiled P τ j) σ τ :=
  h.stores.addPlain _ h.lt h.fresh h.away
    (fun _ hx => Option.eq_none_iff_forall_not_mem.2 fun v hv => hx ⟨v, hv⟩) fun _ _ hv => hv

theorem hidden_iff (h : Opened S P σ τ j) {x : Nat} {v : Value} :
    (veiled P τ j).hidden j x v ↔ τ.binding j x = some v := by
  refine ⟨?_, fun hv => .inr ⟨rfl, hv⟩⟩
  rintro (hv | ⟨-, hv⟩)
  · exact absurd (h.stores.placed hv) h.fresh
  · exact hv

theorem veils (h : Opened S P σ τ j) {n : Nat} (hbinding : ∀ x v, τ.binding j x = some v → n ≤ x) :
    Veils (veiled P τ j) n j :=
  ⟨.inr rfl, fun hv => hbinding _ _ (h.hidden_iff.1 hv)⟩

theorem sees (h : Opened S P σ τ j) {x : Nat} {v : Value} (hv : τ.binding j x = some v) (env : Env) :
    Sees (veiled P τ j) x v (j :: env) :=
  .here (h.hidden_iff.2 hv)

theorem sees_skip (h : Opened S P σ τ j) {x : Nat} {v : Value} (hx : τ.binding j x = none)
    (hv : Sees P x v env) : Sees (veiled P τ j) x v (j :: env) := by
  refine .skip (.inr rfl) ?_ (hv.mono h.le)
  rintro ⟨u, hu⟩
  rw [h.hidden_iff, hx] at hu
  cases hu

end Opened

/-! ## Values for continuations -/

theorem func_of_code {p : Program} {c : FuncId} {code : Code} (h : p.code? c = some code) :
    ∃ f, p.func? c = some f ∧ f.params = code.params ∧ f.locals = code.locals ∧
      f.body = code.body := by
  obtain ⟨f, hf, rfl⟩ := Option.map_eq_some_iff.1 h
  exact ⟨f, hf, rfl, rfl, rfl⟩

/-- Variables with numbers of their own stay visible below a frame that has
another one, which joins them. -/
theorem sees_concat {τ : Store} {j : FrameId} (hopened : Opened S P σ τ j) {q : Variable} {v : Value}
    (hbinding : ∀ x, τ.binding j x = if x = q.id then some v else none) {ps : List Variable}
    {done : List Value} {base : Env} (hsees : List.Forall₂ (fun p v => Sees P p.id v base) ps done)
    (hne : ∀ p ∈ ps, p.id ≠ q.id) :
    List.Forall₂ (fun p v => Sees (veiled P τ j) p.id v (j :: base)) (ps ++ [q]) (done ++ [v]) := by
  refine List.rel_append ?_ (.cons (hopened.sees (by rw [hbinding, if_pos rfl]) base) .nil)
  induction hsees with
  | nil => exact .nil
  | cons hp _ ih =>
      refine .cons (hopened.sees_skip ?_ hp) (ih fun p h => hne p (.tail _ h))
      rw [hbinding, if_neg (hne _ (.head _))]

/-- Two ways share a continuation: if it is a literal, the frame comes to hold its
value. -/
theorem Shares.walks {k shared : Option Expr} {locals : List Variable} {prologue : List Stmt}
    (h : Shares k locals prologue shared) {τ : Store} {j : FrameId} (hopened : Opened S P σ τ j)
    (hlocals : ∀ s ∈ locals, (τ.binding j s.id).isSome)
    (hfunc : ∀ fn t, k = some (.lambda fn t) → Makes S fn ∧ ∃ g, S.target.func? fn = some g)
    (base : Env) (rest : List Stmt) (below : List Waiting) (d : Nat) :
    ∃ υ, Walks S ⟨.complete .normal, .block (prologue ++ rest) (j :: base) :: below, d, τ⟩
        ⟨.complete .normal, .block rest (j :: base) :: below, d, υ⟩ ∧ Opened S P σ υ j ∧
      (∀ x, x ∉ locals.map Variable.id → υ.binding j x = τ.binding j x) ∧
      ∀ fn t s, k = some (.lambda fn t) → shared = some (.ref s) →
        ∃ tag, υ.binding j s.id = some (.closure tag fn (j :: base)) := by
  cases h with
  | lambda fn t s =>
      obtain ⟨hmakes, g, hg⟩ := hfunc fn t rfl
      have hwalks {u u' : State}
          (h : Steps (free S.target) (fun u => Calm (· = fn) u ∧ callee? u = none) u u') :
          Walks S u u' :=
        h.transfer fun u (hu : Calm (· = fn) u ∧ callee? u = none) =>
          ⟨⟨fun _ hlit => hu.1.literal _ hlit ▸ hmakes, hu.1.name, hu.1.native⟩, rfl⟩
      refine ⟨_, hwalks (runs_setting hg (hlocals s (.head _))),
        ⟨?_, ?_, hopened.fresh, hopened.away⟩, fun x hx => ?_, ?_⟩
      · exact hopened.stores.beyond
          ((Beyond.newTag P τ).trans (Beyond.setBinding hopened.fresh s _))
          (hopened.stores.aside.newTag.setBinding_away hopened.away hopened.lt s _)
      · simpa [Store.newTag, Store.setBinding] using hopened.lt
      · rw [Store.binding_setBinding (by exact hopened.lt), if_neg]
        · rfl
        · rintro ⟨-, rfl⟩
          exact hx (.head _)
      · rintro _ _ _ ⟨⟩ ⟨⟩
        exact ⟨τ.tags, by rw [Store.binding_setBinding (by exact hopened.lt), if_pos ⟨rfl, rfl⟩]⟩
  | same hk =>
      exact ⟨τ, .refl _, hopened, fun _ _ => rfl, fun fn t s heq => absurd heq (hk fn t)⟩

/-- The continuation that two ways share is the one around them. -/
theorem Shares.awaits {k shared : Option Expr} {locals : List Variable} {prologue : List Stmt}
    (h : Shares k locals prologue shared) {τ : Store} {j : FrameId} (hopened : Opened S P σ τ j)
    {base : Env} (hheld : ∀ fn t s, k = some (.lambda fn t) → shared = some (.ref s) →
      ∃ tag, τ.binding j s.id = some (.closure tag fn (j :: base)))
    {n m : Nat} (hveils : Veils (veiled P τ j) n j) (hnm : n ≤ m) (hbounds : ∀ s ∈ locals, s.id < m)
    {ctx : List Waiting} (hk : Awaits S P pin stack n (.expr k) base ctx) :
    Awaits S (veiled P τ j) pin stack m (.expr shared) (j :: base) ctx := by
  cases h with
  | lambda fn t s =>
      obtain ⟨tag, htag⟩ := hheld fn t s rfl rfl
      cases hk with
      | lambda _ hfunc =>
          exact .held (hbounds s (.head _)) (hopened.sees htag base)
            ((hfunc.mono hopened.le).push hveils)
  | same => exact ((hk.mono hopened.le).push hveils).weaken hnm

namespace Moves

variable {v v' : Value}

/-- A step of work that both sides share. -/
theorem shared (hS : Rebuilds S) (hσ : StorePair S P σ σ') {focus focus' : Focus} {w w' : Waiting}
    (hf : FocusPair S P focus focus') (hfocus : Focus.starts focus = false)
    (hw : WaitingPair S P w w') (hs : StackRel S pin P stack stack')
    (hallows : S.Allows ⟨focus, w :: stack, depth, σ⟩) :
    Moves S pin P ⟨focus, w :: stack, depth, σ⟩ (free S.source ⟨focus, w :: stack, depth, σ⟩)
      ⟨focus', w' :: stack', depth', σ'⟩ := by
  rw [free_onto]
  refine of_stepPair (lockstep hS.toSound hσ hf (.cons hw .nil) ?_ hallows.top fun fn _ =>
    hS.plain fn) hs (.of_top hf hfocus hw) (free_onto S.target stack' focus' w' depth' σ')
  rintro e e' env env' rfl
  cases hfocus

/-- The continuation given at the outset is called on both sides. -/
theorem given (hS : Rebuilds S) (hσ : StorePair S P σ σ') (hv : ValuePair S P v v')
    (hs : StackRel S pin P stack stack') {fn : FuncId} {base : Env} {n : Nat} (hfn : S.known fn)
    (hclear : Clear S P (S.free fn) n env base) (tag tag' : Nat) (env₁ env₂ : Env) :
    Moves S pin P ⟨.value v, .operands .call [.closure tag fn env] [] env₁ :: stack, depth, σ⟩
      (free S.source ⟨.value v, .operands .call [.closure tag fn env] [] env₁ :: stack, depth, σ⟩)
      ⟨.value v', .operands .call [.closure tag' fn base] [] env₂ :: stack', depth', σ'⟩ := by
  obtain ⟨f, f', Q, R, hf, hf', hle, hσ', hview, hbody⟩ :=
    hσ.call hS.toSound hfn (hS.plain fn) (fun x hx => (hclear x hx).2) (.cons hv .nil)
  rw [free_call hf rfl]
  exact of_idle hle ⟨rfl, rfl, rfl⟩ ⟨rfl, rfl, rfl⟩ (free_call hf' rfl) (.refl _)
    (.run hσ' (.complete .normal) (.cons (.block hview hbody)
      (.cons (.call (hS.nameOf_eq hfn) (hS.plain fn)) (hs.mono hle))))

/-- A value of an operand: the next operand is evaluated, or the operation is
performed. -/
theorem operand (hS : Rebuilds S) (hσ : StorePair S P σ σ') (hv : ValuePair S P v v')
    (hwants : wantsValue stack = true) (hs : StackRel S pin P stack stack') {R : Nat → Prop}
    {n m : Nat} {task : Task} {done done' : List Value} {es : List Expr} {base : Env}
    {ps qs : List Variable} {q : Variable} {k : Option Expr} {f rest : Expr} {c : FuncId}
    {ctx : List Waiting} (hclear : Clear S P R n env base) (htask : TaskPair S P R False task task)
    (hdone : List.Forall₂ (ValuePair S P) done done')
    (hsees : List.Forall₂ (fun p v => Sees P p.id v base) ps done')
    (hes : ∀ e ∈ es, e.Covered S R False) (hf : Operates f task ((ps ++ q :: qs).map .ref))
    (hbounds : ∀ v ∈ ps ++ q :: qs, n ≤ v.id ∧ v.id < m)
    (hnodup : ((ps ++ q :: qs).map Variable.id).Nodup)
    (hrow : Row S.target m es qs (deliver k f) rest)
    (hcode : S.target.code? c = some ⟨"", [q], [], [.ret rest]⟩)
    (hk : Awaits S P pin stack n (.expr k) base ctx)
    (hallows : S.Allows ⟨.value v, .operands task done es env :: (ctx ++ stack), depth, σ⟩)
    (hpin : ∀ v c env, pin v → ctx = [.operands .call [c] [] env] → stack = [] →
      σ.lookup env v = .ok c) (tag : Nat) (env₁ : Env) :
    Moves S pin P ⟨.value v, .operands task done es env :: (ctx ++ stack), depth, σ⟩
      (free S.source ⟨.value v, .operands task done es env :: (ctx ++ stack), depth, σ⟩)
      ⟨.value v', .operands .call [.closure tag c base] [] env₁ :: stack', depth', σ'⟩ := by
  obtain ⟨g, hg, hparams, hlocals, hbody⟩ := func_of_code hcode
  have hq := hbounds q (by simp)
  have hmissing : rest.isMissing = false := hrow.isMissing (deliver_isMissing hf.isMissing)
  -- the call opens a frame that has the value of the operand
  let j := σ'.frames.size
  let τ := (σ'.newFrame (activation g [v'])).2
  have hopened : Opened S P σ τ j := .newFrame hσ _
  have hbinding (x : Nat) : τ.binding j x = if x = q.id then some v' else none := by
    rw [Store.binding_newFrame, if_pos rfl, lookup_activation hparams, hlocals]
    simp
  have hveils : Veils (veiled P τ j) n j := hopened.veils fun x u hu => by
    rw [hbinding] at hu
    split at hu
    · next hx => exact hx ▸ hq.1
    · cases hu
  have hne : ∀ p ∈ ps, p.id ≠ q.id := by
    intro p hp heq
    rw [List.map_append, List.nodup_append] at hnodup
    exact hnodup.2.2 _ (List.mem_map_of_mem hp) _ (List.mem_map_of_mem (List.mem_cons_self ..)) heq
  have hclear' := (hclear.mono hopened.le).push hveils
  have hk' := (hk.mono hopened.le).push hveils
  have hs' : StackRel S pin (veiled P τ j) stack
      (.operands .ret [] [] (j :: base) :: .block [] (j :: base) :: .call c :: stack') :=
    .tail c _ hwants (hs.mono hopened.le)
  have hwalks : Walks S
      ⟨.complete .normal, .block g.body (j :: base) :: .call c :: stack', depth' + 1, τ⟩
      ⟨.eval rest (j :: base), .operands .ret [] [] (j :: base) :: .block [] (j :: base) :: .call c ::
        stack', depth' + 1, τ⟩ := .of_idle (hbody ▸ runs_ret hmissing)
  have hvs := List.rel_append (valuesPair_mono hopened.le hdone) (.cons (hv.mono hopened.le) .nil)
  have hsees' := sees_concat hopened hbinding hsees hne
  cases hrow with
  | nil =>
      obtain ⟨stack₁, τ₁, hdeliver, hτ₁, hs₁⟩ := walks_deliver hS.toSound hopened.pair hk' hwants hs'
        hpin f
      have hrefs : Steps (free S.target) Idle ⟨.eval f (j :: base), stack₁, depth' + 1, τ₁⟩
          ⟨.value v', .operands task done' [] (j :: base) :: stack₁, depth' + 1, τ₁⟩ :=
        hf.runs_refs (hsees'.imp fun _ _ h => h.lookup hτ₁) rfl
      refine of_le hopened.le (of_walks (.head (Idle.calm ⟨rfl, rfl, rfl⟩ _) (free_call hg rfl)
        (hwalks.trans (hdeliver.trans (Walks.of_idle hrefs)))) ?_)
      exact shared hS hτ₁ (.value (hv.mono hopened.le)) rfl (.operands hclear'.view
        (htask.mono hopened.le) (valuesPair_mono hopened.le hdone) .nil) hs₁ hallows
  | @cons _ m' e _ rest' _ es q' qs c' t hrow hcode' hm hpasses =>
      have hsplit : (ps ++ [q]) ++ q' :: qs = ps ++ q :: q' :: qs := by simp
      have hawaits : Awaits S (veiled P τ j) pin stack m' (.func c') (j :: base)
          (.operands task (done ++ [v]) es env :: ctx) := by
        refine .operand hclear' (htask.mono hopened.le) hvs hsees' (fun e he => hes e (.tail _ he))
          ?_ ?_ ?_ hrow hcode' hm hk'
        all_goals
          rw [hsplit]
          assumption
      exact of_idle hopened.le ⟨rfl, rfl, rfl⟩ ⟨rfl, rfl, rfl⟩ (free_call hg rfl) hwalks
        (.convert hopened.pair (hclear'.weaken (by omega)) (hes e (.head _)) hpasses
          (.lambda t hawaits) hwants hs')

/-- A value of a test: one of the two ways is taken. -/
theorem choice (hS : Rebuilds S) (hσ : StorePair S P σ σ') (hv : ValuePair S P v v')
    (hwants : wantsValue stack = true) (hs : StackRel S pin P stack stack') {R : Nat → Prop}
    {n m : Nat} {task : Task} {e x a b : Expr} {yes no : Option Expr} {base : Env} {q : Variable}
    {locals : List Variable} {prologue : List Stmt} {k shared : Option Expr} {c : FuncId}
    {result : Ty} {ctx : List Waiting} (hclear : Clear S P R n env base)
    (hchooses : Chooses e task x yes no) (hcovered : e.Covered S R False)
    (hshares : Shares k locals prologue shared) (hbounds : ∀ v ∈ q :: locals, n ≤ v.id ∧ v.id < m)
    (hnodup : ((q :: locals).map Variable.id).Nodup) (hyes : Way S.target m q shared yes a)
    (hno : Way S.target m q shared no b)
    (hcode : S.target.code? c =
      some ⟨"", [q], locals, prologue ++ [.ret (.conditional (.ref q) a b result)]⟩)
    (hk : Awaits S P pin stack n (.expr k) base ctx)
    (hpin : ∀ v c env, pin v → ctx = [.operands .call [c] [] env] → stack = [] →
      σ.lookup env v = .ok c) (tag : Nat) (env₁ : Env) :
    Moves S pin P ⟨.value v, .operands task [] [] env :: (ctx ++ stack), depth, σ⟩
      (free S.source ⟨.value v, .operands task [] [] env :: (ctx ++ stack), depth, σ⟩)
      ⟨.value v', .operands .call [.closure tag c base] [] env₁ :: stack', depth', σ'⟩ := by
  obtain ⟨g, hg, hparams, hlocals, hbody⟩ := func_of_code hcode
  have hq := hbounds q (.head _)
  obtain ⟨hqlocals, -⟩ := List.nodup_cons.1 hnodup
  let j := σ'.frames.size
  let τ := (σ'.newFrame (activation g [v'])).2
  have hbinding (x : Nat) : τ.binding j x =
      if x ∈ locals.map Variable.id then some .null else if x = q.id then some v' else none := by
    rw [Store.binding_newFrame, if_pos rfl, lookup_activation hparams, hlocals]
  obtain ⟨υ, hprologue, hopened, hothers, hheld⟩ := hshares.walks
    (Opened.newFrame hσ (activation g [v']))
    (fun s hs => by rw [hbinding, if_pos (List.mem_map_of_mem hs)]; rfl)
    (fun fn t heq => by
      subst heq
      cases hk with
      | lambda _ hfunc => exact ⟨hfunc.makes, hfunc.exists_func hS.toSound⟩)
    base [.ret (.conditional (.ref q) a b result)] (.call c :: stack') (depth' + 1)
  have hqv : υ.binding j q.id = some v' := by
    rw [hothers q.id hqlocals, hbinding, if_neg hqlocals, if_pos rfl]
  have hveils : Veils (veiled P υ j) n j := hopened.veils fun x u hu => by
    by_cases hx : x ∈ locals.map Variable.id
    · obtain ⟨w, hw, rfl⟩ := List.mem_map.1 hx
      exact (hbounds w (.tail _ hw)).1
    · rw [hothers x hx, hbinding, if_neg hx] at hu
      split at hu
      · next heq => exact heq ▸ hq.1
      · cases hu
  have hclear' := (hclear.mono hopened.le).push hveils
  have hawaits := hshares.awaits hopened hheld hveils (Nat.le_of_lt (Nat.lt_of_le_of_lt hq.1 hq.2))
    (fun w hw => (hbounds w (.tail _ hw)).2) hk
  have hs' : StackRel S pin (veiled P υ j) stack
      (.operands .ret [] [] (j :: base) :: .block [] (j :: base) :: .call c :: stack') :=
    .tail c _ hwants (hs.mono hopened.le)
  have hwalks : Walks S
      ⟨.complete .normal, .block g.body (j :: base) :: .call c :: stack', depth' + 1, τ⟩
      ⟨.eval (chosen v' a b) (j :: base), .operands .ret [] [] (j :: base) ::
        .block [] (j :: base) :: .call c :: stack', depth' + 1, υ⟩ := by
    have hlookup := (hopened.sees hqv base).lookup hopened.pair
    rw [hbody]
    exact hprologue.trans (Walks.of_idle ((runs_ret rfl).trans (.head ⟨rfl, rfl, rfl⟩ rfl
      (.head ⟨rfl, rfl, rfl⟩ (free_ref hlookup) (.single ⟨rfl, rfl, rfl⟩ rfl)))))
  have hway : Way S.target m q shared (chosen v yes no) (chosen v' a b) := by
    unfold chosen
    rw [← hv.truthy_eq]
    split
    · exact hyes
    · exact hno
  obtain ⟨-, hyesCovered, hnoCovered⟩ := hchooses.covered hcovered
  have hcoveredWay : ∀ y, chosen v yes no = some y → y.Covered S R False := by
    unfold chosen
    split
    · exact hyesCovered
    · exact hnoCovered
  obtain ⟨hnone, hsome⟩ := hchooses.free_value S.source v env (ctx ++ stack) depth σ
  generalize chosen v yes no = way at hway hcoveredWay hnone hsome
  generalize chosen v' a b = way' at hway hwalks
  have hidle : Idle ⟨.value v, .operands task [] [] env :: (ctx ++ stack), depth, σ⟩ := by
    cases hchooses <;> exact ⟨rfl, rfl, rfl⟩
  cases hway with
  | stay =>
      obtain ⟨stack₁, τ₁, hdeliver, hτ₁, hs₁⟩ := walks_deliver hS.toSound hopened.pair hawaits hwants
        hs' hpin (.ref q)
      have hlookup := (hopened.sees hqv base).lookup hτ₁
      rw [hnone rfl]
      exact of_idle hopened.le hidle ⟨rfl, rfl, rfl⟩ (free_call hg rfl)
        (hwalks.trans (hdeliver.trans (.single (Idle.calm ⟨rfl, rfl, rfl⟩ _) (free_ref hlookup))))
        (.run hτ₁ (.value (hv.mono hopened.le)) hs₁)
  | @go _ m' _ _ y y' hm hpasses =>
      rw [hsome y rfl]
      exact of_idle hopened.le hidle ⟨rfl, rfl, rfl⟩ (free_call hg rfl) hwalks
        (.convert hopened.pair (hclear'.weaken (by omega)) (hcoveredWay y rfl) hpasses
          (hawaits.weaken hm) hwants hs')

/-- A value for a continuation. -/
theorem kont (hS : Rebuilds S) (hσ : StorePair S P σ σ') (hv : ValuePair S P v v')
    (hwants : wantsValue stack = true) (hs : StackRel S pin P stack stack') {n : Nat} {c : FuncId}
    {base : Env} {ctx : List Waiting} (h : Awaits S P pin stack n (.func c) base ctx)
    (hallows : S.Allows ⟨.value v, ctx ++ stack, depth, σ⟩)
    (hpins : Pins pin ⟨.value v, ctx ++ stack, depth, σ⟩) (tag : Nat) (env₁ : Env) :
    Moves S pin P ⟨.value v, ctx ++ stack, depth, σ⟩
      (free S.source ⟨.value v, ctx ++ stack, depth, σ⟩)
      ⟨.value v', .operands .call [.closure tag c base] [] env₁ :: stack', depth', σ'⟩ := by
  have hpin {w : Waiting} {more : List Waiting} (heq : ctx = w :: more) : ∀ v c env, pin v →
      more = [.operands .call [c] [] env] → stack = [] → σ.lookup env v = .ok c := by
    rintro v c env hv rfl rfl
    exact hpins v hv c env (by simp [heq])
  cases h with
  | given tag₀ env₀ hfn hclear => exact given hS hσ hv hs hfn hclear ..
  | operand hclear htask hdone hsees hes hf hbounds hnodup hrow hcode _ hk =>
      exact operand hS hσ hv hwants hs hclear htask hdone hsees hes hf hbounds hnodup hrow hcode hk
        hallows (hpin rfl) ..
  | choice result hclear hchooses hcovered hshares hbounds hnodup hyes hno hcode _ hk =>
      exact choice hS hσ hv hwants hs hclear hchooses hcovered hshares hbounds hnodup hyes hno hcode
        hk (hpin rfl) ..

/-! ## All steps -/

/-- A step of an expression or a statement that both sides share. -/
theorem starts (hS : Rebuilds S) (hσ : StorePair S P σ σ') {focus focus' : Focus}
    (hf : FocusPair S P focus focus') (hfocus : Focus.starts focus = true)
    (hshared : ∀ e e' env env', focus = .eval e env → focus' = .eval e' env' → e = e')
    (hs : StackRel S pin P stack stack') (hallows : S.Allows ⟨focus, stack, depth, σ⟩) :
    Moves S pin P ⟨focus, stack, depth, σ⟩ (free S.source ⟨focus, stack, depth, σ⟩)
      ⟨focus', stack', depth', σ'⟩ := by
  have hfocus' : Focus.starts focus' = true := by cases hf <;> first | rfl | cases hfocus
  have hechoes : ShowsAlike S P ⟨focus, stack, depth, σ⟩ ⟨focus', stack', depth', σ'⟩ :=
    .of_starts hf hfocus hshared
  have hstep := free_onto_of_starts S.source stack hfocus [] depth σ
  rw [List.nil_append] at hstep
  rw [hstep]
  exact of_stepPair (lockstep hS.toSound hσ hf .nil hshared (hallows.starts hfocus) fun fn _ =>
    hS.plain fn) hs hechoes (free_onto_of_starts S.target stack' hfocus' [] depth' σ')

/-- A value for what waits. -/
theorem value (hS : Rebuilds S) (hσ : StorePair S P σ σ') (hv : ValuePair S P v v')
    (hs : StackRel S pin P stack stack') (hallows : S.Allows ⟨.value v, stack, depth, σ⟩)
    (hpins : Pins pin ⟨.value v, stack, depth, σ⟩) :
    Moves S pin P ⟨.value v, stack, depth, σ⟩ (free S.source ⟨.value v, stack, depth, σ⟩)
      ⟨.value v', stack', depth', σ'⟩ := by
  induction hs generalizing depth' with
  | nil =>
      exact .halt (Pairing.le_refl P) (.refl _) (.of_idle ⟨rfl, rfl, rfl⟩ ⟨rfl, rfl, rfl⟩) rfl hσ
        (.ok hv)
  | cons hw hs _ => exact shared hS hσ (.value hv) rfl hw hs hallows
  | tail c env _ _ ih => exact of_walks (.of_idle (runs_return c v')) (ih hallows hpins)
  | kont tag env hawaits hwants hs _ => exact kont hS hσ hv hwants hs hawaits hallows hpins tag env

/-- A thrown value leaves the continuations of the target at once. -/
theorem thrown (hS : Rebuilds S) (hσ : StorePair S P σ σ') (hv : ValuePair S P v v')
    (hs : StackRel S pin P stack stack') (hallows : S.Allows ⟨.thrown v, stack, depth, σ⟩) :
    Moves S pin P ⟨.thrown v, stack, depth, σ⟩ (free S.source ⟨.thrown v, stack, depth, σ⟩)
      ⟨.thrown v', stack', depth', σ'⟩ := by
  induction hs generalizing depth' with
  | nil =>
      exact .halt (Pairing.le_refl P) (.refl _) (.of_idle ⟨rfl, rfl, rfl⟩ ⟨rfl, rfl, rfl⟩) rfl hσ
        (.thrown hv)
  | cons hw hs _ => exact shared hS hσ (.thrown hv) rfl hw hs hallows
  | tail c env _ _ ih => exact of_walks (.of_idle (runs_throw c v')) (ih hallows)
  | kont tag env hawaits _ hs _ =>
      obtain ⟨task, done, es, e, more, rfl⟩ := hawaits.exists_cons
      exact of_idle (Pairing.le_refl P) ⟨rfl, rfl, rfl⟩ ⟨rfl, rfl, rfl⟩ rfl (.refl _)
        (.unwind hσ hv (fun w hw => hawaits.isOperands w (.tail _ hw)) hs)

end Moves

/-- A step of an expression that has been rebuilt. -/
theorem Follows.convert (hS : Rebuilds S) (hσ : StorePair S P σ σ') {R : Nat → Prop} {n : Nat}
    {e e' : Expr} {k : Option Expr} {ctx : List Waiting} (hclear : Clear S P R n env env')
    (hcovered : e.Covered S R False) (hpasses : Passes S.target n e k e')
    (hk : Awaits S P pin stack n (.expr k) env' ctx) (hwants : wantsValue stack = true)
    (hs : StackRel S pin P stack stack')
    (hallows : S.Allows ⟨.eval e env, ctx ++ stack, depth, σ⟩)
    (hpins : Pins pin ⟨.eval e env, ctx ++ stack, depth, σ⟩) :
    Follows S pin P ⟨.eval e env, ctx ++ stack, depth, σ⟩
      (free S.source ⟨.eval e env, ctx ++ stack, depth, σ⟩) ⟨.eval e' env', stack', depth', σ'⟩ := by
  cases hpasses with
  | whole _ hwhole =>
      obtain ⟨stack₁, τ, hdeliver, hτ, hs₁⟩ := walks_deliver hS.toSound hσ hk hwants hs
        (fun v c env hv hctx hstack => hpins v hv c env (by simp [hctx, hstack])) e
      refine .moves (.of_walks hdeliver (.starts hS hτ (.eval hclear.view hcovered.pair) rfl ?_ hs₁
        hallows))
      rintro _ _ _ _ ⟨⟩ ⟨⟩
      rfl
  | @operates _ m _ f _ task x es q qs _ hop hf hbounds hnodup hrow =>
      rw [hop.free_eq]
      cases hrow with
      | @cons _ m' _ _ _ _ _ _ _ c t hrow hcode hm hx =>
          have hq := hbounds q (.head _)
          have hawaits : Awaits S P pin stack m' (.func c) env' (.operands task [] es env :: ctx) :=
            .operand hclear (hop.taskPair hcovered) .nil .nil
              (fun e he => hop.covered hcovered e (.tail _ he)) hf hbounds hnodup hrow hcode hm hk
          exact .stay hop.idle hop.nodes_lt (.convert hσ (hclear.weaken (by omega))
            (hop.covered hcovered x (.head _)) hx (.lambda t hawaits) hwants hs)
  | @chooses _ m m' _ x _ task yes no q locals prologue _ shared a b c result t hchooses hshares
      hbounds hnodup hyes hno hcode hm hx =>
      rw [hchooses.free_eq]
      have hq := hbounds q (.head _)
      have hawaits : Awaits S P pin stack m' (.func c) env' (.operands task [] [] env :: ctx) :=
        .choice result hclear hchooses hcovered hshares hbounds hnodup hyes hno hcode hm hk
      exact .stay hchooses.idle hchooses.nodes_lt (.convert hσ (hclear.weaken (by omega))
        (hchooses.covered hcovered).1 hx (.lambda t hawaits) hwants hs)

/-- Statements do not end above continuations. -/
theorem StackRel.exists_cons (h : StackRel S pin P stack stack') (hwants : wantsValue stack = false) :
    ∃ w w' rest rest', stack = w :: rest ∧ stack' = w' :: rest' ∧ WaitingPair S P w w' ∧
      StackRel S pin P rest rest' := by
  cases h with
  | nil => cases hwants
  | cons hw hs => exact ⟨_, _, _, _, rfl, rfl, hw, hs⟩
  | tail _ _ h => rw [h] at hwants; cases hwants
  | kont _ _ hawaits =>
      obtain ⟨task, done, es, e, more, rfl⟩ := hawaits.exists_cons
      cases hwants

/-- Every step is followed. -/
theorem Related.follows (hS : Rebuilds S) {s' : State} (h : Related S pin P s s')
    (horderly : Orderly s) (hallows : S.Allows s) (hpins : Pins pin s) :
    Follows S pin P s (free S.source s) s' := by
  cases h with
  | @run focus focus' stack stack' depth depth' σ σ' hσ hf hs =>
      cases hf with
      | @eval R T env env' e e' hview he =>
          by_cases hsame : e = e'
          · refine .moves (.starts hS hσ (.eval hview he) rfl ?_ hs hallows)
            rintro _ _ _ _ ⟨⟩ ⟨⟩
            exact hsame
          · rcases hS.rebuilt (he.2.resolve_left hsame) with
              ⟨n, hpasses, hbelow⟩ | ⟨callee, x, x', t, rfl, rfl, hslot⟩
            · have hclear : Clear S P (fun x => R x ∧ x < n) n env env' := fun x hx =>
                ⟨hx.2, hview.agrees x hx.1⟩
              exact .convert hS hσ hclear (he.1.and hbelow) hpasses (.none n env') horderly.2 hs
                hallows hpins
            · obtain ⟨hcallee, hx⟩ := Expr.covered_call.1 he.1
              exact .moves (.of_idle (Pairing.le_refl P) ⟨rfl, rfl, rfl⟩ ⟨rfl, rfl, rfl⟩ rfl (.refl _)
                (.run hσ (.eval hview ⟨hcallee, .inl rfl⟩) (.cons (.operands hview .call .nil
                  (.cons ⟨hx x (.head _), .inr hslot⟩ .nil)) hs)))
      | exec hview hst =>
          refine .moves (.starts hS hσ (.exec hview hst) rfl ?_ hs hallows)
          rintro _ _ _ _ ⟨⟩
      | value hv => exact .moves (.value hS hσ hv hs hallows hpins)
      | complete hc =>
          obtain ⟨w, w', rest, rest', rfl, rfl, hw, hs⟩ := hs.exists_cons horderly.2
          exact .moves (.shared hS hσ (.complete hc) rfl hw hs hallows)
      | thrown hv => exact .moves (.thrown hS hσ hv hs hallows)
  | convert hσ hclear hcovered hpasses hk hwants hs =>
      exact .convert hS hσ hclear hcovered hpasses hk hwants hs hallows hpins
  | @unwind v v' ctx stack stack' depth depth' σ σ' hσ hv hctx hs =>
      cases ctx with
      | nil => exact .moves (.thrown hS hσ hv hs hallows)
      | cons w ctx =>
          have hw := hctx w (.head _)
          cases w with
          | operands =>
              exact .stay ⟨rfl, rfl, rfl⟩ (Nat.lt_succ_self _)
                (.unwind hσ hv (fun w hw => hctx w (.tail _ hw)) hs)
          | _ => cases hw

/-! ## Runs -/

theorem Related.stores {s' : State} (h : Related S pin P s s') :
    StorePair S P s.store s'.store := by
  cases h with
  | run h => exact h
  | convert h => exact h
  | unwind h => exact h

/-- What corresponds stays so along whole runs. The states of the target are `ok'`
if this is so of states that show nothing or the same as a state of the source. -/
theorem Related.simulates (hS : Rebuilds S) (P : Pairing) {ok ok' : State → Prop}
    (hok : ∀ s, ok s → S.Allows s ∧ Pins pin s) (hcalm : ∀ s', Calm (Makes S) s' → ok' s')
    (hechoes : ∀ {Q n n' s s'}, P ≤ Q → Embeds Q.tag n n' → ok s → ShowsAlike S Q s s' → ok' s') :
    Simulates (free S.source) ok (free S.target) ok'
      (fun s s' => Orderly s ∧ ∃ Q, P ≤ Q ∧ Related S pin Q s s')
      (fun r σ r' σ' => ∃ Q, P ≤ Q ∧ StorePair S Q σ σ' ∧ ResultPair S Q r r') := by
  have hwalks {t t' : State} (h : Walks S t t') : Steps (free S.target) ok' t t' :=
    h.transfer fun u hu => ⟨hcalm u hu, rfl⟩
  constructor
  · rintro s s' t ⟨horderly, Q, hle, hrel⟩ hs hstep
    have hfollows := hrel.follows hS horderly (hok s hs).1 (hok s hs).2
    rw [hstep] at hfollows
    cases hfollows with
    | stay _ _ hrel => exact ⟨s', .refl s', horderly.free hstep, Q, hle, hrel⟩
    | moves h =>
        cases h with
        | idle hgrow _ hfirst hstep' hrest hrel =>
            exact ⟨_, .head (hcalm _ hfirst) hstep' (hwalks hrest), horderly.free hstep, _,
              Pairing.le_trans hle hgrow, hrel⟩
        | echo hgrow hm hechoed hstep' hrel =>
            have hgrown := Pairing.le_trans hle hgrow
            exact ⟨_, (hwalks hm).trans
              (.single (hechoes hgrown hrel.stores.tags hs hechoed) hstep'), horderly.free hstep, _,
              hgrown, hrel⟩
  · rintro s s' r σ ⟨horderly, Q, hle, hrel⟩ hs hstep
    have hfollows := hrel.follows hS horderly (hok s hs).1 (hok s hs).2
    rw [hstep] at hfollows
    cases hfollows with
    | moves h =>
        cases h with
        | halt hgrow hm hechoed hstep' hσ hr =>
            have hgrown := Pairing.le_trans hle hgrow
            exact ⟨_, _, ⟨_, hwalks hm, hechoes hgrown hσ.tags hs hechoed, hstep'⟩, _, hgrown, hσ, hr⟩

/-- The source does not go on for ever while the target ends: it cannot leave the
target at rest for long. -/
theorem Related.ends_of_target (hS : Rebuilds S) {s' : State} (h : Related S pin P s s')
    (horderly : Orderly s) (hok : ∀ t, Runs S.source s t → S.Allows t ∧ Pins pin t)
    {answer : Except Failure Value × Store} {fuel : Nat}
    (hends : watch (free S.target) (fun _ => true) fuel s' = some answer) :
    ∃ r σ, Ends (free S.source) (fun s => S.Allows s ∧ Pins pin s) s r σ := by
  have hruns {t t' : State} (h : Walks S t t') : Runs S.target t t' :=
    h.transfer fun _ _ => ⟨trivial, rfl⟩
  induction fuel using Nat.strongRecOn generalizing P s s' with
  | ind fuel ihFuel =>
      induction hlag : lag s using Nat.strongRecOn generalizing P s with
      | ind n ihLag =>
          have hhere := hok s (.refl s)
          have hfollows := h.follows hS horderly hhere.1 hhere.2
          cases hstep : free S.source s with
          | halt r σ => exact ⟨r, σ, .of_halt hhere hstep⟩
          | next t =>
              rw [hstep] at hfollows
              have horderly' := horderly.free hstep
              have hok' : ∀ u, Runs S.source t u → S.Allows u ∧ Pins pin u :=
                fun u hu => hok u (.head trivial hstep hu)
              suffices hrest : ∃ r σ, Ends (free S.source) (fun s => S.Allows s ∧ Pins pin s) t r σ by
                obtain ⟨r, σ, hrest⟩ := hrest
                exact ⟨r, σ, .of_step hhere hstep hrest⟩
              cases hfollows with
              | stay _ hlt hrel => exact ihLag (lag t) (hlag ▸ hlt) hrel horderly' hok' rfl
              | moves h =>
                  cases h with
                  | idle _ _ _ hstep' hrest hrel =>
                      obtain ⟨fuel', hlt, hends'⟩ := watch_of_steps hstep' (hruns hrest) hends
                      exact ihFuel fuel' hlt hrel horderly' hok' hends'
                  | echo _ hm _ hstep' hrel =>
                      obtain ⟨fuel', hlt, hends'⟩ :
                          ∃ fuel', fuel' < fuel ∧ watch (free S.target) _ fuel' _ = some answer := by
                        cases hruns hm with
                        | refl => exact watch_of_steps hstep' (Steps.refl _ : Runs S.target _ _) hends
                        | head _ hfirst hm =>
                            exact watch_of_steps hfirst (hm.trans (.single trivial hstep')) hends
                      exact ihFuel fuel' hlt hrel horderly' hok' hends'

end

end Resumable.Continuation
