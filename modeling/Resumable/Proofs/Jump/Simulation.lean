import Resumable.Proofs.Jump.Layout

/-!
# Fragments follow jumps

Every step of the jump machine is followed by steps of the machine that runs
the fragments. Calls of the function itself are left to it.
-/

namespace Resumable

open Machine

/-- A state of the target goes on to a state that corresponds to the outcome of
a step. -/
inductive Follows (S : Sides) (L : Layout) (P : Pairing) : Step → State → Prop where
  | next {Q : Pairing} {t s' t' : State} : P ≤ Q → Runs S.target s' t' → Related S L Q t t' →
      Follows S L P (.next t) s'
  | halt {Q : Pairing} {r r' : Except Failure Value} {σ σ' : Store} {s' : State} : P ≤ Q →
      Ends (free S.target) (fun _ => True) s' r' σ' → StorePair S Q σ σ' → ResultPair S Q r r' →
      Follows S L P (.halt r σ) s'

structure Layout.Sound (S : Sides) (L : Layout) : Prop where
  special : S.special L.id
  slot : ∀ e e', ¬ S.slot e e'
  body : ∃ f, S.source.func? L.id = some f ∧ f.body = L.code
  fragment : ∀ {l v}, L.vars.lookup l = some v → ∃ rest g, Stmt.after? l L.code = some rest ∧
    S.target.func? (L.fragment l) = some g ∧ g.params = [] ∧ g.locals = [] ∧
    Turns S L rest g.body
  call : ∀ {P σ σ' v v' done done' env env' stack stack' depth depth' fn}, StorePair S P σ σ' →
    ValuePair S P v v' → List.Forall₂ (ValuePair S P) done done' →
    StackRel S L P stack stack' →
    callee? ⟨.value v, .operands .call done [] env :: stack, depth, σ⟩ = some fn → S.special fn →
    Follows S L P
      (jump S.source L.id ⟨.value v, .operands .call done [] env :: stack, depth, σ⟩)
      ⟨.value v', .operands .call done' [] env' :: stack', depth', σ'⟩

variable {S : Sides} {L : Layout} {P Q : Pairing}

namespace Follows

theorem of_runs {step : Step} {s' t' : State} (hruns : Runs S.target s' t')
    (h : Follows S L P step t') : Follows S L P step s' := by
  cases h with
  | next hle hrest hrel => exact .next hle (hruns.trans hrest) hrel
  | halt hle hends hσ hr => exact .halt hle (hruns.ends hends) hσ hr

theorem here {t t' : State} (h : Related S L P t t') : Follows S L P (.next t) t' :=
  .next (Pairing.le_refl P) (.refl t') h

theorem step {t s' t' : State} (hstep : free S.target s' = .next t')
    (h : Related S L P t t') : Follows S L P (.next t) s' :=
  .next (Pairing.le_refl P) (.single trivial hstep) h

/-- Corresponding steps of the tops of two stacks. -/
theorem of_stepPair {st st' : Step} (h : StepPair S P st st') {stack stack' : List Waiting}
    (hs : StackRel S L P stack stack') {s' : State}
    (hstep : free S.target s' = st'.onto stack') : Follows S L P (st.onto stack) s' := by
  cases h with
  | next hle hσ hf htops =>
      exact .next hle (.single trivial hstep) (.run hσ hf ((hs.mono hle).append htops))
  | halt hle hσ hr => exact .halt hle (.of_halt trivial hstep) hσ hr

end Follows

/-! ## Calls that wait -/

section

variable {p : Program} {below pending dead : List Waiting} {σ : Store}

theorem runs_returned_dead (hdead : ∀ w ∈ dead, w.isInert = true) (v : Value) (depth : Nat) :
    Runs p ⟨.complete (.returned v), dead ++ below, depth, σ⟩
      ⟨.complete (.returned v), below, depth, σ⟩ := by
  induction dead with
  | nil => exact .refl _
  | cons w dead ih =>
      refine .head trivial ?_ (ih fun w hw => hdead w (.tail _ hw))
      have hw := hdead w (.head _)
      cases w with
      | block rest env => cases rest <;> rfl
      | switch label => rfl
      | _ => cases hw

theorem runs_thrown_dead (hdead : ∀ w ∈ dead, w.passesThrown = true) (v : Value) (depth : Nat) :
    Runs p ⟨.thrown v, dead ++ below, depth, σ⟩ ⟨.thrown v, below, depth, σ⟩ := by
  induction dead with
  | nil => exact .refl _
  | cons w dead ih =>
      refine .head trivial ?_ (ih fun w hw => hdead w (.tail _ hw))
      have hw := hdead w (.head _)
      cases w with
      | operands => rfl
      | block => rfl
      | switch => rfl
      | _ => cases hw

/-- A value returned by the innermost fragment is the value of the whole call. -/
theorem Pending.runs_returned (h : Pending below pending) (v : Value) (depth : Nat) :
    ∃ depth', Runs p ⟨.complete (.returned v), pending, depth, σ⟩ ⟨.value v, below, depth', σ⟩ := by
  induction h generalizing depth with
  | base fn => exact ⟨depth - 1, .single trivial rfl⟩
  | @call fn env dead rest hdead _ ih =>
      obtain ⟨depth', hrest⟩ := ih (depth - 1)
      refine ⟨depth', .head trivial rfl (.head trivial rfl ?_)⟩
      exact (runs_returned_dead hdead v (depth - 1)).trans hrest

theorem Pending.runs_normal (h : Pending below pending) (depth : Nat) :
    ∃ depth', Runs p ⟨.complete .normal, pending, depth, σ⟩ ⟨.value .null, below, depth', σ⟩ := by
  cases h with
  | base fn => exact ⟨depth - 1, .single trivial rfl⟩
  | call fn env hdead hrest =>
      obtain ⟨depth', hrest⟩ := hrest.runs_returned .null (depth - 1)
      refine ⟨depth', .head trivial rfl (.head trivial rfl ?_)⟩
      exact (runs_returned_dead hdead .null (depth - 1)).trans hrest

theorem Pending.runs_thrown (h : Pending below pending) (v : Value) (depth : Nat) :
    ∃ depth', Runs p ⟨.thrown v, pending, depth, σ⟩ ⟨.thrown v, below, depth', σ⟩ := by
  induction h generalizing depth with
  | base fn => exact ⟨depth - 1, .single trivial rfl⟩
  | @call fn env dead rest hdead _ ih =>
      obtain ⟨depth', hrest⟩ := ih (depth - 1)
      refine ⟨depth', .head trivial rfl (.head trivial rfl ?_)⟩
      exact (runs_thrown_dead (fun w hw => Waiting.passesThrown_of_isInert (hdead w hw)) v
        (depth - 1)).trans hrest

end

/-! ## Jumps -/

/-- What the frame of an activation hides is found from within the activation. -/
theorem Rooted.base {σ σ' : Store} (hσ : StorePair S P σ σ') {env env' : Env}
    (hr : Rooted S L P env env') : ∃ j base, Root S L P env (j :: base) ∧
      ∀ (v : Variable) (x : Value), P.hidden j v.id x →
        σ'.lookup env' v = .ok x ∧ σ'.find? (j :: base) v = some x := by
  have hfind {j : FrameId} {base : Env} {v : Variable} {x : Value} (hx : P.hidden j v.id x) :
      σ'.find? (j :: base) v = some x := by
    simp [Store.find?, Store.frameOf?_cons, hσ.hidden hx]
  cases hr with
  | body hr =>
      cases hr with
      | mk hf hh ha hvars =>
          refine ⟨_, _, .mk hf hh ha hvars, fun v x hx => ⟨?_, hfind hx⟩⟩
          rw [Store.lookup_eq, hfind hx]
  | @fragment k env env' hr hp hh =>
      cases hr with
      | @mk i j env env' hf hh' ha hvars =>
          refine ⟨_, _, .mk hf hh' ha hvars, fun v x hx => ⟨?_, hfind hx⟩⟩
          have hskip : σ'.find? (k :: j :: env') v = σ'.find? (j :: env') v := by
            simp [Store.find?, Store.frameOf?_cons, hσ.bare hp (hh v.id)]
          rw [Store.lookup_eq, hskip, hfind hx]

/-- The variable of a label holds the fragment of the label. -/
theorem Rooted.find {σ σ' : Store} (hσ : StorePair S P σ σ') {env env' : Env}
    (hr : Rooted S L P env env') {l : String} {v : Variable} (hl : L.vars.lookup l = some v) :
    ∃ tag base, Root S L P env base ∧ σ'.lookup env' v = .ok (.closure tag (L.fragment l) base) := by
  obtain ⟨j, base, hroot, hlookup⟩ := hr.base hσ
  cases hroot with
  | mk hf hh ha hvars =>
      obtain ⟨tag, htag⟩ := hvars l v hl
      exact ⟨tag, _, .mk hf hh ha hvars, (hlookup v _ htag).1⟩

theorem tailCall_eq {vars : LabelVars} {l : String} {v : Variable} (h : vars.lookup l = some v) :
    Elimination.tailCall vars l = .ret (.mkCall (.ref v) []) := by
  simp [Elimination.tailCall, h]

/-- A jump in a fragment enters the fragment of its label. -/
theorem runs_tailCall {p : Program} {vars : LabelVars} {l : String} {v : Variable}
    (hl : vars.lookup l = some v) {env base : Env} {stack : List Waiting} {depth tag : Nat}
    {σ : Store} {fn : FuncId} {g : Func} (hv : σ.lookup env v = .ok (.closure tag fn base))
    (hg : p.func? fn = some g) (hparams : g.params = []) (hlocals : g.locals = []) :
    Runs p ⟨.exec (Elimination.tailCall vars l) env, stack, depth, σ⟩
      ⟨.complete .normal, .block g.body (σ.frames.size :: base) :: .call fn ::
        .operands .ret [] [] env :: stack, depth + 1, (σ.newFrame []).2⟩ := by
  have hactivation : activation g [] = [] := by simp [activation, hparams, hlocals]
  rw [tailCall_eq hl, ← hactivation]
  exact .head trivial rfl (.head trivial rfl
    (.head trivial (free_ref hv) (.single trivial (free_call hg rfl))))

theorem activeFn?_dead {dead stack : List Waiting} (hdead : ∀ w ∈ dead, w.isInert = true)
    (fn : FuncId) : activeFn? (dead ++ .call fn :: stack) = some fn := by
  induction dead with
  | nil => rfl
  | cons w dead ih =>
      have hw := hdead w (.head _)
      have hrest := ih fun w hw => hdead w (.tail _ hw)
      cases w <;> first | exact hrest | cases hw

theorem unwind_dead {dead stack : List Waiting} (hdead : ∀ w ∈ dead, w.isInert = true)
    (fn : FuncId) : Machine.unwind (dead ++ .call fn :: stack) = .call fn :: stack := by
  induction dead with
  | nil => rfl
  | cons w dead ih =>
      have hw := hdead w (.head _)
      have hrest := ih fun w hw => hdead w (.tail _ hw)
      cases w <;> first | exact hrest | cases hw

/-- A task of a simple statement ends the statement normally, or fails. -/
theorem perform_plain {cx : Context} {task : Task} (h : task.isPlain = true)
    {vs : List Value} {env : Env} {stack : List Waiting} {depth : Nat} {store : Store} {t : State}
    (hstep : perform cx task vs env stack depth store = .next t) :
    t.focus = .complete .normal ∧ t.stack = stack := by
  cases task
  case discard | assert | log | deleteField | deleteIndex =>
      simp only [perform] at hstep
      repeat' split at hstep
      all_goals first | (cases hstep; exact ⟨rfl, rfl⟩) | cases hstep
  all_goals cases h

namespace Follows

variable {σ σ' : Store} {env env' : Env} {stack stack' pending : List Waiting} {depth depth' : Nat}

/-- A jump leads on both sides to the code after its label. -/
theorem goto (hL : L.Sound S) (hσ : StorePair S P σ σ') (hr : Rooted S L P env env') {l : String}
    (hl : L.Has l) {dead dead' : List Waiting} (hdead : ∀ w ∈ dead, w.isInert = true)
    (hdead' : ∀ w ∈ dead', w.isInert = true) (hp : Pending stack' pending)
    (hs : StackRel S L P stack stack') :
    Follows S L P
      (Machine.jump S.source L.id ⟨.exec (.goto l) env, dead ++ .call L.id :: stack, depth, σ⟩)
      ⟨.exec (Elimination.tailCall L.vars l) env', dead' ++ pending, depth', σ'⟩ := by
  obtain ⟨v, hv⟩ := hl
  obtain ⟨f, hf, hcode⟩ := hL.body
  obtain ⟨rest, g, hafter, hg, hparams, hlocals, hturns⟩ := hL.fragment hv
  obtain ⟨tag, base, hroot, hlookup⟩ := hr.find hσ hv
  have hstep : Machine.jump S.source L.id
      ⟨.exec (.goto l) env, dead ++ .call L.id :: stack, depth, σ⟩ =
        .next ⟨.complete .normal, .block rest env :: .call L.id :: stack, depth, σ⟩ := by
    simp [Machine.jump, activeFn?_dead hdead, jumpExec, hf, hcode, hafter, unwind_dead hdead,
      enterBlock]
  obtain ⟨Q, hle, hplain, hnew, hbare⟩ := hσ.newPlain
  rw [hstep]
  exact .next hle (runs_tailCall hv hlookup hg hparams hlocals)
    (.block hplain (.fragment (hroot.mono hle) hnew hbare) hturns (.call _ _ hdead' hp) (hs.mono hle))

/-! ## Simple statements -/

/-- A task of a simple statement on paired values; then the rest of the block is
to run. -/
theorem plainTask (hS : S.Sound) (hσ : StorePair S P σ σ')
    (hr : Rooted S L P env env') {task : Task} (htask : task.isPlain = true) {vs vs' : List Value}
    (hvs : List.Forall₂ (ValuePair S P) vs vs')
    (hname : ∀ tag fn env, task.fieldName? vs = some (.closure tag fn env) → ¬ S.loose fn)
    {rest rest' : List Stmt} (hturns : Turns S L rest rest') (hp : Pending stack' pending)
    (hs : StackRel S L P stack stack') {s' : State}
    (hstep : free S.target s' = perform ⟨S.target, depth' + 1⟩ task vs' env'
      (.block rest' env' :: pending) depth' σ') :
    Follows S L P
      (perform ⟨S.source, depth + 1⟩ task vs env (.block rest env :: .call L.id :: stack) depth σ)
      s' := by
  have ht : TaskPair S P L.Reads False task task := by
    cases task
    case discard | assert | log | deleteField | deleteIndex => constructor
    all_goals cases htask
  have hpair := StepPair.perform hS hσ .nil hr.view ht hvs hname
    (fun hcall => by rw [hcall] at htask; cases htask) (Nat.lt_succ_self depth)
    (Nat.lt_succ_self depth')
  rw [← List.nil_append (.block rest env :: .call L.id :: stack), perform_onto]
  rw [← List.nil_append (.block rest' env' :: pending), perform_onto] at hstep
  generalize hsource : perform ⟨S.source, depth + 1⟩ task vs env [] depth σ = st at hpair ⊢
  generalize perform ⟨S.target, depth' + 1⟩ task vs' env' [] depth' σ' = st' at hpair hstep
  cases hpair with
  | next hle hσ' hf htops =>
      obtain ⟨hfocus, hstack⟩ := perform_plain htask hsource
      simp only at hfocus hstack
      subst hfocus hstack
      cases htops
      cases hf with
      | complete hc =>
          cases hc
          exact .next hle (.single trivial hstep) (.block hσ' (hr.mono hle) hturns hp (hs.mono hle))
  | halt hle hσ' hresult => exact .halt hle (.of_halt trivial hstep) hσ' hresult

/-- The operands of a simple statement and then its task. -/
theorem plainOperands (hS : S.Sound) (hσ : StorePair S P σ σ')
    (hr : Rooted S L P env env') {task : Task} (htask : task.isPlain = true) {es : List Expr}
    (hes : ∀ e ∈ es, e.Covered S L.Reads False) {rest rest' : List Stmt}
    (hturns : Turns S L rest rest') (hp : Pending stack' pending)
    (hs : StackRel S L P stack stack') {s' : State}
    (hstep : free S.target s' = operands ⟨S.target, depth' + 1⟩ task es env'
      (.block rest' env' :: pending) depth' σ') :
    Follows S L P
      (operands ⟨S.source, depth + 1⟩ task es env (.block rest env :: .call L.id :: stack) depth σ)
      s' := by
  cases es with
  | nil =>
      refine plainTask hS hσ hr htask .nil (fun tag fn env h => ?_) hturns hp hs hstep
      rw [Task.fieldName?_nil] at h
      cases h
  | cons e es =>
      exact .step hstep (.run hσ (.eval hr.view (hes e (.head _)).pair)
        (.own hr (.simple htask .nil (fun e he => hes e (.tail _ he)) hturns) hp hs))

theorem covered_of_same {R : Nat → Prop} {T : Prop} {es : List Expr}
    (h : List.Forall₂ (ExprPair S R T) es es) : ∀ e ∈ es, e.Covered S R T :=
  fun e he => (List.forall₂_same.1 h e he).1

/-- A simple statement that does not end its block. -/
theorem simple (hS : S.Sound) (hσ : StorePair S P σ σ')
    (hr : Rooted S L P env env') {s : Simple} (hlast : s.isTerminator = false)
    (hsimple : SimplePair S L.Reads False s s) (share share' : Option Nat) {rest rest' : List Stmt}
    (hturns : Turns S L rest rest') (hp : Pending stack' pending)
    (hs : StackRel S L P stack stack') :
    Follows S L P
      (free S.source ⟨.exec (.simple s share) env, .block rest env :: .call L.id :: stack, depth, σ⟩)
      ⟨.exec (.simple s share') env', .block rest' env' :: pending, depth', σ'⟩ := by
  have hfail {f : Failure} (hf : ∀ v, f ≠ .thrown v) {s' : State}
      (h : free S.target s' = .halt (.error f) σ') :
      Follows S L P (.halt (.error f) σ) s' :=
    .halt (Pairing.le_refl P) (.of_halt trivial h) hσ (.failure hf)
  cases hsimple with
  | @expr x _ hx =>
      change Follows S L P (operands ⟨S.source, depth + 1⟩ .discard [x] env _ depth σ) _
      exact plainOperands hS hσ hr rfl (List.forall_mem_singleton.2 hx.1) hturns hp hs rfl
  | ret hx => cases hlast
  | throw hx => cases hlast
  | yield _ => exact hfail (Failure.report_ne_thrown _) rfl
  | @delete x hx =>
      cases x
      case property x name t =>
          change Follows S L P (operands ⟨S.source, depth + 1⟩ (.deleteField name) [x] env _ depth σ) _
          refine plainOperands hS hσ hr rfl ?_ hturns hp hs rfl
          exact List.forall_mem_singleton.2 (Expr.covered_property.1 hx)
      case binary op x y t =>
          obtain ⟨hleft, hright⟩ := Expr.covered_binary.1 hx
          by_cases hop : op = .index
          · subst hop
            change Follows S L P (operands ⟨S.source, depth + 1⟩ .deleteIndex [y, x] env _ depth σ) _
            exact plainOperands hS hσ hr rfl
              (List.forall_mem_cons.2 ⟨hright, List.forall_mem_singleton.2 hleft⟩) hturns hp hs rfl
          · have hdelete (d : Nat) (p : Program) (env : Env) (stack : List Waiting) (σ : Store) :
                free p ⟨.exec (.simple (.delete (.binary op x y t)) share) env, stack, d, σ⟩ =
                  .halt (.error (.eval .typeError ("cannot delete " ++ op.text ++ " expression"))) σ ∧
                free p ⟨.exec (.simple (.delete (.binary op x y t)) share') env, stack, d, σ⟩ =
                  .halt (.error (.eval .typeError
                    ("cannot delete " ++ op.text ++ " expression"))) σ := by
              simp [free, Machine.step, stepExec, stepSimple, stepDelete, hop, fail]
            rw [(hdelete _ _ _ _ _).1]
            exact hfail (Failure.report_ne_thrown _) (hdelete _ _ _ _ _).2
      all_goals exact hfail (Failure.report_ne_thrown _) rfl
  | @assert x _ message hx =>
      change Follows S L P (operands ⟨S.source, depth + 1⟩ (.assert message) [x] env _ depth σ) _
      exact plainOperands hS hσ hr rfl (List.forall_mem_singleton.2 hx.1) hturns hp hs rfl
  | @log args _ hargs =>
      change Follows S L P (operands ⟨S.source, depth + 1⟩ .log args env _ depth σ) _
      exact plainOperands hS hσ hr rfl (covered_of_same hargs) hturns hp hs rfl
  | debugger => exact .step rfl (.block hσ hr hturns hp hs)
  | @super cls _ args _ hargs =>
      change Follows S L P (operands ⟨S.source, depth + 1⟩ .discard args env _ depth σ) _
      exact plainOperands hS hσ hr rfl (covered_of_same hargs) hturns hp hs rfl

/-! ## Dispatches -/

/-- The search for a case passes over a jump. -/
theorem scanCases_tailCall {l : String} {u : Variable} (hu : L.vars.lookup l = some u) (v : Value)
    (env : Env) (stack : List Waiting) (depth : Nat) (σ : Store) (rest : List Stmt)
    (fallback : Option (List Stmt)) :
    Machine.scanCases "" v env stack depth σ (Elimination.tailCall L.vars l :: rest) fallback =
      Machine.scanCases "" v env stack depth σ rest fallback := by
  rw [tailCall_eq hu]
  rfl

/-- A dispatch enters the switch at a jump. -/
theorem enterSwitch (hσ : StorePair S P σ σ') (hr : Rooted S L P env env') {body body' : List Stmt}
    (hbody : StartsJump L body body') (rest rest' : List Stmt) (hp : Pending stack' pending)
    (hs : StackRel S L P stack stack') {s' : State}
    (hstep : free S.target s' =
      Machine.enterSwitch "" body' env' (.block rest' env' :: pending) depth' σ') :
    Follows S L P
      (Machine.enterSwitch "" body env (.block rest env :: .call L.id :: stack) depth σ) s' := by
  obtain @⟨l, more, more', v, hv⟩ := hbody
  have hinert (rest : List Stmt) (env : Env) :
      ∀ w ∈ [Waiting.switch "", .block rest env], w.isInert = true := by simp [Waiting.isInert]
  have hkept : ((Elimination.tailCall L.vars l :: more').filter fun s => !s.isCaseMark) =
      Elimination.tailCall L.vars l :: more'.filter fun s => !s.isCaseMark := by
    simp [tailCall_eq hv, Stmt.isCaseMark]
  refine .step hstep ?_
  rw [hkept]
  exact .jump hσ hr (.mk _ _ ⟨v, hv⟩) (hinert rest env) (hinert rest' env') hp hs

theorem scanCases (hσ : StorePair S P σ σ') (hr : Rooted S L P env env')
    {v v' : Value} (hv : ValuePair S P v v') {body body' : List Stmt}
    (hbody : ArmsTurn S L body body') {fallback fallback' : Option (List Stmt)}
    (hfallback : Option.Rel (StartsJump L) fallback fallback') {rest rest' : List Stmt}
    (hturns : Turns S L rest rest') (hp : Pending stack' pending)
    (hs : StackRel S L P stack stack') {s' : State}
    (hstep : free S.target s' = Machine.scanCases "" v' env' (.block rest' env' :: pending) depth' σ'
      body' fallback') :
    Follows S L P
      (Machine.scanCases "" v env (.block rest env :: .call L.id :: stack) depth σ body fallback)
      s' := by
  induction hbody generalizing fallback fallback' with
  | nil =>
      cases hfallback with
      | none => exact .step hstep (.block hσ hr hturns hp hs)
      | some hjump => exact enterSwitch hσ hr hjump rest rest' hp hs hstep
  | @case x l more more' hx hl hmore _ =>
      exact .step hstep (.run hσ (.eval hr.view hx.pair)
        (.own hr (.arm hv hl hmore hfallback hturns) hp hs))
  | @default l more more' hl hmore ih =>
      obtain ⟨u, hu⟩ := hl
      exact ih (.some (.mk more more' ⟨u, hu⟩)) (hstep.trans (scanCases_tailCall hu ..))

/-! ## Statements -/

theorem runs_ret {x : Expr} (hx : x.isMissing = true) (share : Option Nat)
    (hp : Pending stack' pending) (env : Env) (rest : List Stmt) (depth : Nat) :
    ∃ depth', Runs S.target
      ⟨.exec (.simple (.ret x) share) env, .block rest env :: pending, depth, σ'⟩
      ⟨.value .null, stack', depth', σ'⟩ := by
  obtain ⟨depth', hruns⟩ := hp.runs_returned .null depth
  have hstep : free S.target ⟨.exec (.simple (.ret x) share) env, .block rest env :: pending,
      depth, σ'⟩ = .next ⟨.complete (.returned .null), .block rest env :: pending, depth, σ'⟩ := by
    simp [free, Machine.step, stepExec, stepSimple, hx, complete]
  exact ⟨depth', .head trivial hstep (.head trivial (by cases rest <;> rfl) hruns)⟩

/-- A statement of the activation. -/
theorem exec (hS : S.Sound) (hL : L.Sound S) (hσ : StorePair S P σ σ')
    (hr : Rooted S L P env env') {s s' : Stmt} {rest rest' : List Stmt}
    (hturns : TurnsAt S L s rest s' rest') (hp : Pending stack' pending)
    (hs : StackRel S L P stack stack') :
    Follows S L P
      (Machine.jump S.source L.id ⟨.exec s env, .block rest env :: .call L.id :: stack, depth, σ⟩)
      ⟨.exec s' env', .block rest' env' :: pending, depth', σ'⟩ := by
  have hview := hr.view
  have hinert (rest : List Stmt) (env : Env) :
      ∀ w ∈ [Waiting.block rest env], w.isInert = true := by simp [Waiting.isInert]
  have hactive : activeFn? (.block rest env :: .call L.id :: stack) = some L.id := rfl
  cases hturns with
  | @ret x share share' _ _ hx =>
      rw [jump_eq_free_of_simple]
      by_cases hmissing : x.isMissing = true
      · obtain ⟨depth', hruns⟩ := Follows.runs_ret hmissing share' hp env' rest' depth'
        have hstep : free S.source ⟨.exec (.simple (.ret x) share) env,
            .block rest env :: .call L.id :: stack, depth, σ⟩ = .next ⟨.complete (.returned .null),
              [.block rest env] ++ .call L.id :: stack, depth, σ⟩ := by
          simp [free, Machine.step, stepExec, stepSimple, hmissing, complete]
        rw [hstep]
        exact .next (Pairing.le_refl P) hruns (.leave hσ .null (hinert rest env) hs)
      · have hstep (p : Program) (share : Option Nat) (env : Env) (stack : List Waiting)
            (depth : Nat) (σ : Store) : free p ⟨.exec (.simple (.ret x) share) env, stack, depth, σ⟩ =
              .next ⟨.eval x env, .operands .ret [] [] env :: stack, depth, σ⟩ := by
          simp [free, Machine.step, stepExec, stepSimple, hmissing, operands, evaluate]
        rw [hstep]
        exact .step (hstep ..) (.run hσ (.eval hview hx.pair) (.own hr (.ret rest rest') hp hs))
  | throw share share' _ _ hx =>
      rw [jump_eq_free_of_simple]
      exact .step rfl (.run hσ (.eval hview hx.pair) (.own hr (.throw rest rest') hp hs))
  | goto _ _ hl => exact goto hL hσ hr hl (hinert rest env) (hinert rest' env') hp hs
  | condGoto _ _ hc ht he =>
      simp only [Machine.jump, hactive, if_true, jumpExec, Option.getD_some]
      exact .step rfl (.run hσ (.eval hview hc.pair)
        (.own hr (.branch rest rest' (.mk [] [] ht) (.mk [] [] he)) hp hs))
  | simple share share' hlast hsimple hrest =>
      rw [jump_eq_free_of_simple]
      exact simple hS hσ hr hlast hsimple share share' hrest hp hs
  | dispatch hx harms hrest =>
      simp only [Machine.jump, hactive, if_true, jumpExec, Option.getD_some]
      exact .step rfl (.run hσ (.eval hview hx.pair) (.own hr (.dispatch harms hrest) hp hs))
  | missing hrest =>
      have hfail (p : Program) (env : Env) (stack : List Waiting) (depth : Nat) (σ : Store) :
          free p ⟨.exec .missing env, stack, depth, σ⟩ = .halt (.error (.logicFlaw .eval
            ("unexpected statement " ++ Stmt.missing.nodeName))) σ := rfl
      simp only [Machine.jump, hactive, if_true, jumpExec, Option.getD_none, hfail]
      exact .halt (Pairing.le_refl P) (.of_halt trivial (hfail ..)) hσ
        (.failure (Failure.report_ne_thrown _))

end Follows

/-! ## The simulation -/

section

variable {σ σ' : Store} {env env' : Env} {stack stack' pending : List Waiting} {depth depth' : Nat}

/-- What waits above the rest of a block waits for a value, and a thrown value
passes over it. -/
theorem Tops.shape {tops tops' : List Waiting} {rest rest' : List Stmt}
    (ht : Tops S L P env env' tops rest tops' rest') :
    (∃ task done es e more, tops = .operands task done es e :: more) ∧
      (∀ w ∈ tops, w.passesThrown = true) ∧ ∀ w ∈ tops', w.passesThrown = true := by
  cases ht <;>
    exact ⟨⟨_, _, _, _, _, rfl⟩, by simp [Waiting.passesThrown], by simp [Waiting.passesThrown]⟩

/-- No activation of the function runs a statement on top of corresponding work. -/
theorem StackRel.inactive (hL : L.Sound S) (hs : StackRel S L P stack stack')
    (horderly : orderly stack = true) (hwants : wantsValue stack = false) :
    activeFn? stack ≠ some L.id := by
  induction hs with
  | nil => cases hwants
  | cons hw _ ih =>
      cases hw with
      | operands => cases hwants
      | call _ hspecial =>
          rintro ⟨⟩
          exact hspecial hL.special
      | _ =>
          simp only [orderly, Bool.and_eq_true, Bool.not_eq_true'] at horderly
          exact ih horderly.2 horderly.1
  | own hr ht =>
      obtain ⟨⟨_, _, _, _, _, rfl⟩, -⟩ := ht.shape
      cases hwants

namespace Follows

/-- A value for what waits above the rest of a block. -/
theorem valueOwn (hS : S.Sound) (hσ : StorePair S P σ σ')
    (hr : Rooted S L P env env') {tops tops' : List Waiting} {rest rest' : List Stmt}
    (ht : Tops S L P env env' tops rest tops' rest') (hp : Pending stack' pending)
    (hs : StackRel S L P stack stack') {v v' : Value} (hv : ValuePair S P v v')
    (hallows : S.Allows ⟨.value v, tops ++ .block rest env :: .call L.id :: stack, depth, σ⟩) :
    Follows S L P
      (Machine.jump S.source L.id
        ⟨.value v, tops ++ .block rest env :: .call L.id :: stack, depth, σ⟩)
      ⟨.value v', tops' ++ .block rest' env' :: pending, depth', σ'⟩ := by
  have hinert (rest : List Stmt) (env : Env) :
      ∀ w ∈ [Waiting.block rest env], w.isInert = true := by simp [Waiting.isInert]
  cases ht with
  | @simple task done done' es _ _ htask hdone hes hturns =>
      have hvs := List.rel_append hdone (.cons hv .nil)
      cases es with
      | nil => exact plainTask hS hσ hr htask hvs hallows.name hturns hp hs rfl
      | cons e es =>
          exact .step rfl (.run hσ (.eval hr.view (hes e (.head _)).pair)
            (.own hr (.simple htask hvs (fun e he => hes e (.tail _ he)) hturns) hp hs))
  | ret =>
      obtain ⟨depth', hruns⟩ := hp.runs_returned v' depth'
      refine .next (Pairing.le_refl P) (.head trivial rfl (.head trivial ?_ hruns))
        (.leave hσ hv (hinert rest env) hs)
      cases rest' <;> rfl
  | throw =>
      obtain ⟨depth', hruns⟩ := hp.runs_thrown v' depth'
      exact .next (Pairing.le_refl P) (.head trivial rfl (.head trivial rfl hruns))
        (.unwind hσ hv (fun w hw => Waiting.passesThrown_of_isInert (hinert rest env w hw)) hs)
  | @branch t t' e e' _ _ ht he =>
      have hjump {body body' : List Stmt} (hbody : StartsJump L body body') :
          Follows S L P
            (enterBlock body env (.block rest env :: .call L.id :: stack) depth σ)
            ⟨.complete .normal, .block body' env' :: .block rest' env' :: pending, depth', σ'⟩ :=
        .here (.jump hσ hr hbody (hinert rest env) (hinert rest' env') hp hs)
      have hstep (p : Program) (v : Value) (t e : List Stmt) (env : Env) (stack : List Waiting)
          (depth : Nat) (σ : Store) :
          free p ⟨.value v, .operands (.branch t e) [] [] env :: stack, depth, σ⟩ =
            enterBlock (if v.truthy then t else e) env stack depth σ := rfl
      change Follows S L P (free S.source ⟨.value v, .operands (.branch t e) [] [] env :: _,
        depth, σ⟩) _
      rw [hstep]
      refine .of_runs (.single trivial (hstep S.target v' t' e' env' _ depth' σ')) ?_
      rw [← hv.truthy_eq]
      cases v.truthy
      · exact hjump he
      · exact hjump ht
  | dispatch hbody hturns => exact scanCases hσ hr hv hbody .none hturns hp hs rfl
  | @arm x x' l more more' _ _ fallback fallback' hx hl hmore hfallback hturns =>
      have hstep (p : Program) (x v : Value) (body : List Stmt) (fallback : Option (List Stmt))
          (env : Env) (stack : List Waiting) (depth : Nat) (σ : Store) :
          free p ⟨.value v, .operands (.caseTest "" x body fallback) [] [] env :: stack, depth, σ⟩ =
            if x.equal v then Machine.enterSwitch "" body env stack depth σ
            else Machine.scanCases "" x env stack depth σ body fallback := rfl
      change Follows S L P (free S.source ⟨.value v, .operands (.caseTest "" x (.goto l :: more)
        fallback) [] [] env :: _, depth, σ⟩) _
      rw [hstep]
      have htarget := hstep S.target x' v' (Elimination.tailCall L.vars l :: more') fallback' env'
        (.block rest' env' :: pending) depth' σ'
      rw [← hx.equal_eq hσ hv] at htarget
      split
      · next heq =>
          rw [if_pos heq] at htarget
          exact enterSwitch hσ hr (.mk more more' hl) rest rest' hp hs htarget
      · next hne =>
          obtain ⟨u, hu⟩ := hl
          rw [if_neg hne] at htarget
          exact scanCases hσ hr hx hmore hfallback hturns hp hs
            (htarget.trans (scanCases_tailCall hu ..))

/-- A step of work that has no part in the activation. -/
theorem shared (hS : S.Sound) (hσ : StorePair S P σ σ') {focus focus' : Focus} {w w' : Waiting}
    (hf : FocusPair S P focus focus') (hfocus : Focus.starts focus = false)
    (hw : WaitingPair S P w w') (hs : StackRel S L P stack stack')
    (hallows : S.Allows ⟨focus, w :: stack, depth, σ⟩)
    (hplain : ∀ fn, callee? ⟨focus, w :: stack, depth, σ⟩ = some fn → ¬ S.special fn) :
    Follows S L P (Machine.jump S.source L.id ⟨focus, w :: stack, depth, σ⟩)
      ⟨focus', w' :: stack', depth', σ'⟩ := by
  rw [jump_eq_free_of_focus (by rintro s env rfl; cases hfocus), free_onto]
  refine of_stepPair (lockstep hS hσ hf (.cons hw .nil) ?_ hallows.top fun fn hfn => ?_) hs
    (free_onto S.target stack' focus' w' depth' σ')
  · rintro e e' env env' rfl
    cases hfocus
  · refine hplain fn (Eq.trans ?_ hfn)
    cases focus with
    | value v =>
        cases w with
        | operands task done rest env => cases task <;> cases rest <;> rfl
        | _ => rfl
    | _ => rfl

/-- A step of an expression or a statement outside of the activation. -/
theorem starts (hS : S.Sound) (hL : L.Sound S) (hσ : StorePair S P σ σ') {focus focus' : Focus}
    (hf : FocusPair S P focus focus') (hfocus : Focus.starts focus = true)
    (hs : StackRel S L P stack stack') (horderly : Orderly ⟨focus, stack, depth, σ⟩)
    (hallows : S.Allows ⟨focus, stack, depth, σ⟩) :
    Follows S L P (Machine.jump S.source L.id ⟨focus, stack, depth, σ⟩)
      ⟨focus', stack', depth', σ'⟩ := by
  have hfocus' : Focus.starts focus' = true := by cases hf <;> first | rfl | cases hfocus
  have hfree : Machine.jump S.source L.id ⟨focus, stack, depth, σ⟩ =
      free S.source ⟨focus, [] ++ stack, depth, σ⟩ := by
    cases focus
    case exec s env => exact jump_eq_free_of_inactive (hs.inactive hL horderly.1 horderly.2)
    all_goals rfl
  rw [hfree, free_onto_of_starts _ _ hfocus]
  refine of_stepPair (lockstep hS hσ hf .nil ?_ (hallows.starts hfocus) fun fn hfn => ?_) hs
    (free_onto_of_starts S.target stack' hfocus' [] depth' σ')
  · rintro e e' env env' rfl rfl
    cases hf with
    | eval _ he => exact he.2.resolve_right (hL.slot e e')
  · cases focus <;> cases hfn

/-- A step of work that may wait for the activation. -/
theorem run (hS : S.Sound) (hL : L.Sound S) (hσ : StorePair S P σ σ')
    {focus focus' : Focus} (hf : FocusPair S P focus focus') (hs : StackRel S L P stack stack')
    (horderly : Orderly ⟨focus, stack, depth, σ⟩) (hallows : S.Allows ⟨focus, stack, depth, σ⟩) :
    Follows S L P (Machine.jump S.source L.id ⟨focus, stack, depth, σ⟩)
      ⟨focus', stack', depth', σ'⟩ := by
  cases hstarts : Focus.starts focus with
  | true => exact starts hS hL hσ hf hstarts hs horderly hallows
  | false =>
      cases hs with
      | nil =>
          cases hf with
          | eval | exec => cases hstarts
          | value hv => exact .halt (Pairing.le_refl P) (.of_halt trivial rfl) hσ (.ok hv)
          | complete hc => cases horderly.2
          | thrown hv =>
              exact .halt (Pairing.le_refl P) (.of_halt trivial rfl) hσ (.thrown hv)
      | @cons w w' stack stack' hw hs =>
          by_cases hcall : ∃ fn, callee? ⟨focus, w :: stack, depth, σ⟩ = some fn ∧ S.special fn
          · obtain ⟨fn, hfn, hspecial⟩ := hcall
            cases hf with
            | value hv =>
                cases hw with
                | operands _ htask hdone hrest =>
                    cases htask with
                    | call =>
                        cases hrest with
                        | nil => exact hL.call hσ hv hdone hs hfn hspecial
                        | cons => cases hfn
                    | _ => cases hfn
                | _ => cases hfn
            | _ => cases hfn
          · exact shared hS hσ hf hstarts hw hs hallows fun fn hfn hspecial =>
              hcall ⟨fn, hfn, hspecial⟩
      | @own tops tops' rest rest' env env' stack stack' pending hr ht hp hs =>
          obtain ⟨⟨task, done, es, e, more, htops⟩, hpass, hpass'⟩ := ht.shape
          cases hf with
          | eval | exec => cases hstarts
          | value hv => exact valueOwn hS hσ hr ht hp hs hv hallows
          | complete hc =>
              subst htops
              cases horderly.2
          | @thrown v v' hv =>
              have hinert : ∀ w ∈ [Waiting.block rest' env'], w.passesThrown = true := by
                simp [Waiting.passesThrown]
              obtain ⟨depth₁, hruns⟩ := hp.runs_thrown v' depth'
              subst htops
              refine .next (Pairing.le_refl P) ((runs_thrown_dead hpass' v' depth').trans
                ((runs_thrown_dead hinert v' depth').trans hruns)) ?_
              have hdead : ∀ w ∈ more ++ [Waiting.block rest env], w.passesThrown = true :=
                List.forall_mem_append.2 ⟨fun w hw => hpass w (.tail _ hw), by
                  simp [Waiting.passesThrown]⟩
              simpa using Related.unwind hσ hv hdead hs

end Follows

/-- Every step of the jump machine is followed. -/
theorem Related.follows (hS : S.Sound) (hL : L.Sound S) {s s' : State}
    (h : Related S L P s s') (horderly : Orderly s) (hallows : S.Allows s) :
    Follows S L P (Machine.jump S.source L.id s) s' := by
  cases h with
  | run hσ hf hs => exact .run hS hL hσ hf hs horderly hallows
  | block hσ hr hturns hp hs =>
      cases hturns with
      | nil =>
          obtain ⟨depth₁, hruns⟩ := hp.runs_normal _
          exact .next (Pairing.le_refl P) (.head trivial rfl hruns) (.fall hσ hs)
      | head hturns => exact .step rfl (.exec hσ hr hturns hp hs)
  | exec hσ hr hturns hp hs => exact .exec hS hL hσ hr hturns hp hs
  | @jump body body' env env' dead dead' stack stack' pending depth depth' σ σ' hσ hr hbody hdead
      hdead' hp hs =>
      cases hbody with
      | mk rest rest' hl =>
          have hinert : ∀ w ∈ Waiting.block rest env :: dead, w.isInert = true :=
            List.forall_mem_cons.2 ⟨rfl, hdead⟩
          have hinert' : ∀ w ∈ Waiting.block rest' env' :: dead', w.isInert = true :=
            List.forall_mem_cons.2 ⟨rfl, hdead'⟩
          exact .step rfl (.goto hσ hr hl hinert hinert' hp hs)
  | goto hσ hr hl hdead hdead' hp hs => exact .goto hL hσ hr hl hdead hdead' hp hs
  | @leave v v' dead stack stack' depth depth' σ σ' hσ hv hdead hs =>
      cases dead with
      | nil => exact .here (.run hσ (.value hv) hs)
      | cons w dead =>
          have hw := hdead w (.head _)
          have hrest : Related S L P
              ⟨.complete (.returned v), dead ++ .call L.id :: stack, depth, σ⟩
              ⟨.value v', stack', depth', σ'⟩ := .leave hσ hv (fun w hw => hdead w (.tail _ hw)) hs
          cases w with
          | block rest env => cases rest <;> exact .here hrest
          | switch => exact .here hrest
          | _ => cases hw
  | fall hσ hs => exact .here (.run hσ (.value .null) hs)
  | @unwind v v' dead stack stack' depth depth' σ σ' hσ hv hdead hs =>
      cases dead with
      | nil => exact .here (.run hσ (.thrown hv) hs)
      | cons w dead =>
          have hw := hdead w (.head _)
          have hrest : Related S L P ⟨.thrown v, dead ++ .call L.id :: stack, depth, σ⟩
              ⟨.thrown v', stack', depth', σ'⟩ := .unwind hσ hv (fun w hw => hdead w (.tail _ hw)) hs
          cases w with
          | operands | block | switch => exact .here hrest
          | _ => cases hw

/-- What corresponds stays so along whole runs. -/
theorem Related.simulates (hS : S.Sound) (hL : L.Sound S) (P : Pairing) :
    Simulates (Machine.jump S.source L.id) S.Allows (free S.target)
      (fun _ => True) (fun s s' => Orderly s ∧ ∃ Q, P ≤ Q ∧ Related S L Q s s')
      (fun r σ r' σ' => ∃ Q, P ≤ Q ∧ StorePair S Q σ σ' ∧ ResultPair S Q r r') where
  step := by
    rintro s s' t ⟨horderly, Q, hle, hrel⟩ hallows hstep
    have hfollows := hrel.follows hS hL horderly hallows
    rw [hstep] at hfollows
    cases hfollows with
    | next hgrow hruns hrel =>
        exact ⟨_, hruns, horderly.jump hstep, _, Pairing.le_trans hle hgrow, hrel⟩
  halt := by
    rintro s s' r σ ⟨horderly, Q, hle, hrel⟩ hallows hstep
    have hfollows := hrel.follows hS hL horderly hallows
    rw [hstep] at hfollows
    cases hfollows with
    | halt hgrow hends hσ hresult =>
        exact ⟨_, _, hends, _, Pairing.le_trans hle hgrow, hσ, hresult⟩

end

end Resumable
