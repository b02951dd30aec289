import Resumable.Proofs.Lockstep.Code

/-!
# Calls in lockstep

Calls of natives and of known functions with paired arguments have
corresponding outcomes.
-/

namespace Resumable

/-! ## Activations -/

def Bindings.bindAll (bs : Bindings) (entries : List (Variable × Value)) : Bindings :=
  entries.foldl (fun bs (v, x) => Bindings.bind bs v x) bs

theorem Bindings.isSome_lookup_bindAll {bs : Bindings} {entries : List (Variable × Value)} {x : Nat} :
    ((bs.bindAll entries).lookup x).isSome ↔ x ∈ entries.map (·.1.id) ∨ (bs.lookup x).isSome := by
  induction entries generalizing bs with
  | nil => simp [bindAll]
  | cons entry rest ih =>
      obtain ⟨v, y⟩ := entry
      refine ih.trans ?_
      rw [Bindings.lookup_bind]
      by_cases hx : x = v.id <;> simp [hx]

theorem Bindings.lookup_bindAll_null (bs : Bindings) (vs : List Variable) (x : Nat) :
    (vs.foldl (fun bs v => Bindings.bind bs v .null) bs).lookup x =
      if x ∈ vs.map (·.id) then some .null else bs.lookup x := by
  induction vs generalizing bs with
  | nil => simp
  | cons v rest ih =>
      rw [List.foldl_cons, ih, Bindings.lookup_bind]
      by_cases hx : x = v.id
      · simp [hx]
      · simp [hx]

theorem Machine.activation_eq (f : Func) (args : List Value) :
    activation f args =
      f.locals.foldl (fun bs v => Bindings.bind bs v .null)
        (Bindings.bindAll []
          (f.params.zip (args ++ List.replicate f.params.length .null))) := rfl

/-- An activation has the parameters and locals of its function. -/
theorem Machine.isSome_lookup_activation {f : Func} {args : List Value} {x : Nat} :
    ((activation f args).lookup x).isSome ↔ x ∈ f.vars := by
  have hids : (f.params.zip (args ++ List.replicate f.params.length Value.null)).map (·.1.id) =
      f.params.map (·.id) := by
    have hfst : (f.params.zip (args ++ List.replicate f.params.length Value.null)).map (·.1) =
        f.params := List.map_fst_zip (by simp)
    conv_rhs => rw [← hfst]
    simp
  rw [activation_eq, Bindings.lookup_bindAll_null]
  split
  · next hlocal => simp [Func.vars, List.mem_map.1 hlocal]
  · next hlocal =>
      rw [Bindings.isSome_lookup_bindAll, hids, Func.vars, List.map_append, List.mem_append]
      simp [hlocal]

section

variable {S : Sides} {P : Pairing}

theorem OptionPair.bindAll {bs bs' : Bindings}
    (hbs : ∀ x, OptionPair S P (bs.lookup x) (bs'.lookup x)) (params : List Variable)
    {args args' : List Value} (hargs : List.Forall₂ (ValuePair S P) args args') (x : Nat) :
    OptionPair S P ((bs.bindAll (params.zip args)).lookup x)
      ((bs'.bindAll (params.zip args')).lookup x) := by
  induction params generalizing bs bs' args args' with
  | nil => exact hbs x
  | cons v rest ih =>
      cases hargs with
      | nil => exact hbs x
      | cons hv hrest =>
          refine ih (fun y => ?_) hrest
          rw [Bindings.lookup_bind, Bindings.lookup_bind]
          split
          · exact .some hv
          · exact hbs y

theorem nullsPair (n : Nat) :
    List.Forall₂ (ValuePair S P) (List.replicate n .null) (List.replicate n .null) := by
  induction n with
  | zero => exact .nil
  | succ n ih => exact .cons .null ih

/-- Activations of functions with the same variables on paired arguments. -/
theorem OptionPair.activation {f f' : Func} (hparams : f.params = f'.params)
    (hlocals : f.locals = f'.locals) {args args' : List Value}
    (hargs : List.Forall₂ (ValuePair S P) args args') (x : Nat) :
    OptionPair S P ((Machine.activation f args).lookup x)
      ((Machine.activation f' args').lookup x) := by
  rw [Machine.activation_eq, Machine.activation_eq, Bindings.lookup_bindAll_null,
    Bindings.lookup_bindAll_null, ← hparams, ← hlocals]
  split
  · exact .some .null
  · exact OptionPair.bindAll (fun _ => .none) f.params
      (List.rel_append hargs (nullsPair _)) x

end

/-! ## Outcomes -/

/-- The run goes on with the result of an operator, or ends if it has none. -/
def Machine.answer (stack : List Waiting) (depth : Nat) (store : Store) :
    Except Failure Value → Step
  | .ok v => give stack depth store v
  | .error f => fail store f

namespace StepPair

open Machine

variable {S : Sides} {P : Pairing} {σ σ' : Store} {stack stack' : List Waiting}
  {depth depth' : Nat}

theorem fail (hσ : StorePair S P σ σ') {f : Failure} (hf : ∀ v, f ≠ .thrown v) :
    StepPair S P (Machine.fail σ f) (Machine.fail σ' f) :=
  .halt (Pairing.le_refl P) hσ (.failure hf)

theorem give (hσ : StorePair S P σ σ') (hs : StackPair S P stack stack') {v v' : Value}
    (hv : ValuePair S P v v') :
    StepPair S P (Machine.give stack depth σ v) (Machine.give stack' depth' σ' v') :=
  .next (Pairing.le_refl P) hσ (.value hv) hs

theorem complete (hσ : StorePair S P σ σ') (hs : StackPair S P stack stack')
    {c c' : Completion} (hc : CompletionPair S P c c') :
    StepPair S P (Machine.complete stack depth σ c) (Machine.complete stack' depth' σ' c') :=
  .next (Pairing.le_refl P) hσ (.complete hc) hs

theorem evaluate (hσ : StorePair S P σ σ') (hs : StackPair S P stack stack') {R : Nat → Prop}
    {T : Prop} {env env' : Env} (hview : View S P R T env env') {e e' : Expr}
    (he : ExprPair S R T e e') :
    StepPair S P (Machine.evaluate e env stack depth σ) (Machine.evaluate e' env' stack' depth' σ') :=
  .next (Pairing.le_refl P) hσ (.eval hview he) hs

theorem enterBlock (hσ : StorePair S P σ σ') (hs : StackPair S P stack stack') {R : Nat → Prop}
    {T : Prop} {env env' : Env} (hview : View S P R T env env') {body body' : List Stmt}
    (hb : StmtsPair S R T body body') :
    StepPair S P (Machine.enterBlock body env stack depth σ)
      (Machine.enterBlock body' env' stack' depth' σ') :=
  .next (Pairing.le_refl P) hσ (.complete .normal) (.cons (.block hview hb) hs)

theorem answer (hσ : StorePair S P σ σ') (hs : StackPair S P stack stack')
    {r r' : Except Failure Value} (hr : ResultPair S P r r') :
    StepPair S P (Machine.answer stack depth σ r) (Machine.answer stack' depth' σ' r') := by
  cases hr with
  | ok hv => exact give hσ hs hv
  | thrown hv => exact .halt (Pairing.le_refl P) hσ (.thrown hv)
  | failure hf => exact fail hσ hf

theorem of_le {Q : Pairing} (h : P ≤ Q) {s s' : Step} (hs : StepPair S Q s s') :
    StepPair S P s s' := by
  cases hs with
  | next hle hσ hf hstack => exact .next (Pairing.le_trans h hle) hσ hf hstack
  | halt hle hσ hr => exact .halt (Pairing.le_trans h hle) hσ hr

end StepPair

/-! ## Calls -/

section

variable {S : Sides} {P : Pairing} {σ σ' : Store}

theorem ValuePair.headD {vs vs' : List Value} (h : List.Forall₂ (ValuePair S P) vs vs') :
    ValuePair S P (vs.headD .null) (vs'.headD .null) := by
  cases h with
  | nil => exact .null
  | cons hv _ => exact hv

theorem ValuePair.getD {vs vs' : List Value} (h : List.Forall₂ (ValuePair S P) vs vs') (n : Nat) :
    ValuePair S P (vs.getD n .null) (vs'.getD n .null) := by
  induction h generalizing n with
  | nil => exact .null
  | cons hv _ ih =>
      cases n with
      | zero => exact hv
      | succ n => exact ih n

theorem ValuePair.map_format (hS : S.Shows) {vs vs' : List Value}
    (h : List.Forall₂ (ValuePair S P) vs vs') :
    vs.map (·.format S.source) = vs'.map (·.format S.target) := by
  induction h with
  | nil => rfl
  | cons hv _ ih => rw [List.map_cons, List.map_cons, hv.format_eq hS, ih]

theorem ValuePair.map_display (hS : S.Shows) {vs vs' : List Value}
    (h : List.Forall₂ (ValuePair S P) vs vs') :
    vs.map (·.display S.source) = vs'.map (·.display S.target) := by
  induction h with
  | nil => rfl
  | cons hv _ ih => rw [List.map_cons, List.map_cons, hv.display_eq hS, ih]

theorem StorePair.record (hσ : StorePair S P σ σ') {v v' : Value} (hv : ValuePair S P v v') :
    StorePair S P { σ with recorded := σ.recorded.push v }
      { σ' with recorded := σ'.recorded.push v' } := by
  refine { hσ with
    recorded := fun hheard => ?_
    aside := hσ.aside.record _ }
  simpa using List.rel_append (hσ.recorded hheard) (.cons hv .nil)

/-- Activations of functions with the same variables get paired frames. -/
theorem StorePair.activate (hσ : StorePair S P σ σ') {f f' : Func} (hparams : f.params = f'.params)
    (hlocals : f.locals = f'.locals) {args args' : List Value}
    (hargs : List.Forall₂ (ValuePair S P) args args') {R : Nat → Prop} {env env' : Env}
    (henv : ∀ x, R x → P.Agrees S x env env') :
    ∃ Q, P ≤ Q ∧ StorePair S Q (σ.newFrame (Machine.activation f args)).2
        (σ'.newFrame (Machine.activation f' args')).2 ∧
      View S Q (fun x => R x ∨ x ∈ f.vars) True (σ.frames.size :: env) (σ'.frames.size :: env') := by
  have hfresh : ¬ P.Knows σ'.frames.size := fun hk => Nat.lt_irrefl _ (hσ.knows_lt hk)
  have hbeyond := hσ.beyond
    (Beyond.newFrame (Machine.activation f' args') fun hk => hσ.knows_lt hk)
    (hσ.aside.newFrame _)
  have hpair := hbeyond.pairFrame (Machine.activation f args) (· ∈ f.vars) (fun _ _ => False)
    (by simp [Store.newFrame] : σ'.frames.size < (σ'.newFrame _).2.frames.size)
    hfresh hσ.away_frame (fun hab => hσ.frames.right hab)
      (fun x hx => Machine.isSome_lookup_activation.2 hx)
    (fun x _ => by
      rw [Store.binding_newFrame, if_pos rfl]
      exact OptionPair.activation hparams hlocals hargs x)
    (fun _ _ h => h.elim)
  have hle := Pairing.le_addFrame σ.frames.size (· ∈ f.vars) (fun _ _ => False) hfresh
  refine ⟨_, hle, hpair, fun x hx => ?_, fun _ => .inr ⟨rfl, rfl⟩⟩
  have hhides : ¬ (P.addFrame σ.frames.size σ'.frames.size (· ∈ f.vars)
      fun _ _ => False).Hides σ'.frames.size x := by
    rintro ⟨v, hv | ⟨-, hv⟩⟩
    · exact hfresh (hσ.placed hv)
    · exact hv
  rcases hx with hx | hx
  · exact .frame (.inr ⟨rfl, rfl⟩) hhides ((henv x hx).mono hle)
  · exact .found (.inr ⟨rfl, rfl⟩) hhides (.inr ⟨rfl, hx⟩)

/-- A function on both sides goes on with its body in a new frame. -/
theorem StorePair.call (hS : S.Sound) (hσ : StorePair S P σ σ') {fn : FuncId} (hfn : S.known fn)
    (hplain : ¬ S.special fn) {env env' : Env} (henv : ∀ x, S.free fn x → P.Agrees S x env env')
    {args args' : List Value} (hargs : List.Forall₂ (ValuePair S P) args args') :
    ∃ f f' Q R, S.source.func? fn = some f ∧ S.target.func? fn = some f' ∧ P ≤ Q ∧
      StorePair S Q (σ.newFrame (Machine.activation f args)).2
        (σ'.newFrame (Machine.activation f' args')).2 ∧
      View S Q R True (σ.frames.size :: env) (σ'.frames.size :: env') ∧
      StmtsPair S R True f.body f'.body := by
  obtain ⟨f, f', hf, hf', hparams, hlocals, hbody⟩ := hS.body hfn hplain
  obtain ⟨Q, hle, hpair, hview⟩ := hσ.activate hparams hlocals hargs henv
  exact ⟨f, f', Q, S.Reads fn f, hf, hf', hle, hpair, hview, hbody⟩

end

namespace StepPair

open Machine

variable {S : Sides} {P : Pairing} {σ σ' : Store} {stack stack' : List Waiting}
  {depth depth' d d' : Nat}

theorem callNative (hS : S.Shows) (hheard : S.heard) (hσ : StorePair S P σ σ')
    (hs : StackPair S P stack stack') (name : String) (kind : NativeKind) {args args' : List Value}
    (hargs : List.Forall₂ (ValuePair S P) args args') :
    StepPair S P (Machine.callNative ⟨S.source, d⟩ name kind args stack depth σ)
      (Machine.callNative ⟨S.target, d'⟩ name kind args' stack' depth' σ') := by
  cases kind with
  | trace =>
      simp only [Machine.callNative, ValuePair.map_format hS hargs, hσ.trace hheard]
      exact give (hσ.setTrace _) hs (.int _)
  | identity => exact give hσ hs (ValuePair.headD hargs)
  | throw => exact .next (Pairing.le_refl P) hσ (.thrown (ValuePair.headD hargs)) hs
  | fail => exact fail hσ nofun
  | count =>
      simp only [Machine.callNative, hargs.length_eq]
      exact give hσ hs (.int _)
  | record => exact give (hσ.record (ValuePair.headD hargs)) hs .null

/-- A call of a value under limits that allow it. -/
theorem callValue (hS : S.Sound) (hσ : StorePair S P σ σ') (hs : StackPair S P stack stack')
    {callee callee' : Value} (hcallee : ValuePair S P callee callee')
    (hplain : ∀ tag fn env, callee = .closure tag fn env → ¬ S.special fn)
    (hd : depth < d) (hd' : depth' < d') {args args' : List Value}
    (hargs : List.Forall₂ (ValuePair S P) args args') :
    StepPair S P (Machine.callValue ⟨S.source, d⟩ callee args stack depth σ)
      (Machine.callValue ⟨S.target, d'⟩ callee' args' stack' depth' σ') := by
  have hformat := hcallee.format_eq hS.toShows
  cases hcallee with
  | native name kind hheard ht => exact callNative hS.toShows hheard hσ hs name kind hargs
  | @closure tag tag' fn env env' ht hfn ha hl =>
      obtain ⟨f, f', Q, R, hf, hf', hle, hσ', hview, hbody⟩ :=
        hσ.call hS hfn (hplain tag fn env rfl) ha hargs
      simp only [Machine.callValue, if_neg (Nat.not_le.2 hd), if_neg (Nat.not_le.2 hd'), hf, hf']
      exact of_le hle (enterBlock hσ' (.cons (.call (hS.nameOf_eq hfn) (hplain tag fn env rfl))
        (hs.mono hle)) hview hbody)
  | _ =>
      simp only [Machine.callValue, hformat]
      exact fail hσ nofun

end StepPair

end Resumable
