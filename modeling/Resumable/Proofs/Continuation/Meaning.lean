import Resumable.Proofs.Continuation.Bodies
import Resumable.Proofs.Jump.Removal

/-!
# Conversion keeps the meaning

An expression rebuilt for a continuation does what evaluating it and handing its
value to the continuation does, and functions do the same once a body is
converted.
-/

namespace Resumable

open Machine
open Elimination (isKnown isLoose)

/-- A state of a program and one of another program have the same meaning: they
come to ends that are alike, if either comes to an end before it runs into a
limit, and have the same effects on the way. This is so as long as the states of
the first run are `ok`. -/
structure KeepsMeaning (p p' : Program) (ok : State → Prop) (before : Store) (s s' : State) :
    Prop where
  ends : ∀ {limit r σ}, Ends (step ⟨p, limit⟩) (fun t => withinLimit limit t = true ∧ ok t) s r σ →
    ∃ limit' r' σ', EndAlike before r σ r' σ' ∧ ∀ depth, limit' ≤ depth →
      ∃ fuel, run ⟨p', depth⟩ fuel s' = some (r', σ')
  ended : ∀ {limit' r' σ'},
    Ends (step ⟨p', limit'⟩) (fun t => withinLimit limit' t = true) s' r' σ' →
    (∀ t, Runs p s t → ok t) → ∃ limit r σ, EndAlike before r σ r' σ' ∧ ∀ depth, limit ≤ depth →
      ∃ fuel, run ⟨p, depth⟩ fuel s = some (r, σ)
  effects : ∀ {limit t},
    Steps (step ⟨p, limit⟩) (fun t => withinLimit limit t = true ∧ ok t) s t →
    ∃ limit' t', t.store.trace = t'.store.trace ∧ t.store.output = t'.store.output ∧
      ∀ depth, limit' ≤ depth → Steps (step ⟨p', depth⟩) (fun _ => True) s' t'

/-- A run that has been watched. -/
theorem KeepsMeaning.of_watch {p p' : Program} {ok : State → Prop} {before : Store} {s s' : State}
    (h : KeepsMeaning p p' ok before s s') {test : State → Bool} (htest : ∀ t, test t = true → ok t)
    {limit fuel : Nat} {r : Except Failure Value} {σ : Store}
    (hrun : watch (step ⟨p, limit⟩) (fun t => withinLimit limit t && test t) fuel s = some (r, σ)) :
    ∃ limit' r' σ', EndAlike before r σ r' σ' ∧ ∀ depth, limit' ≤ depth →
      ∃ fuel, run ⟨p', depth⟩ fuel s' = some (r', σ') := by
  refine h.ends ((ends_of_watch hrun).transfer fun t ht => ⟨?_, rfl⟩)
  rw [Bool.and_eq_true] at ht
  exact ⟨ht.1, htest t ht.2⟩

namespace Continuation

variable {S : Sides} {pin : Variable → Prop} {P : Pairing} {s s' : State}

/-- States that correspond have the same meaning. -/
theorem Related.keepsMeaning (hS : Rebuilds S) (hcommon : ∀ x, S.common x) (hheard : S.heard)
    {before : Store} (hle : Pairing.same before ≤ P)
    (h : Related S pin P s s') (horderly : Orderly s) {ok : State → Prop}
    (hok : ∀ t, ok t → S.Allows t ∧ Pins pin t) :
    KeepsMeaning S.source S.target ok before s s' := by
  have hrel : Orderly s ∧ ∃ Q, P ≤ Q ∧ Related S pin Q s s' := ⟨horderly, P, Pairing.le_refl P, h⟩
  have hsim := @Related.simulates S pin hS P (fun s => S.Allows s ∧ Pins pin s) (fun _ => True)
    (fun _ h => h) (fun _ _ => trivial) fun _ _ _ _ => trivial
  have hagree {limit : Nat} (t : State) (ht : withinLimit limit t = true ∧ ok t) :
      (S.Allows t ∧ Pins pin t) ∧ free S.source t = step ⟨S.source, limit⟩ t :=
    ⟨hok t ht.2, (step_eq_free_of_withinLimit ht.1).symm⟩
  refine ⟨?_, ?_, ?_⟩
  · intro limit r σ hends
    obtain ⟨r', σ', hends', Q, hleQ, hσ, hr⟩ := hsim.ends (hends.transfer hagree) hrel
    obtain ⟨limit', hlimit⟩ := hends'.limited
    exact ⟨limit', r', σ', .of_pair hσ (Pairing.le_trans hle hleQ) hcommon hheard hr,
      fun depth hdepth => run_of_ends (hlimit depth hdepth)⟩
  · intro limit' r' σ' hends' hall
    have hfree : Ends (free S.target) (fun _ => true = true) s' r' σ' :=
      hends'.transfer fun t ht => ⟨rfl, (step_eq_free_of_withinLimit ht).symm⟩
    have hwatch : ∃ fuel, watch (free S.target) (fun _ => true) fuel s' = some (r', σ') :=
      watch_of_ends hfree
    obtain ⟨fuel, hfuel⟩ := hwatch
    obtain ⟨r, σ, hends⟩ :=
      h.ends_of_target hS horderly (fun t ht => hok t (hall t ht)) hfuel
    obtain ⟨r₁, σ₁, hends₁, Q, hleQ, hσ, hr⟩ := hsim.ends hends hrel
    obtain ⟨rfl, rfl⟩ := hends₁.unique hfree
    obtain ⟨limit, hlimit⟩ := hends.limited
    exact ⟨limit, r, σ, .of_pair hσ (Pairing.le_trans hle hleQ) hcommon hheard hr,
      fun depth hdepth => run_of_ends (hlimit depth hdepth)⟩
  · intro limit t hsteps
    obtain ⟨t', hsteps', -, Q, -, hrel'⟩ := hsim.steps (hsteps.transfer hagree) hrel
    obtain ⟨limit', hlimit⟩ := hsteps'.limited
    exact ⟨limit', t', hrel'.stores.trace hheard, hrel'.stores.output hheard, hlimit⟩

/-! ## Expressions -/

/-- What waits for the value of an expression that goes to a continuation: nothing,
or a call of the function that the continuation is. -/
inductive Expects (p : Program) (σ : Store) (env : Env) : Option Expr → List Waiting → Prop where
  | none : Expects p σ env none []
  | literal {fn : FuncId} (t : Ty) (tag : Nat) : (p.func? fn).isSome →
      Expects p σ env (some (.lambda fn t)) [.operands .call [.closure tag fn env] [] env]
  | bound {v : Variable} {c : Value} : v.id < p.varCount → σ.lookup env v = .ok c →
      Expects p σ env (some (.ref v)) [.operands .call [c] [] env]

section

variable {p p' : Program} {lits : List FuncId} {σ : Store} {env : Env} {k : Option Expr}
  {stack : List Waiting}

theorem Expects.awaits (h : Expects p σ env k stack) (henv : ∀ i ∈ env, i < σ.frames.size) :
    Awaits (sides p p' lits) (.same σ) (fun v => k = some (.ref v)) [] p.varCount (.expr k) env
      stack := by
  cases h with
  | none => exact .none _ _
  | literal t tag hfn =>
      exact .lambda t (.given tag env hfn fun x hx => ⟨hx, Pairing.same_agrees henv trivial⟩)
  | @bound v c hv _ => exact .pinned c rfl rfl hv (Pairing.same_agrees henv trivial)

theorem Expects.orderly (h : Expects p σ env k stack) (e : Expr) (depth : Nat) :
    Orderly ⟨.eval e env, stack, depth, σ⟩ := by
  cases h <;> exact ⟨rfl, rfl⟩

theorem sides_storePair (hσ : σ.valid p = true) :
    StorePair (sides p p' lits) (.same σ) σ σ :=
  .same (fun _ hfn => hfn) (fun _ _ _ => trivial) trivial rfl hσ

theorem sides_allows {s : State} (h : regular (isKnown p) lits.contains s = true) :
    (sides p p' lits).Allows s :=
  .of_regular (fun _ hfn => hfn) (fun _ hfn => List.contains_iff_mem.2 hfn) h

end

/-- An expression that has been rebuilt means what it meant before. -/
theorem keepsMeaning_of_convert {owner : FuncId} {e e' : Expr} {k : Option Expr} {w w' : Workspace}
    (h : convert owner e k w = .ok e' w') (hscoped : w.program.scoped = true)
    (hvars : ∀ v ∈ e.vars, v.id < w.program.varCount) {store : Store}
    (hstore : store.valid w.program = true) {env : Env} (henv : ∀ i ∈ env, i < store.frames.size)
    {stack : List Waiting} (hk : Expects w.program store env k stack) (depth : Nat) :
    KeepsMeaning w.program w'.program (fun s =>
        regular (isKnown w.program) (Expr.closures [e]).contains s = true ∧
          Pins (fun v => k = some (.ref v)) s) store
      ⟨.eval e env, stack, depth, store⟩ ⟨.eval e' env, [], depth, store⟩ := by
  obtain ⟨hgrown, hpasses⟩ := chained owner e h
  let S := sides w.program w'.program (Expr.closures [e])
  have hclear : Clear S (.same store) (· < w.program.varCount) w.program.varCount env env :=
    fun x hx => ⟨hx, Pairing.same_agrees henv trivial⟩
  have hcovered : e.Covered S (· < w.program.varCount) False := by
    refine Expr.covered_of_lt hvars fun fn hfn _ => ⟨fun _ hx => hx, .inl ?_⟩
    refine List.mem_eraseDups.2 ?_
    simpa [Expr.nodesList] using hfn
  have hrel : Related S (fun v => k = some (.ref v)) (.same store)
      ⟨.eval e env, stack ++ [], depth, store⟩ ⟨.eval e' env, [], depth, store⟩ :=
    .convert (sides_storePair hstore) hclear hcovered (hpasses _ fun _ _ _ => rfl) (hk.awaits henv)
      rfl .nil
  rw [List.append_nil] at hrel
  exact hrel.keepsMeaning (sides_rebuilds_of_grown hscoped hgrown) (fun _ => trivial) trivial
    (Pairing.le_refl _) (hk.orderly e depth) fun t ht => ⟨sides_allows ht.1, ht.2⟩

/-! ## Functions -/

/-- Functions mean what they meant before a body was converted. -/
theorem keepsMeaning_of_convertBody {id : FuncId} {f : Func} {w w' : Workspace}
    (h : convertBody id w = .ok () w') (hf : w.program.func? id = some f)
    (hdelete : ∀ t ∈ allStmts f.body, t.isDelete = false) (hcoherent : w.program.Coherent id)
    (hscoped : w.program.scoped = true) {fn : FuncId} {g : Func}
    (hg : w.program.func? fn = some g) {store : Store} (hstore : store.valid w.program = true)
    {env : Env} (henv : ∀ i ∈ env, i < store.frames.size) {args : List Value}
    (hargs : ∀ v ∈ args, v.valid w.program store = true) :
    ∃ g', w'.program.func? fn = some g' ∧ KeepsMeaning w.program w'.program
      (fun s => regular (isKnown w.program) (isLoose f.body) s = true) store
      (entered g fn env args store) (entered g' fn env args store) := by
  have hS := rebuilds_of_convertBody h hf hdelete hcoherent hscoped
  let S := sides w.program w'.program (bodyClosures f.body)
  have hknown : S.known fn := Option.isSome_of_eq_some hg
  have hpairs : List.Forall₂ (ValuePair S (.same store)) args args :=
    List.forall₂_same.2 fun v hv =>
      .same (fun _ hfn => hfn) (fun _ _ _ => trivial) trivial (hargs v hv)
  obtain ⟨g₁, g', Q, R, hg₁, hg', hle, hσ, hview, hbody⟩ := (sides_storePair hstore).call hS.toSound
    hknown not_false (fun x _ => Pairing.same_agrees henv trivial) hpairs
  obtain rfl : g = g₁ := Option.some.inj (hg.symm.trans hg₁)
  have hrel : Related S (fun _ => False) Q (entered g fn env args store)
      (entered g' fn env args store) :=
    .run hσ (.complete .normal)
      (.cons (.block hview hbody) (.cons (.call (hS.nameOf_eq hknown) not_false) .nil))
  exact ⟨g', hg', hrel.keepsMeaning hS (fun _ => trivial) trivial hle ⟨rfl, rfl⟩ fun t ht =>
    ⟨sides_allows ht, fun _ hv => hv.elim⟩⟩

/-! ## The result -/

/-- Conversion keeps the meaning. A rebuilt expression does what evaluating the
expression and then calling its continuation does, as long as evaluation makes
values of functions of the program only, takes no function whose literal stands
in the expression as the name of a field, and leaves the variable alone that the
continuation is. Once the body of a function is converted that deletes nothing,
every function does what it did before, with the same provisos for the literals
in the body. -/
theorem conversion_keepsMeaning :
    (∀ {owner : FuncId} {e e' : Expr} {k : Option Expr} {w w' : Workspace},
      convert owner e k w = .ok e' w' → w.program.scoped = true →
      (∀ v ∈ e.vars, v.id < w.program.varCount) → ∀ {store : Store} {env : Env} {stack : List Waiting},
      store.valid w.program = true → (∀ i ∈ env, i < store.frames.size) →
      Expects w.program store env k stack → ∀ depth,
      KeepsMeaning w.program w'.program (fun s =>
          regular (isKnown w.program) (Expr.closures [e]).contains s = true ∧
            Pins (fun v => k = some (.ref v)) s) store
        ⟨.eval e env, stack, depth, store⟩ ⟨.eval e' env, [], depth, store⟩) ∧
    (∀ {id : FuncId} {f : Func} {w w' : Workspace}, convertBody id w = .ok () w' →
      w.program.func? id = some f → (∀ t ∈ allStmts f.body, t.isDelete = false) →
      w.program.Coherent id → w.program.scoped = true → ∀ {fn : FuncId} {g : Func},
      w.program.func? fn = some g → ∀ {store : Store} {env : Env} {args : List Value},
      store.valid w.program = true → (∀ i ∈ env, i < store.frames.size) →
      (∀ v ∈ args, v.valid w.program store = true) →
      ∃ g', w'.program.func? fn = some g' ∧ KeepsMeaning w.program w'.program
        (fun s => regular (isKnown w.program) (isLoose f.body) s = true) store
        (entered g fn env args store) (entered g' fn env args store)) :=
  ⟨fun h hscoped hvars _ _ _ hstore henv hk depth =>
      keepsMeaning_of_convert h hscoped hvars hstore henv hk depth,
    fun h hf hdelete hcoherent hscoped _ _ hg _ _ _ hstore henv hargs =>
      keepsMeaning_of_convertBody h hf hdelete hcoherent hscoped hg hstore henv hargs⟩

def traced (x : Expr) : Expr :=
  .mkCall (.ref ⟨1, "t", .variant⟩) [x]

/-- A choice within a choice; each way calls a native. -/
def choosy : Expr :=
  let text (s : String) : Expr := .literal (.str s) .variant
  .binary .and (traced (text "a"))
    (.conditional (text "") (traced (text "b")) (.unary .not (traced (text "c")) .variant) .variant)
    .variant

def choosing : Func where
  name := "f"
  params := [⟨0, "n", .variant⟩]
  body :=
    let n : Expr := .ref ⟨0, "n", .variant⟩
    [.whileLoop n [.expr (.assign n (.mkCall (.lambda 2 .variant) [choosy]))] "", .ret choosy]

def taking : Func where
  name := "g"
  params := [⟨3, "x", .variant⟩]
  body :=
    let x : Expr := .ref ⟨3, "x", .variant⟩
    [.expr (traced x), .ret x]

theorem conversion_keepsMeaning_choosy :
    (∃ e' w' r σ limit r' σ',
      convert 1 choosy (some (.lambda 2 .variant)) (sample #[choosing, taking]) = .ok e' w' ∧
      watch (step ⟨(sample #[choosing, taking]).program, 9⟩) (fun s => withinLimit 9 s &&
          regular (isKnown (sample #[choosing, taking]).program) (Expr.closures [choosy]).contains s)
        100 ⟨.eval choosy [], [.operands .call [.closure 0 2 []] [] []], 0, tracing⟩ = some (r, σ) ∧
      σ.trace = #["t(\"a\")", "t(\"c\")", "t(false)"] ∧ EndAlike tracing r σ r' σ' ∧
      ∀ depth, limit ≤ depth →
        ∃ fuel, run ⟨w'.program, depth⟩ fuel ⟨.eval e' [], [], 0, tracing⟩ = some (r', σ')) ∧
    ∃ w' f' r σ limit r' σ',
      convertBody 1 (sample #[choosing, taking]) = .ok () w' ∧ w'.program.func? 1 = some f' ∧
      watch (step ⟨(sample #[choosing, taking]).program, 9⟩) (fun s => withinLimit 9 s &&
          regular (isKnown (sample #[choosing, taking]).program) (isLoose choosing.body) s)
        200 (entered choosing 1 [] [.str "n"] tracing) = some (r, σ) ∧
      σ.trace = #["t(\"a\")", "t(\"c\")", "t(false)", "t(\"a\")", "t(\"c\")"] ∧
      EndAlike tracing r σ r' σ' ∧ ∀ depth, limit ≤ depth →
        ∃ fuel, run ⟨w'.program, depth⟩ fuel (entered f' 1 [] [.str "n"] tracing) = some (r', σ') := by
  have hscoped : (sample #[choosing, taking]).program.scoped = true := by decide +kernel
  have hstore : tracing.valid (sample #[choosing, taking]).program = true := by decide +kernel
  have henv : ∀ i ∈ ([] : Env), i < tracing.frames.size := by simp
  constructor
  · obtain ⟨e', w', hconvert, -⟩ := Lowering.ok_of_succeeds
      (show Lowering.succeeds (convert 1 choosy (some (.lambda 2 .variant)))
        (sample #[choosing, taking]) (fun _ => true) = true by decide +kernel)
    obtain ⟨⟨r, σ⟩, hrun, htrace⟩ := (Option.any_eq_true _ _).1
      (show (watch (step ⟨(sample #[choosing, taking]).program, 9⟩) (fun s => withinLimit 9 s &&
          regular (isKnown (sample #[choosing, taking]).program) (Expr.closures [choosy]).contains s)
        100 ⟨.eval choosy [], [.operands .call [.closure 0 2 []] [] []], 0, tracing⟩).any
          (·.2.trace = #["t(\"a\")", "t(\"c\")", "t(false)"]) = true by decide +kernel)
    have hmeaning := conversion_keepsMeaning.1 hconvert hscoped (by decide +kernel) hstore henv
      (.literal .variant 0 (by decide +kernel)) 0
    obtain ⟨limit, r', σ', halike, hlimit⟩ :=
      hmeaning.of_watch (fun _ ht => ⟨ht, fun _ hv => by cases hv⟩) hrun
    exact ⟨e', w', r, σ, limit, r', σ', hconvert, hrun, by simpa using htrace, halike, hlimit⟩
  · obtain ⟨⟨⟩, w', hconvert, -⟩ := Lowering.ok_of_succeeds
      (show Lowering.succeeds (convertBody 1) (sample #[choosing, taking]) (fun _ => true) = true by
        decide +kernel)
    obtain ⟨⟨r, σ⟩, hrun, htrace⟩ := (Option.any_eq_true _ _).1
      (show (watch (step ⟨(sample #[choosing, taking]).program, 9⟩) (fun s => withinLimit 9 s &&
          regular (isKnown (sample #[choosing, taking]).program) (isLoose choosing.body) s)
        200 (entered choosing 1 [] [.str "n"] tracing)).any (·.2.trace =
          #["t(\"a\")", "t(\"c\")", "t(false)", "t(\"a\")", "t(\"c\")"]) = true by decide +kernel)
    have hargs : ∀ v ∈ [Value.str "n"],
        v.valid (sample #[choosing, taking]).program tracing = true := by
      decide +kernel
    have hf : (sample #[choosing, taking]).program.func? 1 = some choosing := rfl
    obtain ⟨f', hf', hmeaning⟩ := conversion_keepsMeaning.2 hconvert hf (by decide +kernel)
      (Program.coherent_of_unnumbered (by decide +kernel)) hscoped hf hstore henv hargs
    obtain ⟨limit, r', σ', halike, hlimit⟩ := hmeaning.of_watch (fun _ ht => ht) hrun
    exact ⟨w', f', r, σ, limit, r', σ', hconvert, hf', hrun, by simpa using htrace, halike, hlimit⟩

/-! ## What the conditions on the machine are for -/

/-- A function names a field by a function that it makes twice. -/
def naming : Func where
  name := "f"
  locals := [⟨0, "o", .variant⟩]
  body :=
    let o : Expr := .ref ⟨0, "o", .variant⟩
    let name : Expr := .lambda 4 .variant
    [.expr (.assign o (.mkCall (.lambda 2 .variant) [])),
      .expr (.mkCall (.lambda 3 .variant) [o, name]),
      .expr (traced (.binary .index o name .variant))]

/-- A function that makes an object, one that sets a field of it, and a name. -/
def helpers : Array Func :=
  #[{ name := "new", body := [.ret (.construct none [])] },
    { name := "put", params := [⟨2, "p", .variant⟩, ⟨3, "k", .variant⟩]
      body := [.expr (.assign
        (.binary .index (.ref ⟨2, "p", .variant⟩) (.ref ⟨3, "k", .variant⟩) .variant)
        (.literal (.bool true) .variant))] },
    { name := "" }]

def unfounded : Func where
  name := "f"
  body := [.ret (.unary .neg (.lambda 2 .variant) .variant)]

/-- Converted expressions make a function anew in other frames, so it names
another field each time, and the continuations are functions that the program
did not have. -/
theorem convertBody_differs :
    ((∀ t ∈ allStmts naming.body, t.isDelete = false) ∧
      (sample (#[naming] ++ helpers)).program.Coherent 1 ∧
      Differs (#[naming] ++ helpers) (convertBody 1)
        (step ⟨(sample (#[naming] ++ helpers)).program, 9⟩) naming (fun s => withinLimit 9 s &&
          regular (isKnown (sample (#[naming] ++ helpers)).program) (fun _ => false) s)) ∧
    (∀ t ∈ allStmts unfounded.body, t.isDelete = false) ∧
    (sample #[unfounded]).program.Coherent 1 ∧
    Differs #[unfounded] (convertBody 1) (step ⟨(sample #[unfounded]).program, 9⟩) unfounded
      (fun s => withinLimit 9 s && regular (fun _ => true) (isLoose unfounded.body) s) := by
  refine ⟨⟨by decide +kernel, Program.coherent_of_unnumbered (by decide +kernel), ?_⟩,
    by decide +kernel, Program.coherent_of_unnumbered (by decide +kernel), ?_⟩
  · exact .of_observed 500 9 rfl (by decide +kernel) (by decide +kernel) (by decide +kernel)
  · exact .of_observed 100 3 rfl (by decide +kernel) (by decide +kernel) (by decide +kernel)

end Continuation

end Resumable
