import Resumable.Proofs.Likeness
import Resumable.Proofs.Lockstep.Step
import Resumable.Proofs.Lowering.Effect
import Resumable.Proofs.Tree.Contents

/-!
# Programs and stores that hang together

Every variable that a program mentions has been handed out, and whatever the
values of a store refer to exists. Code of such a program corresponds to
itself, and so do the contents of such a store.
-/

namespace Resumable

/-! ## Variables of a program -/

def Stmt.handlers : Stmt → List Catch
  | .tryCatch _ catches => catches
  | .catchClause c => [c]
  | _ => []

/-- The variables that a statement itself mentions. -/
def Stmt.ownVars (s : Stmt) : List Variable :=
  s.slots.flatMap Expr.vars ++ s.handlers.filterMap Catch.var

def bodyVariables (body : List Stmt) : List Variable :=
  (allStmts body).flatMap Stmt.ownVars

/-- Every variable that the program mentions has been handed out. -/
def Program.scoped (p : Program) : Bool :=
  p.funcs.toList.all fun f =>
    (f.params ++ f.locals ++ bodyVariables f.body).all fun v => v.id < p.varCount

theorem Program.func?_mem {p : Program} {fn : FuncId} {f : Func} (h : p.func? fn = some f) :
    f ∈ p.funcs.toList := by
  unfold func? at h
  split at h
  · cases h
  · exact Array.mem_toList_iff.2 (Array.mem_of_getElem? h)

theorem Program.lt_of_scoped {p : Program} (hp : p.scoped) {fn : FuncId} {f : Func}
    (hf : p.func? fn = some f) {v : Variable}
    (hv : v ∈ f.params ++ f.locals ++ bodyVariables f.body) : v.id < p.varCount := by
  have hall := List.all_eq_true.1 hp f (func?_mem hf)
  simpa using List.all_eq_true.1 hall v hv

theorem Program.scoped_of_lt {p : Program}
    (h : ∀ fn f, p.func? fn = some f → ∀ v ∈ f.params ++ f.locals ++ bodyVariables f.body,
      v.id < p.varCount) : p.scoped = true := by
  refine List.all_eq_true.2 fun f hf => List.all_eq_true.2 fun v hv => ?_
  obtain ⟨i, hi, rfl⟩ := List.mem_iff_getElem.1 hf
  have hfunc : p.func? (i + 1) = some p.funcs.toList[i] := by
    simp [Program.func?, noFunc]
  exact decide_eq_true (h (i + 1) _ hfunc v hv)

/-! ## Parts of a body -/

/-- The functions of the literals in a body. -/
theorem mem_bodyClosures {s : Stmt} {body : List Stmt} (hs : s ∈ allStmts body) {e : Expr}
    (he : e ∈ s.slots) {fn : FuncId} (hfn : fn ∈ e.nodes.filterMap Expr.lambdaId?) :
    fn ∈ bodyClosures body := by
  obtain ⟨n, hn, hid⟩ := List.mem_filterMap.1 hfn
  have hpresent : (!e.isMissing) = true := by
    cases e with
    | missing => cases hn
    | _ => rfl
  refine List.mem_eraseDups.2 (List.mem_filterMap.2 ⟨n, ?_, hid⟩)
  exact Expr.mem_nodesList.2 ⟨e, List.mem_flatMap.2 ⟨s, hs, List.mem_filter.2 ⟨he, hpresent⟩⟩, hn⟩

theorem exists_of_mem_bodyClosures {body : List Stmt} {fn : FuncId} (h : fn ∈ bodyClosures body) :
    ∃ s ∈ allStmts body, ∃ e ∈ s.slots, fn ∈ e.nodes.filterMap Expr.lambdaId? := by
  obtain ⟨n, hn, hid⟩ := List.mem_filterMap.1 (List.mem_eraseDups.1 h)
  obtain ⟨e, he, hn⟩ := Expr.mem_nodesList.1 hn
  obtain ⟨s, hs, he⟩ := List.mem_flatMap.1 he
  exact ⟨s, hs, e, (List.mem_filter.1 he).1, List.mem_filterMap.2 ⟨n, hn, hid⟩⟩

theorem mem_bodyVariables {s : Stmt} {body : List Stmt} (hs : s ∈ allStmts body) {e : Expr}
    (he : e ∈ s.slots) {v : Variable} (hv : v ∈ e.vars) : v ∈ bodyVariables body :=
  List.mem_flatMap.2 ⟨s, hs, List.mem_append_left _ (List.mem_flatMap.2 ⟨e, he, hv⟩)⟩

/-! ## Code that corresponds to itself -/

section

variable {S : Sides}

theorem Expr.Covered.mono {R R' : Nat → Prop} {T T' : Prop} (hR : ∀ x, R x → R' x) (hT : T → T')
    {e : Expr} (h : e.Covered S R T) : e.Covered S R' T' := by
  intro n hn
  have hcovered := h n hn
  cases n with
  | ref v => exact hR _ hcovered
  | lambda fn t =>
      exact fun hfn => ⟨fun x hx => hR x ((hcovered hfn).1 x hx), (hcovered hfn).2.imp_right hT⟩
  | _ => trivial

/-- An expression of variables below a bound, in which functions look up such
variables only. -/
theorem Expr.covered_of_lt {R : Nat → Prop} {T : Prop} {e : Expr}
    (hvars : ∀ v ∈ e.vars, R v.id)
    (hfree : ∀ fn, fn ∈ e.nodes.filterMap Expr.lambdaId? → S.known fn →
      (∀ x, S.free fn x → R x) ∧ (S.loose fn ∨ T)) : e.Covered S R T := by
  intro n hn
  cases n with
  | ref v => exact hvars v (List.mem_filterMap.2 ⟨_, hn, rfl⟩)
  | lambda fn t => exact hfree fn (List.mem_filterMap.2 ⟨_, hn, rfl⟩)
  | _ => trivial

def Stmt.Covered (S : Sides) (R : Nat → Prop) (T : Prop) (s : Stmt) : Prop :=
  ∀ e ∈ s.slots, e.Covered S R T

theorem Stmt.Covered.mono {R R' : Nat → Prop} {T T' : Prop} (hR : ∀ x, R x → R' x) (hT : T → T')
    {s : Stmt} (h : s.Covered S R T) : s.Covered S R' T' :=
  fun e he => (h e he).mono hR hT

theorem covered_pairs {R : Nat → Prop} {T : Prop} {es : List Expr}
    (h : ∀ e ∈ es, e.Covered S R T) : List.Forall₂ (ExprPair S R T) es es :=
  List.forall₂_same.2 fun e he => ⟨h e he, .inl rfl⟩

theorem SimplePair.refl {R : Nat → Prop} {T : Prop} {s : Simple}
    (h : ∀ e ∈ s.slots, e.Covered S R T) : SimplePair S R T s s := by
  cases s with
  | yield x => exact .yield ⟨h x (.head _), .inl rfl⟩
  | log args => exact .log (covered_pairs h)
  | super cls args => exact .super (covered_pairs h)
  | debugger => exact .debugger
  | delete x => exact .delete (h x (.head _))
  | expr x => exact .expr ⟨h x (.head _), .inl rfl⟩
  | ret x => exact .ret ⟨h x (.head _), .inl rfl⟩
  | throw x => exact .throw ⟨h x (.head _), .inl rfl⟩
  | assert x message => exact .assert message ⟨h x (.head _), .inl rfl⟩

mutual

/-- A statement of covered expressions corresponds to itself. -/
theorem StmtPair.refl {R : Nat → Prop} {T : Prop} : (s : Stmt) →
    (∀ t ∈ s.preorder fun _ => true, t.Covered S R T) → StmtPair S R T s s
  | .missing, _ => .missing
  | .simple s share, h => .simple share share (.refl (h _ (.head _)))
  | .breakTo l, _ => .breakTo l
  | .continueTo l, _ => .continueTo l
  | .ifElse c t e, h => by
      simp only [Stmt.preorder, if_true, List.forall_mem_cons, List.forall_mem_append] at h
      exact .ifElse ⟨h.1 c (.head _), .inl rfl⟩ (StmtsPair.refl t h.2.1)
        (StmtsPair.refl e h.2.2)
  | .whileLoop c body l, h => by
      simp only [Stmt.preorder, if_true, List.forall_mem_cons] at h
      exact .whileLoop l ⟨h.1 c (.head _), .inl rfl⟩ (StmtsPair.refl body h.2)
  | .doWhile c body l, h => by
      simp only [Stmt.preorder, if_true, List.forall_mem_cons] at h
      exact .doWhile l ⟨h.1 c (.head _), .inl rfl⟩ (StmtsPair.refl body h.2)
  | .forLoop i c p body l, h => by
      simp only [Stmt.preorder, if_true, List.forall_mem_cons] at h
      have hslots := h.1
      simp only [Stmt.Covered, Stmt.slots, List.forall_mem_cons] at hslots
      exact .forLoop l ⟨hslots.1, .inl rfl⟩ ⟨hslots.2.1, .inl rfl⟩ ⟨hslots.2.2.1, .inl rfl⟩
        (StmtsPair.refl body h.2)
  | .forIn k x body l, _ => .forIn k k x x body body l l
  | .switch x body l, h => by
      simp only [Stmt.preorder, if_true, List.forall_mem_cons] at h
      exact .switch l ⟨h.1 x (.head _), .inl rfl⟩ (StmtsPair.refl body h.2)
  | .caseMark x, h => .caseMark ⟨h _ (.head _) x (.head _), .inl rfl⟩
  | .defaultMark, _ => .defaultMark
  | .tryCatch body catches, h => by
      simp only [Stmt.preorder, if_true, List.forall_mem_cons, List.forall_mem_append] at h
      exact .tryCatch (StmtsPair.refl body h.2.1) (CatchesPair.refl catches h.2.2)
  | .catchClause c, _ => .catchClause c c
  | .label l, _ => .label l l
  | .goto l, _ => .goto l l
  | .condGoto c t e, _ => .condGoto c c t t e e
  | .dispatch x arms, _ => .dispatch x x arms arms

theorem StmtsPair.refl {R : Nat → Prop} {T : Prop} : (body : List Stmt) →
    (∀ t ∈ allStmts body, t.Covered S R T) → StmtsPair S R T body body
  | [], _ => .nil
  | s :: rest, h => by
      simp only [allStmts, preorderList, List.forall_mem_append] at h
      exact .cons (StmtPair.refl s h.1) (StmtsPair.refl rest h.2)

theorem CatchesPair.refl {R : Nat → Prop} {T : Prop} : (cs : List Catch) →
    (∀ t ∈ preorderCatches (fun _ => true) cs, t.Covered S R T) → CatchesPair S R T cs cs
  | [], _ => .nil
  | .mk var body :: cs, h => by
      simp only [preorderCatches, preorderCatch, List.forall_mem_append] at h
      exact .cons (StmtsPair.refl body fun t ht => (h.1 t ht).mono (fun _ => .inl) fun _ => trivial)
        (CatchesPair.refl cs h.2)

end

end

/-! ## Values of a store -/

def Value.valid (p : Program) (σ : Store) : Value → Bool
  | .closure tag fn env =>
      tag < σ.tags && (p.func? fn).isSome && env.all fun f => f < σ.frames.size
  | .native tag _ _ => tag < σ.tags
  | .object ref _ => ref < σ.objects.size
  | _ => true

def Mark.valid (σ : Store) : Mark → Bool
  | .frame id => id < σ.frames.size
  | .function tag => tag < σ.tags
  | .object ref => ref < σ.objects.size
  | _ => true

def Key.valid (σ : Store) : Key → Bool
  | .text _ => true
  | .marked _ m rest => m.valid σ && rest.valid σ

/-- Whether everything that the contents of a store refer to exists. -/
def Store.valid (p : Program) (σ : Store) : Bool :=
  σ.globals.all (fun b => b.2.valid p σ) &&
  σ.frames.toList.all (fun bs => bs.all fun b => b.2.valid p σ) &&
  σ.objects.toList.all (fun fs => fs.all fun f => f.1.valid σ && f.2.valid p σ) &&
  σ.recorded.toList.all fun v => v.valid p σ

theorem Value.valid_congr {p q : Program}
    (h : ∀ fn, (q.func? fn).isSome = (p.func? fn).isSome) (σ : Store) :
    Value.valid q σ = Value.valid p σ := by
  funext v
  cases v <;> simp [Value.valid, h]

theorem Store.valid_congr {p q : Program}
    (h : ∀ fn, (q.func? fn).isSome = (p.func? fn).isSome) (σ : Store) : σ.valid q = σ.valid p := by
  simp only [Store.valid, Value.valid_congr h]

section

variable {S : Sides} {p : Program} {σ : Store}

theorem Pairing.same_agrees {env : Env} (henv : ∀ f ∈ env, f < σ.frames.size) {x : Nat}
    (hx : S.common x) :
    (Pairing.same σ).Agrees S x env env := by
  induction env with
  | nil => exact .nil hx
  | cons f env ih =>
      obtain ⟨hf, henv⟩ := List.forall_mem_cons.1 henv
      exact .frame ⟨rfl, hf⟩ (fun ⟨_, hv⟩ => hv) (ih henv)

theorem Pairing.same_tight {env : Env} (henv : ∀ f ∈ env, f < σ.frames.size) :
    (Pairing.same σ).Tight env env := by
  cases env with
  | nil => exact trivial
  | cons f env => exact ⟨rfl, henv f (.head _)⟩

theorem ValuePair.same (hknown : ∀ fn, (p.func? fn).isSome → S.known fn)
    (hcommon : ∀ fn x, S.free fn x → S.common x) (hheard : S.heard) {v : Value}
    (hv : v.valid p σ = true) : ValuePair S (.same σ) v v := by
  cases v with
  | closure tag fn env =>
      simp only [Value.valid, Bool.and_eq_true, decide_eq_true_eq, List.all_eq_true] at hv
      exact .closure ⟨rfl, hv.1.1⟩ (hknown fn hv.1.2)
        (fun x hx => Pairing.same_agrees hv.2 (hcommon fn x hx))
        (.inr (Pairing.same_tight hv.2))
  | native tag name kind => exact .native name kind hheard ⟨rfl, by simpa [Value.valid] using hv⟩
  | object ref cls => exact .object cls ⟨rfl, by simpa [Value.valid] using hv⟩
  | _ => constructor

theorem KeyPair.same {k : Key} (hk : k.valid σ = true) : KeyPair (.same σ) k k := by
  induction k with
  | text s => exact .text s
  | marked s m rest ih =>
      simp only [Key.valid, Bool.and_eq_true] at hk
      refine .marked s ?_ (ih hk.2)
      have hm := hk.1
      cases m with
      | definition id => exact .definition id
      | code kind => exact .code kind
      | frame id => exact .frame ⟨rfl, by simpa [Mark.valid] using hm⟩
      | function tag => exact .function ⟨rfl, by simpa [Mark.valid] using hm⟩
      | object ref => exact .object ⟨rfl, by simpa [Mark.valid] using hm⟩

theorem OptionPair.same_lookup (hknown : ∀ fn, (p.func? fn).isSome → S.known fn)
    (hcommon : ∀ fn x, S.free fn x → S.common x) (hheard : S.heard)
    {bs : Bindings} (hbs : bs.all (fun b => b.2.valid p σ) = true) (x : Nat) :
    OptionPair S (.same σ) (bs.lookup x) (bs.lookup x) := by
  cases h : bs.lookup x with
  | none => exact .none
  | some v =>
      obtain ⟨l, r, hsplit, -⟩ := List.lookup_eq_some_iff.1 h
      refine .some (.same hknown hcommon hheard (List.all_eq_true.1 hbs (x, v) ?_))
      rw [hsplit]
      simp

theorem Embeds.same (n : Nat) : Embeds (fun i j => i = j ∧ i < n) n n where
  left h := h.2
  right h := h.1 ▸ h.2
  order h₁ h₂ := by omega

/-- The contents of a store correspond to themselves. -/
theorem StorePair.same (hknown : ∀ fn, (p.func? fn).isSome → S.known fn)
    (hcommon : ∀ fn x, S.free fn x → S.common x) (hheard : S.heard) (haside : S.aside = .nothing)
    (hσ : σ.valid p = true) : StorePair S (.same σ) σ σ := by
  simp only [Store.valid, Bool.and_eq_true] at hσ
  obtain ⟨⟨⟨hglobals, hframes⟩, hobjects⟩, hrecorded⟩ := hσ
  refine
    { globals := fun x _ => .same_lookup hknown hcommon hheard hglobals x
      frames := .same _
      binding := ?_
      bound := False.elim
      plain := False.elim
      apart := fun _ h => h
      bare := False.elim
      hidden := False.elim
      placed := False.elim
      objects := .same _
      fields := ?_
      tags := .same _
      trace := fun _ => rfl
      output := fun _ => rfl
      recorded := fun _ => ?_
      aside := haside ▸ Aside.nothing_kept _ _ }
  · rintro i _ x ⟨rfl, hi⟩ -
    refine .same_lookup hknown hcommon hheard (List.all_eq_true.1 hframes _ ?_) x
    rw [Array.getD_eq_getD_getElem?, Array.getElem?_eq_getElem hi, Option.getD_some]
    exact Array.getElem_mem_toList hi
  · rintro r _ ⟨rfl, hr⟩
    have hfields := List.all_eq_true.1 hobjects (σ.fields r) (by
      rw [Store.fields, Array.getD_eq_getD_getElem?, Array.getElem?_eq_getElem hr, Option.getD_some]
      exact Array.getElem_mem_toList hr)
    refine List.forall₂_same.2 fun f hf => ?_
    have hfield := List.all_eq_true.1 hfields f hf
    simp only [Bool.and_eq_true] at hfield
    exact ⟨.same hfield.1, .same hknown hcommon hheard hfield.2⟩
  · exact List.forall₂_same.2 fun v hv =>
      .same hknown hcommon hheard (List.all_eq_true.1 hrecorded v hv)

end

end Resumable
