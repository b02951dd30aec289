import Mathlib.Data.List.Count
import Resumable.Proofs.Continuation.Kinds
import Resumable.Proofs.Tree.Slots

/-!
# What converting expressions keeps up

Converting an expression draws variables, begins continuations, declares locals
of continuations it has begun and finishes them; it does nothing else to a
program. Whatever these four keep up, the conversion of a whole body keeps up.

The literals that have no place yet are in hand: those of the expression to be
converted, those of its continuation, and those of whatever else is under way. A
continuation that is begun comes to hand, and one that is finished takes the
literals in its body out of hand. The variables that bodies may mention are in
hand as well: those of the body to be converted and those that are drawn.
-/

namespace Resumable.Continuation

/-- The bodies of continuations: a shared continuation may be set first. -/
inductive Bodied : List Stmt → Prop where
  | ret (e : Expr) : Bodied [.ret e]
  | shared (v : Variable) (fn : FuncId) (t : Ty) (e : Expr) :
      Bodied [.setVar v (.lambda fn t), .ret e]

/-- What the steps of a conversion keep up: `Inv` with the literals in hand, the
variables that may become parameters and those that bodies may mention, and
`Failed` where it stops. Continuations meet `New`. -/
structure Upkeep (owner : FuncId)
    (Inv : List FuncId → List Variable → List Variable → Workspace → Prop)
    (Failed : Workspace → Prop) (New : FuncId → Prop) : Prop where
  failed : ∀ {ls ps vs w}, Inv ls ps vs w → Failed w
  fewer : ∀ {ls ls' ps vs w}, (∀ c, ls'.count c ≤ ls.count c) → Inv ls ps vs w → Inv ls' ps vs w
  narrow : ∀ {ls ps ps' vs vs' w}, ps' ⊆ ps → vs' ⊆ vs → Inv ls ps vs w → Inv ls ps' vs' w
  fresh : ∀ {ls ps vs w} type, Inv ls ps vs w →
    After (Lowering.freshVariable type) w (fun v w' => Inv ls (v :: ps) (v :: vs) w') Failed
  begun : ∀ {ls ps vs w param} result, param ∈ ps → Inv ls ps vs w →
    After (begin owner param result) w (fun id w' => New id ∧ Inv ([id] ++ ls) ps vs w') Failed
  declared : ∀ {ls ps vs w id} type, New id → Inv ls ps vs w →
    After (Lowering.freshLocal id type) w (fun v w' => Inv ls ps (v :: vs) w') Failed
  finished : ∀ {ls ps vs w id body}, New id → Bodied body → bodyRefs body ⊆ vs →
    Inv ([id] ++ (bodyLiterals body ++ ls)) ps vs w →
    After (finish id body) w (fun _ w' => Inv ([id] ++ ls) ps vs w') Failed

inductive Handy (vs : List Variable) : Option Expr → Prop where
  | none : Handy vs none
  | ref {v : Variable} : v ∈ vs → Handy vs (some (.ref v))
  | lambda (fn : FuncId) (t : Ty) : Handy vs (some (.lambda fn t))

theorem literals_deliver (k : Option Expr) (e : Expr) :
    (deliver k e).literals = handed k ++ e.literals := by
  cases k <;> simp [deliver, handed]

section

variable {owner : FuncId} {Inv : List FuncId → List Variable → List Variable → Workspace → Prop}
  {Failed : Workspace → Prop} {New : FuncId → Prop}

theorem Handy.mono {vs vs' : List Variable} {k : Option Expr} (hk : Handy vs k) (h : vs ⊆ vs') :
    Handy vs' k := by
  cases hk with
  | none => exact .none
  | ref hv => exact .ref (h hv)
  | lambda fn t => exact .lambda fn t

theorem Handy.vars {vs : List Variable} {k : Option Expr} (hk : Handy vs k) {e : Expr}
    (he : e.vars ⊆ vs) : (deliver k e).vars ⊆ vs := by
  cases hk with
  | none => exact he
  | ref hv => simpa [deliver, hv] using he
  | lambda fn t => simpa [deliver] using he

namespace Upkeep

variable (up : Upkeep owner Inv Failed New) {w : Workspace} {ls : List FuncId}
  {ps vs : List Variable}

include up

theorem made {param : Variable} {body : Expr} (hparam : param ∈ ps) (hbody : body.vars ⊆ vs)
    (hw : Inv (body.literals ++ ls) ps vs w) :
    After (make owner param body) w
      (fun c w' => ∃ fn t, c = .lambda fn t ∧ Inv ([fn] ++ ls) ps vs w') Failed := by
  unfold Continuation.make
  refine (up.begun body.type hparam hw).bind fun id w₁ hbegun => ?_
  have hopen : Inv ([id] ++ (bodyLiterals [.ret body] ++ ls)) ps vs w₁ := by
    simpa [Simple.slots] using hbegun.2
  have hrefs : bodyRefs [.ret body] ⊆ vs := by
    simpa [Simple.slots] using hbody
  refine (up.finished hbegun.1 (.ret body) hrefs hopen).bind fun _ w₂ hdone => ?_
  exact Lowering.after_lambda fun t => ⟨id, t, rfl, hdone⟩

/-- A shared continuation has no literals of its own: those of the continuation
stand in the statements that set it. -/
theorem shared {id : FuncId} (hid : New id) {k : Option Expr} (hk : Handy vs k)
    (hw : Inv ls ps vs w) :
    After (share id k) w (fun r w' => ∃ more, Handy (more ++ vs) r.2 ∧ handed r.2 = [] ∧
      bodyLiterals r.1 = handed k ∧ bodyRefs r.1 ⊆ more ++ vs ∧
      (∀ e, Bodied (r.1 ++ [.ret e])) ∧ Inv ls ps (more ++ vs) w') Failed := by
  cases hk with
  | none => exact After.pure ⟨[], .none, rfl, rfl, by simp, .ret, hw⟩
  | ref hv => exact After.pure ⟨[], .ref hv, rfl, rfl, by simp, .ret, hw⟩
  | lambda fn t =>
      refine (up.declared t hid hw).bind fun v w₁ hw₁ => ?_
      refine After.pure ⟨[v], .ref (.head _), rfl, ?_, ?_, .shared v fn t, hw₁⟩
      · simp [Stmt.setVar, Simple.slots, handed]
      · simp [Stmt.setVar, Simple.slots]

theorem parameters {es : List Expr} (hw : Inv ls ps vs w) :
    After (parameters es) w (fun qs w' => qs.length = es.length ∧
      Inv ls (qs.reverse ++ ps) (qs.reverse ++ vs) w') Failed := by
  induction es generalizing w ps vs with
  | nil => exact After.pure ⟨rfl, hw⟩
  | cons e es ih =>
      rw [Continuation.parameters]
      refine (up.fresh e.type hw).bind fun v w₁ hv => ?_
      refine (ih hv).bind fun ps w₂ hps => After.pure ?_
      simpa using hps

end Upkeep

/-! ## Expressions -/

def Converted (Inv : List FuncId → List Variable → List Variable → Workspace → Prop)
    (ls : List FuncId) (ps vs : List Variable) (e : Expr) (w : Workspace) : Prop :=
  Inv (e.literals ++ ls) ps (e.vars ++ vs) w

/-- The conversion of an expression puts the literals of its result in hand in
place of those of the expression and its continuation. -/
def Converts (owner : FuncId)
    (Inv : List FuncId → List Variable → List Variable → Workspace → Prop)
    (Failed : Workspace → Prop) (e : Expr) : Prop :=
  ∀ k ls ps vs w, Handy vs k → e.vars ⊆ vs → Inv (e.literals ++ handed k ++ ls) ps vs w →
    After (convert owner e k) w (Converted Inv ls ps vs) Failed

namespace Upkeep

variable (up : Upkeep owner Inv Failed New) {w : Workspace} {ls : List FuncId}
  {ps vs : List Variable}

include up

/-- Variables that came to hand on the way are not needed any more. -/
theorem narrowed {m : Lowering Expr} (ps' vs' : List Variable) (hps : ps ⊆ ps') (hvs : vs ⊆ vs')
    (h : After m w (Converted Inv ls ps' vs') Failed) : After m w (Converted Inv ls ps vs) Failed :=
  h.imp (fun _ _ h => up.narrow hps (List.append_subset.2
    ⟨List.subset_append_left .., List.Subset.trans hvs (List.subset_append_right ..)⟩) h) fun _ h => h

theorem delivered {k : Option Expr} (hk : Handy vs k) {e : Expr} (he : e.vars ⊆ vs)
    (hw : Inv (e.literals ++ handed k ++ ls) ps vs w) : Converted Inv ls ps vs (deliver k e) w := by
  refine up.fewer (fun c => ?_) (up.narrow (List.Subset.refl _)
    (List.append_subset.2 ⟨hk.vars he, List.Subset.refl _⟩) hw)
  simp only [literals_deliver, List.count_append]
  omega

/-- An operand goes to a continuation that was made for it. -/
theorem passed {x body : Expr} (hx : Converts owner Inv Failed x) {p : Variable} (hp : p ∈ ps)
    (hbody : body.vars ⊆ vs) (hvars : x.vars ⊆ vs)
    (hw : Inv (x.literals ++ body.literals ++ ls) ps vs w) :
    After (do
      let c ← make owner p body
      convert owner x (some c)) w (Converted Inv ls ps vs) Failed := by
  have hmake : Inv (body.literals ++ (x.literals ++ ls)) ps vs w := by
    refine up.fewer (fun c => ?_) hw
    simp only [List.count_append]
    omega
  refine (up.made hp hbody hmake).bind fun c w₁ hc => ?_
  obtain ⟨fn, t, rfl, hw₁⟩ := hc
  refine hx _ _ _ _ _ (.lambda fn t) hvars (up.fewer (fun c => ?_) hw₁)
  simp only [handed, Option.map_some, Option.getD_some, Expr.literals_lambda, List.count_append]
  omega

/-- Operands go to continuations one after the other. -/
theorem row {es : List Expr} (hes : ∀ e ∈ es, Converts owner Inv Failed e) {qs : List Variable}
    {inner : Expr} (hqs : qs ⊆ ps) (hvars : es.flatMap Expr.vars ⊆ vs) (hinner : inner.vars ⊆ vs)
    (hw : Inv (es.flatMap Expr.literals ++ inner.literals ++ ls) ps vs w) :
    After (convertArgs owner es qs inner) w (Converted Inv ls ps vs) Failed := by
  have hstay {ls ls' : List FuncId} (h : Inv (ls' ++ inner.literals ++ ls) ps vs w) :
      Converted Inv ls ps vs inner w := by
    refine up.fewer (fun c => ?_) (up.narrow (List.Subset.refl ps)
      (List.append_subset.2 ⟨hinner, List.Subset.refl _⟩) h)
    simp only [List.count_append]
    omega
  induction es generalizing qs ls with
  | nil =>
      simp only [convertArgs]
      exact After.pure (hstay hw)
  | cons e es ih =>
      cases qs with
      | nil =>
          simp only [convertArgs]
          exact After.pure (hstay hw)
      | cons q qs =>
          simp only [convertArgs]
          rw [List.flatMap_cons, List.append_subset] at hvars
          obtain ⟨hq, hqs⟩ := List.cons_subset.1 hqs
          obtain ⟨he, hes⟩ := List.forall_mem_cons.1 hes
          -- the operands behind `e` come first; their literals go into the continuation of `e`
          have hnext :
              Inv (es.flatMap Expr.literals ++ inner.literals ++ (e.literals ++ ls)) ps vs w := by
            refine up.fewer (fun c => ?_) hw
            simp only [List.flatMap_cons, List.count_append]
            omega
          refine (ih hes hqs hvars.2 hnext).bind fun rest w₁ h => ?_
          refine up.narrowed ps (rest.vars ++ vs) (List.Subset.refl ps)
            (List.subset_append_right ..) ?_
          refine up.passed he hq (List.subset_append_left ..)
            (List.Subset.trans hvars.1 (List.subset_append_right ..)) (up.fewer (fun c => ?_) h)
          simp only [List.count_append]
          omega

theorem way {o : Option Expr} (ho : ∀ y ∈ o, Converts owner Inv Failed y ∧ y.vars ⊆ vs)
    {q : Variable} (hq : q ∈ vs) {shared : Option Expr} (hshared : Handy vs shared)
    (hnone : handed shared = []) (hw : Inv (handed o ++ ls) ps vs w) :
    After (convertWay owner q shared o) w (Converted Inv ls ps vs) Failed := by
  cases o with
  | none =>
      exact After.pure (up.delivered hshared (by simpa using hq) (by rwa [hnone]))
  | some y =>
      obtain ⟨hy, hvars⟩ := ho y rfl
      exact hy _ _ _ _ _ hshared hvars (by rwa [hnone, List.append_nil])

theorem ways {yes no : Option Expr} (hyes : ∀ y ∈ yes, Converts owner Inv Failed y ∧ y.vars ⊆ vs)
    (hno : ∀ y ∈ no, Converts owner Inv Failed y ∧ y.vars ⊆ vs) {id : FuncId} {q : Variable}
    (hq : q ∈ vs) {shared : Option Expr} (hshared : Handy vs shared) (hnone : handed shared = [])
    (hw : Inv (handed yes ++ (handed no ++ ls)) ps vs w) :
    After (convertWays owner yes no id q shared) w (Converted Inv ls ps vs) Failed := by
  refine (up.way hyes hq hshared hnone hw).bind fun a w₁ ha => ?_
  have hmore : vs ⊆ a.vars ++ vs := List.subset_append_right ..
  have hnext : Inv (handed no ++ (a.literals ++ ls)) ps (a.vars ++ vs) w₁ := by
    refine up.fewer (fun c => ?_) ha
    simp only [List.count_append]
    omega
  refine (up.way (fun y hy => ⟨(hno y hy).1, List.Subset.trans (hno y hy).2 hmore⟩) (hmore hq)
    (hshared.mono hmore) hnone hnext).bind fun b w₂ hb => ?_
  change Converted Inv ls ps vs (.conditional (.ref q) a b _) w₂
  refine up.fewer (fun c => ?_) (up.narrow (List.Subset.refl ps) ?_ hb)
  · simp only [Expr.literals_conditional, Expr.literals_ref, List.count_append, List.count_nil]
    omega
  · simp [hq, List.subset_append_of_subset_right]

/-- A choice between two ways on, which share their continuation. -/
theorem choice {c : Expr} (hc : Converts owner Inv Failed c) {k : Option Expr} (hk : Handy vs k)
    (hvars : c.vars ⊆ vs) (result : Ty) {yes no : Option Expr}
    (hyes : ∀ y ∈ yes, Converts owner Inv Failed y ∧ y.vars ⊆ vs)
    (hno : ∀ y ∈ no, Converts owner Inv Failed y ∧ y.vars ⊆ vs)
    (hw : Inv (c.literals ++ (handed yes ++ handed no) ++ handed k ++ ls) ps vs w) :
    After (convertChoice owner c k result (convertWays owner yes no)) w (Converted Inv ls ps vs)
      Failed := by
  refine (up.fresh c.type hw).bind fun p w₁ hw₁ => ?_
  refine (up.begun result (.head _) hw₁).bind fun id w₂ hid => ?_
  refine (up.shared hid.1 (hk.mono (by simp)) hid.2).bind fun r w₃ hr => ?_
  obtain ⟨prologue, shared⟩ := r
  obtain ⟨more, hshared, hnone, hlits, hrefs, hbodied, hw₃⟩ := hr
  have hsub : vs ⊆ more ++ p :: vs :=
    List.Subset.trans (List.subset_cons_self p vs) (List.subset_append_right ..)
  have hopen : Inv (handed yes ++ (handed no ++ ([id] ++ (handed k ++ (c.literals ++ ls))))) (p :: ps)
      (more ++ p :: vs) w₃ := by
    refine up.fewer (fun c => ?_) hw₃
    simp only [List.count_append]
    omega
  refine (up.ways (fun y hy => ⟨(hyes y hy).1, List.Subset.trans (hyes y hy).2 hsub⟩)
    (fun y hy => ⟨(hno y hy).1, List.Subset.trans (hno y hy).2 hsub⟩) (by simp) hshared hnone
    hopen).bind fun e w₅ he => ?_
  have hbody : Inv ([id] ++ (bodyLiterals (prologue ++ [.ret e]) ++ (c.literals ++ ls))) (p :: ps)
      (e.vars ++ (more ++ p :: vs)) w₅ := by
    refine up.fewer (fun c => ?_) he
    simp only [bodyLiterals_append, hlits, bodyLiterals_simple, Simple.slots, List.flatMap_cons,
      List.flatMap_nil, bodyLiterals_nil, List.count_append, List.count_nil]
    omega
  have hall : bodyRefs (prologue ++ [.ret e]) ⊆ e.vars ++ (more ++ p :: vs) := by
    have hprologue : bodyRefs prologue ⊆ _ := List.subset_append_of_subset_right e.vars hrefs
    simpa [Simple.slots] using hprologue
  refine (up.finished hid.1 (hbodied e) hall hbody).bind fun _ w₆ hw₆ => ?_
  have hlambda : After (Lowering.lambda id) w₆ (fun f w => ∃ t, f = .lambda id t ∧ w = w₆) Failed :=
    Lowering.after_lambda fun t => ⟨t, rfl, rfl⟩
  refine hlambda.bind fun f w₇ hf => ?_
  obtain ⟨t, rfl, rfl⟩ := hf
  have hclosed : Inv ([id] ++ (c.literals ++ ls)) ps vs w₇ :=
    up.narrow (by simp) (List.Subset.trans hsub (List.subset_append_right ..)) hw₆
  refine hc _ _ _ _ _ (.lambda id t) hvars (up.fewer (fun c => ?_) hclosed)
  simp only [handed, Option.map_some, Option.getD_some, Expr.literals_lambda, List.count_append]
  omega

/-- Every conversion keeps up what its steps keep up. -/
theorem convert (e : Expr) : Converts owner Inv Failed e := by
  refine Expr.children_induction (fun e ih => ?_) e
  intro k ls ps vs w hk he hw
  cases treated owner e with
  | refused _ heq =>
      rw [heq]
      exact After.throw (up.failed hw)
  | whole _ heq =>
      rw [heq]
      exact After.pure (up.delivered hk he hw)
  | @operates task es hop _ heq =>
      rw [heq]
      refine (up.parameters hw).bind fun qs w₁ ⟨hlength, hw₁⟩ => ?_
      have hqs {more : List Variable} : qs ⊆ qs.reverse ++ more :=
        fun v hv => List.mem_append_left _ (List.mem_reverse.2 hv)
      have hsub {more : List Variable} : more ⊆ qs.reverse ++ more := List.subset_append_right ..
      obtain ⟨-, -, hvars⟩ := hop.rebuilt hlength
      refine up.narrowed _ _ hsub hsub (up.row (fun x hx => ih x (hop.mem_children hx)) hqs
        (List.Subset.trans (List.Subset.trans hop.vars_subset he) hsub) ((hk.mono hsub).vars ?_) ?_)
      · exact List.Subset.trans hvars (List.append_subset.2 ⟨hqs, List.Subset.trans he hsub⟩)
      · simpa [literals_deliver, hop.literals_rebuilt hlength, ← hop.literals_eq] using hw₁
  | @chooses task x yes no hchoice heq =>
      rw [heq]
      obtain ⟨hx, hyes, hno⟩ := hchoice.mem_children
      have hvars (y : Expr) (hy : y ∈ e.children) : y.vars ⊆ vs :=
        List.Subset.trans (hchoice.vars_subset hy) he
      refine up.choice (ih x hx) hk (hvars x hx) _
        (fun y hy => ⟨ih y (hyes y hy), hvars y (hyes y hy)⟩)
        (fun y hy => ⟨ih y (hno y hy), hvars y (hno y hy)⟩) ?_
      rwa [← hchoice.literals_eq]

end Upkeep

/-! ## Bodies -/

theorem deliver_isMissing {k : Option Expr} {e : Expr} (he : e.isMissing = false) :
    (deliver k e).isMissing = false := by
  cases k with
  | none => exact he
  | some f => rfl

/-- An expression that is converted stands as it is, or one of its parts is
converted last. -/
theorem convert_eq_ok {k : Option Expr} {w w' : Workspace} {e e' : Expr}
    (h : convert owner e k w = .ok e' w') :
    (Whole e ∧ e' = deliver k e) ∨
      ∃ x ∈ e.children, ∃ c w₁, convert owner x (some c) w₁ = .ok e' w' := by
  cases treated owner e with
  | refused _ heq =>
      rw [heq] at h
      cases h
  | whole he heq =>
      rw [heq] at h
      cases h
      exact .inl ⟨he, rfl⟩
  | operates hop _ heq =>
      rw [heq] at h
      obtain ⟨qs, w₁, hqs, h⟩ := bind_eq_ok.1 h
      obtain ⟨x, rest, rfl⟩ := hop.exists_cons
      cases qs with
      | nil =>
          simp only [parameters, bind_eq_ok, pure_eq_ok] at hqs
          obtain ⟨_, _, -, _, _, -, hnil, -⟩ := hqs
          cases hnil
      | cons q qs =>
          simp only [convertArgs, bind_eq_ok] at h
          obtain ⟨_, _, -, c, w₂, -, hconvert⟩ := h
          exact .inr ⟨x, hop.mem_children (.head _), c, w₂, hconvert⟩
  | chooses hchoice heq =>
      simp only [heq, convertChoice, bind_eq_ok] at h
      obtain ⟨_, _, -, _, _, -, _, _, -, _, _, -, _, _, -, f, w₁, -, hconvert⟩ := h
      exact .inr ⟨_, hchoice.mem_children.1, f, w₁, hconvert⟩

/-- What goes to a continuation is a call. -/
theorem convert_isCall {k e e' : Expr} {w w' : Workspace}
    (h : convert owner e (some k) w = .ok e' w') : e'.isCall = true := by
  induction e using Expr.children_induction generalizing k w with
  | h e ih =>
      rcases convert_eq_ok h with ⟨-, rfl⟩ | ⟨x, hx, c, w₁, hconvert⟩
      · rfl
      · exact ih x hx hconvert

theorem convert_isMissing {k : Option Expr} {w w' : Workspace} {e' : Expr} (e : Expr)
    (h : convert owner e k w = .ok e' w') : e'.isMissing = false := by
  rcases convert_eq_ok h with ⟨he, rfl⟩ | ⟨x, -, c, w₁, hconvert⟩
  · exact deliver_isMissing he.isMissing
  · have hcall := convert_isCall hconvert
    cases e' with
    | missing => cases hcall
    | _ => rfl

theorem fillsOnSuccess_convert (owner : FuncId) : FillsOnSuccess (convert owner · none) :=
  fun e _ _ _ h => convert_isMissing e h

/-- Replacing the slots of a body keeps up what the steps of a conversion keep
up; in the end the literals of the new body are in hand. -/
theorem Upkeep.replaceSlots (up : Upkeep owner Inv Failed New) {body body' : List Stmt}
    {w w' : Workspace} {failure : Option Failure}
    (h : Resumable.replaceSlots (Continuation.convert owner · none) body w = (body', w', failure))
    (hw : Inv (bodyLiterals body) [] (bodyRefs body) w) :
    failure.elim (Inv (bodyLiterals body') [] (bodyRefs body') w') fun _ => Failed w' := by
  have hlits (b : List Stmt) : ((visitedList b).flatMap Expr.literals).Perm (bodyLiterals b) :=
    (visitedList_perm b).flatMap_right _
  have hvars (b : List Stmt) : ((visitedList b).flatMap Expr.vars).Perm (bodyRefs b) :=
    (visitedList_perm b).flatMap_right _
  have hrun := replaceSlots_invariant (fillsOnSuccess_convert owner)
    (I := fun done rest w => Inv ((done ++ rest).flatMap Expr.literals) []
      ((done ++ rest).flatMap Expr.vars) w) (F := Failed) ?_ h ?_
  · cases failure with
    | some e => exact hrun
    | none =>
        rw [List.append_nil] at hrun
        refine up.fewer (fun c => ?_) (up.narrow (List.nil_subset _) (hvars body').symm.subset hrun)
        exact Nat.le_of_eq ((hlits body').count_eq c).symm
  · intro done e rest w hw
    have hnext : Inv (e.literals ++ handed none ++ (done ++ rest).flatMap Expr.literals) []
        ((done ++ e :: rest).flatMap Expr.vars) w := by
      refine up.fewer (fun c => ?_) hw
      simp only [handed, Option.map_none, Option.getD_none, List.flatMap_append, List.flatMap_cons,
        List.count_append, List.count_nil]
      omega
    have hin : e.vars ⊆ (done ++ e :: rest).flatMap Expr.vars := by
      simp [List.flatMap_append]
    refine (up.convert e none _ [] _ w .none hin hnext).imp (fun e' w' h => ?_) fun _ h => h
    refine up.fewer (fun c => ?_) (up.narrow (List.nil_subset _) ?_ h)
    · simp only [List.flatMap_append, List.flatMap_cons, List.flatMap_nil, List.count_append,
        List.count_nil]
      omega
    · intro v hv
      simp only [List.flatMap_append, List.flatMap_cons, List.flatMap_nil, List.mem_append,
        List.append_nil] at hv ⊢
      tauto
  · refine up.fewer (fun c => ?_) (up.narrow (List.nil_subset _) (hvars body).subset hw)
    exact Nat.le_of_eq ((hlits body).count_eq c)

end

end Resumable.Continuation
