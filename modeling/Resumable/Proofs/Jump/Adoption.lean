import Resumable.Proofs.Arena.Forest
import Resumable.Proofs.Jump.Upkeep

/-!
# What can stop the removal of jumps

Code with a graph loses its jumps unless the hook fails: a fragment can take
over every closure of its block, if the closures that the code names exist and
none of them is the function or owns it.
-/

namespace Resumable

/-! ## Work with known causes of failure -/

section

variable {ε σ α β : Type}

/-- Work comes to a result with `done`, or fails for one of the causes. -/
def Outcome (x : EStateM ε σ α) (s : σ) (done : α → σ → Prop) (cause : ε → Prop) : Prop :=
  match x s with
  | .ok a t => done a t
  | .error e _ => cause e

variable {x : EStateM ε σ α} {s : σ} {done done' : α → σ → Prop} {cause : ε → Prop}

theorem Outcome.of_ok {a : α} {t : σ} (hx : x s = .ok a t) (h : done a t) :
    Outcome x s done cause := by
  unfold Outcome
  rwa [hx]

theorem Outcome.of_error {e : ε} {t : σ} (hx : x s = .error e t) (h : cause e) :
    Outcome x s done cause := by
  unfold Outcome
  rwa [hx]

theorem Outcome.cases (h : Outcome x s done cause) :
    (∃ a t, x s = .ok a t ∧ done a t) ∨ ∃ e t, x s = .error e t ∧ cause e := by
  unfold Outcome at h
  split at h
  · next a t hx => exact .inl ⟨a, t, hx, h⟩
  · next e t hx => exact .inr ⟨e, t, hx, h⟩

theorem bind_of_ok {f : α → EStateM ε σ β} {a : α} {t : σ} (hx : x s = .ok a t) :
    (x >>= f) s = f a t := by
  change EStateM.bind x f s = f a t
  rw [EStateM.bind, hx]

theorem bind_of_error {f : α → EStateM ε σ β} {e : ε} {t : σ} (hx : x s = .error e t) :
    (x >>= f) s = .error e t := by
  change EStateM.bind x f s = .error e t
  rw [EStateM.bind, hx]

theorem Outcome.bind {f : α → EStateM ε σ β} {wanted : β → σ → Prop} (h : Outcome x s done cause)
    (hf : ∀ a t, done a t → Outcome (f a) t wanted cause) : Outcome (x >>= f) s wanted cause := by
  rcases h.cases with ⟨a, t, hx, hdone⟩ | ⟨e, t, hx, hcause⟩
  · unfold Outcome
    rw [bind_of_ok hx]
    exact hf a t hdone
  · exact .of_error (bind_of_error hx) hcause

theorem Outcome.bind_ok {f : α → EStateM ε σ β} {wanted : β → σ → Prop} {a : α} {t : σ}
    (hx : x s = .ok a t) (h : Outcome (f a) t wanted cause) :
    Outcome (x >>= f) s wanted cause := by
  unfold Outcome
  rw [bind_of_ok hx]
  exact h

theorem Outcome.imp (h : Outcome x s done cause) (hdone : ∀ a t, done a t → done' a t) :
    Outcome x s done' cause := by
  rcases h.cases with ⟨a, t, hx, ha⟩ | ⟨e, t, hx, he⟩
  · exact .of_ok hx (hdone a t ha)
  · exact .of_error hx he

end

/-! ## Closures that can be taken over -/

namespace Program

variable {p q : Program}

/-- A chain of owners depends on the parent links along it only. -/
theorem Forest.chain_congr (hp : p.Forest) (hq : q.Forest) {fn : FuncId}
    (h : ∀ a ∈ p.chain fn, q.parent a = p.parent a) : q.chain fn = p.chain fn := by
  revert h
  refine hp.induction (motive := fun fn => (∀ a ∈ p.chain fn, q.parent a = p.parent a) →
    q.chain fn = p.chain fn) (fun _ => ?_) (fun fn hne ih h => ?_) fn
  · rw [chain_noFunc, chain_noFunc]
  · rw [hp.chain_eq hne] at h ⊢
    rw [hq.chain_eq hne, h fn (.head _), ih fun a ha => h a (.tail _ ha)]

/-- A definition moves to any owner that it does not own. -/
theorem reparent_eq_moveTo {child newParent : FuncId} (hchild : (p.func? child).isSome)
    (hparent : (p.func? newParent).isSome) (hcycle : child ∉ p.chain newParent) :
    p.reparent child newParent = .ok (p.moveTo child newParent) := by
  have hne : newParent ≠ noFunc := by
    rintro rfl
    cases hparent
  rw [← Option.not_isNone, Bool.not_eq_true'] at hchild hparent
  rw [reparent, hchild, hparent, if_neg Bool.false_ne_true, if_neg hne, if_neg Bool.false_ne_true,
    if_neg (by simpa using hcycle)]

/-- Some definitions exist and do not own the function `id`, so that definitions
below it can take them over. Roots are below no function. -/
structure Hosts (p : Program) (id : FuncId) (hand : List FuncId) : Prop where
  forest : p.Forest
  known : id = noFunc ∨ (p.func? id).isSome
  hand : ∀ c ∈ hand, (p.func? c).isSome ∧ c ∉ p.chain id

namespace Hosts

variable {id : FuncId} {hand : List FuncId}

theorem fewer (h : p.Hosts id hand) {hand' : List FuncId} (hsub : hand' ⊆ hand) :
    p.Hosts id hand' where
  forest := h.forest
  known := h.known
  hand c hc := h.hand c (hsub hc)

/-- Only the parent links of `id` and its owners matter. -/
theorem congr (h : p.Hosts id hand) (hq : q.Forest)
    (hknown : ∀ fn, (p.func? fn).isSome → (q.func? fn).isSome)
    (hparent : ∀ a ∈ p.chain id, q.parent a = p.parent a) : q.Hosts id hand where
  forest := hq
  known := h.known.imp_right (hknown id)
  hand c hc := by
    rw [h.forest.chain_congr hq hparent]
    exact ⟨hknown c (h.hand c hc).1, (h.hand c hc).2⟩

theorem of_funcs (h : p.Hosts id hand) (hq : q.funcs = p.funcs) : q.Hosts id hand := by
  have hfunc (fn : FuncId) : q.func? fn = p.func? fn := by rw [func?, func?, hq]
  have hparent (fn : FuncId) : q.parent fn = p.parent fn := by
    rw [parent_eq_getD, parent_eq_getD, hfunc]
  have hforest : q.Forest := by
    refine h.forest.congr (fun fn => by rw [hfunc]) hparent fun owner fn => ?_
    rw [owns_eq_any, owns_eq_any, hfunc]
  exact h.congr hforest (fun fn hfn => by rwa [hfunc]) fun a _ => hparent a

theorem modifyFunc (h : p.Hosts id hand) {change : Func → Func}
    (hparent : ∀ f, (change f).parent = f.parent)
    (hclosures : ∀ f, (change f).closures = f.closures) (fn : FuncId) :
    (p.modifyFunc fn change).Hosts id hand :=
  h.congr (h.forest.modifyFunc hparent hclosures fn)
    (fun a ha => by rwa [isSome_func?_modifyFunc]) fun a _ => parent_modifyFunc hparent p fn a

theorem shareBody (h : p.Hosts id hand) (fn : FuncId) : (p.shareBody fn).Hosts id hand := by
  unfold Program.shareBody
  split
  · exact h
  · next f _ =>
      have hset : (p.modifyFunc fn fun g => { g with
          body := f.body.mapIdx fun i s => s.share (p.shareCount + i) }).Hosts id hand :=
        h.modifyFunc (by intro g; rfl) (by intro g; rfl) fn
      exact hset.of_funcs rfl

/-- A chain of owners holds no unknown definitions. -/
theorem isSome_of_mem_chain (h : p.Hosts id hand) {a : FuncId} (ha : a ∈ p.chain id) :
    (p.func? a).isSome := by
  obtain ⟨hne, k, rfl⟩ := h.forest.mem_chain.1 ha
  exact (h.forest.iterate_known h.known k).resolve_left hne

/-- A new definition below the function is not among those in hand. -/
theorem newFunc (h : p.Hosts id hand) (name : String) (params : List Variable) (result : Ty) :
    (p.newFunc id name params result).2.Hosts id hand ∧
      ((p.newFunc id name params result).2.func? (p.size + 1)).isSome ∧
      (p.newFunc id name params result).2.parent (p.size + 1) = id ∧ p.size + 1 ∉ hand := by
  have hnew {a : FuncId} (ha : (p.func? a).isSome) : a ≠ p.size + 1 := by
    rintro rfl
    have hle := (isSome_func?.1 ha).2
    omega
  refine ⟨h.congr (h.forest.newFunc h.known name params result) (fun fn hfn => ?_)
    fun a ha => ?_, ?_, ?_, fun hmem => hnew (h.hand _ hmem).1 rfl⟩
  · rw [isSome_func?] at hfn ⊢
    rw [newFunc_size]
    omega
  · rw [parent_newFunc, if_neg (hnew (h.isSome_of_mem_chain ha))]
  · rw [isSome_func?, newFunc_size]
    omega
  · rw [parent_newFunc, if_pos rfl]

/-- A definition below the function takes over one of those in hand. -/
theorem moveTo (h : p.Hosts id hand) {fn c : FuncId} (hfn : (p.func? fn).isSome)
    (hparent : p.parent fn = id) (hc : c ∈ hand) (hne : c ≠ fn) :
    p.reparent c fn = .ok (p.moveTo c fn) ∧ (p.moveTo c fn).Hosts id hand ∧
      (p.moveTo c fn).parent fn = id := by
  obtain ⟨hknown, habove⟩ := h.hand c hc
  have hcycle : c ∉ p.chain fn := by
    rw [h.forest.chain_eq (by rintro rfl; cases hfn), hparent]
    simp [hne, habove]
  have hmove := reparent_eq_moveTo hknown hfn hcycle
  refine ⟨hmove, h.congr (h.forest.reparent hmove) (fun a ha => ?_) fun a ha => ?_, ?_⟩
  · rwa [isSome_func?_moveTo]
  · rw [parent_moveTo hknown, if_neg]
    rintro rfl
    exact habove ha
  · rw [parent_moveTo hknown, if_neg hne.symm, hparent]

end Hosts

end Program

namespace Lowering

variable {I : Program → Prop}

/-- A definition takes over closures one by one, if each move can be made and
keeps up what allows the next one. -/
theorem forM_reparent (phase : Phase) (detail : String) (fn : FuncId) (cs : List FuncId)
    {w : Workspace} (hw : I w.program)
    (hmove : ∀ p, I p → ∀ c ∈ cs, p.reparent c fn = .ok (p.moveTo c fn) ∧ I (p.moveTo c fn)) :
    ∃ w', cs.forM (fun c => Lowering.reparent phase detail c fn) w = .ok () w' ∧ I w'.program := by
  induction cs generalizing w with
  | nil => exact ⟨w, rfl, hw⟩
  | cons c cs ih =>
      obtain ⟨hfirst, hkeeps⟩ := hmove w.program hw c (.head _)
      obtain ⟨w', hrest, hdone⟩ := ih (w := { w with program := w.program.moveTo c fn }) hkeeps
        fun p hp c hc => hmove p hp c (.tail _ hc)
      refine ⟨w', ?_, hdone⟩
      have hrun : Lowering.reparent phase detail c fn w =
          .ok () { w with program := w.program.moveTo c fn } := by
        rw [Lowering.reparent, hfirst]
      exact (bind_of_ok hrun).trans hrest

theorem adoptBody_ok (phase : Phase) (detail : String) (fn : FuncId) (body : List Stmt)
    {w : Workspace}
    (hw : I (w.program.modifyFunc fn fun f => { f with body }))
    (hmove : ∀ p, I p → ∀ c ∈ bodyLiterals body,
      p.reparent c fn = .ok (p.moveTo c fn) ∧ I (p.moveTo c fn)) :
    ∃ n w', Lowering.adoptBody phase detail fn body w = .ok n w' ∧ I w'.program := by
  obtain ⟨w', hmoved, hdone⟩ := forM_reparent phase detail fn (bodyClosures body)
    (w := { w with program := w.program.modifyFunc fn fun f => { f with body } }) hw
    fun p hp c hc => hmove p hp c (mem_bodyClosures_iff.1 hc)
  exact ⟨_, w', (bind_of_ok rfl).trans (bind_of_ok hmoved), hdone⟩

end Lowering

namespace Elimination

variable {id : FuncId} {hand : List FuncId}

theorem declareLabels_ok (type : Ty) (labels : List String) {w : Workspace}
    (hw : w.program.Hosts id hand) :
    ∃ vars w', declareLabels id type labels w = .ok vars w' ∧ w'.program.Hosts id hand := by
  induction labels generalizing w with
  | nil => exact ⟨[], w, rfl, hw⟩
  | cons l rest ih =>
      have hadded : ((w.program.newVariable l type).2.modifyFunc id fun f =>
          { f with locals := f.locals ++ [(w.program.newVariable l type).1] }).Hosts id hand :=
        (hw.of_funcs (q := (w.program.newVariable l type).2) rfl).modifyFunc (by intro f; rfl)
          (by intro f; rfl) id
      obtain ⟨vars, w', hrest, hdone⟩ := ih (w := { w with program := _ }) hadded
      exact ⟨_, w', (bind_of_ok rfl).trans ((bind_of_ok rfl).trans (bind_of_ok hrest)), hdone⟩

section

variable {η : Type} {hook : Hook η} {vars : LabelVars} {cause : Failure → Prop}

theorem outcome_onWorkspace {α : Type} {m : Lowering α} {w : Workspace} {n : η}
    {done : α → Workspace × η → Prop} (h : Outcome m w (fun a w' => done a (w', n)) cause) :
    Outcome (onWorkspace m) (w, n) done cause := by
  rcases h.cases with ⟨a, w', hrun, hdone⟩ | ⟨e, w', hrun, hcause⟩
  · exact .of_ok (onWorkspace_eq_ok.2 ⟨hrun, rfl⟩) hdone
  · refine .of_error (t := (w', n)) ?_ hcause
    rw [onWorkspace, hrun]

theorem outcome_withNotes {α : Type} {m : Noted η α} {w : Workspace} {n : η}
    {done : α → Workspace × η → Prop} (h : Outcome m (w, n) done cause) :
    Outcome (withNotes m n) w (fun r w' => done r.1 (w', r.2)) cause := by
  rcases h.cases with ⟨a, s, hrun, hdone⟩ | ⟨e, s, hrun, hcause⟩
  · exact .of_ok (withNotes_eq_ok.2 hrun) hdone
  · refine .of_error (t := s.1) ?_ hcause
    rw [withNotes, hrun]

theorem outcome_runHook {f : Fragment} {w : Workspace} {n : η}
    {done : List Stmt → η → Prop} (h : Outcome (hook w.program f) n done cause) :
    Outcome (runHook hook f) (w, n) (fun body s => s.1 = w ∧ done body s.2 ∧
      hook w.program f n = .ok body s.2) cause := by
  rcases h.cases with ⟨body, n', hrun, hdone⟩ | ⟨e, n', hrun, hcause⟩
  · exact .of_ok (runHook_eq_ok.2 ⟨hrun, rfl⟩) ⟨rfl, hdone, hrun⟩
  · refine .of_error (t := (w, n')) ?_ hcause
    rw [runHook, hrun]

/-- Making a fragment fails only if the hook does. -/
theorem outcome_makeFragment (hhook : hook.Faithful) {result : Ty} {b : Block} {w : Workspace}
    {n : η} {done : η → Prop} (hw : w.program.Hosts id hand) (hb : bodyLiterals b.stmts ⊆ hand)
    (h : Outcome (hook w.program ⟨b.label, b.stmts.map (convertStmt vars), vars⟩) n
      (fun _ => done) cause) :
    Outcome (makeFragment hook id result vars b) (w, n)
      (fun _ s => s.1.program.Hosts id hand ∧ done s.2) cause := by
  refine (outcome_runHook h).bind fun body s hs => ?_
  obtain ⟨w₁, n₁⟩ := s
  obtain ⟨rfl, hdone, hrun⟩ := hs
  have hliterals : bodyLiterals body ⊆ hand := by
    rw [hhook.literals hrun, bodyLiterals_map_convertStmt]
    exact hb
  obtain ⟨hhosts, hknown, hparent, hnew⟩ := hw.newFunc "" [] result
  obtain ⟨k, w', hadopt, hstill, -⟩ := Lowering.adoptBody_ok .eliminate
    ("moving closure into fragment " ++ b.label) (w₁.program.size + 1) body
    (I := fun p => p.Hosts id hand ∧ (p.func? (w₁.program.size + 1)).isSome ∧
      p.parent (w₁.program.size + 1) = id)
    (w := { w₁ with program := (w₁.program.newFunc id "" [] result).2 })
    ⟨hhosts.modifyFunc (by intro f; rfl) (by intro f; rfl) _, by rwa [Program.isSome_func?_modifyFunc],
      (Program.parent_modifyFunc (by intro f; rfl) ..).trans hparent⟩
    fun p hp c hc => by
      obtain ⟨hmove, hkeeps, hstill⟩ := hp.1.moveTo hp.2.1 hp.2.2 (hliterals hc)
        fun heq => hnew (heq ▸ hliterals hc)
      exact ⟨hmove, hkeeps, by rw [Program.isSome_func?_moveTo]; exact hp.2.1, hstill⟩
  refine outcome_onWorkspace (.bind_ok rfl (.bind_ok hadopt (.bind_ok rfl ?_)))
  exact ⟨hstill, hdone⟩

/-- Making fragments fails only if the hook does; each adds the
statements of its block that pass the test to the notes. -/
theorem outcome_makeFragments {hook : Hook Nat} (hhook : hook.Faithful) {result : Ty}
    (test : Stmt → Bool) {blocks : List Block} {w : Workspace} {n : Nat}
    (hw : w.program.Hosts id hand) (hblocks : ∀ b ∈ blocks, bodyLiterals b.stmts ⊆ hand)
    (h : ∀ b ∈ blocks, ∀ p n, Outcome (hook p ⟨b.label, b.stmts.map (convertStmt vars), vars⟩) n
      (fun _ n' => n' = n + b.stmts.countP test) cause) :
    Outcome (makeFragments hook id result vars blocks) (w, n)
      (fun _ s => s.2 = n + (blocks.flatMap Block.stmts).countP test) cause := by
  induction blocks generalizing w n with
  | nil => exact .of_ok rfl rfl
  | cons b rest ih =>
      obtain ⟨hfirst, hrest⟩ := List.forall_mem_cons.1 h
      obtain ⟨hb, hblocks⟩ := List.forall_mem_cons.1 hblocks
      refine (outcome_makeFragment hhook hw hb (hfirst w.program n)).bind fun made s hs => ?_
      obtain ⟨w₁, n₁⟩ := s
      obtain ⟨hw₁, rfl⟩ := hs
      refine (ih hw₁ hblocks hrest).bind fun more s hs => .of_ok rfl ?_
      rw [hs, List.flatMap_cons, List.countP_append, Nat.add_assoc]

/-- Removing the jumps of code with a graph fails only if the hook does. -/
theorem outcome_eliminate {hook : Hook Nat} (hhook : hook.Faithful) {result : Ty}
    (test : Stmt → Bool) {w : Workspace} {n : Nat} {c : Code} (hc : w.program.code? id = some c)
    (hw : w.program.Hosts id (bodyLiterals c.body)) {g : Graph}
    (hg : Graph.build (c.body.mapIdx fun i s => s.share (w.program.shareCount + i)) = .ok g)
    (h : ∀ vars, vars.map Prod.fst = g.labels → vars.map (fun entry => entry.2.name) = g.labels →
      ∀ b ∈ g.labelled, ∀ p n, Outcome
        (hook p ⟨b.label, b.stmts.map (convertStmt vars), vars⟩) n
        (fun _ n' => n' = n + b.stmts.countP test) cause) :
    Outcome (eliminate hook id result) (w, n)
      (fun r s => r.labelVars.map Prod.fst = g.labels ∧
        r.entry = g.entry.stmts.map (convertStmt r.labelVars) ∧
        s.2 = n + (g.labelled.flatMap Block.stmts).countP test) cause := by
  have hblocks : ∀ b ∈ g.labelled, bodyLiterals b.stmts ⊆ bodyLiterals c.body := by
    intro b hb
    rw [← bodyLiterals_of_same (Stmt.same_share c.body _)]
    refine List.Subset.trans ?_ (bodyLiterals_sublist (Graph.split_sublist _)).subset
    rw [← (Graph.describes_of_build hg).eq_split, bodyLiterals_flatMap]
    exact fun c hc => List.mem_flatMap.2 ⟨b, .tail _ hb, hc⟩
  obtain ⟨vars, w₁, hvars, hw₁⟩ := declareLabels_ok (.function result []) g.labels
    (w := { w with program := w.program.shareBody id }) (hw.shareBody id)
  obtain ⟨hfst, hnamed, -⟩ := declareLabels_spec hvars
  have hbuild : onWorkspace (η := Nat) (Lowering.lift (Graph.build
      (((w.program.shareBody id).func? id).getD { name := "" }).body))
      ({ w with program := w.program.shareBody id }, n) =
        .ok g ({ w with program := w.program.shareBody id }, n) := by
    rw [body_shareBody hc, hg]
    rfl
  refine .bind_ok rfl (.bind_ok rfl (.bind_ok hbuild
    (.bind_ok (onWorkspace_eq_ok.2 ⟨hvars, rfl⟩) ?_)))
  refine (outcome_makeFragments hhook test hw₁ hblocks (h vars hfst hnamed)).bind fun made s hs => ?_
  exact .bind_ok rfl (.of_ok rfl ⟨hfst, rfl, hs⟩)

end

end Elimination

end Resumable
