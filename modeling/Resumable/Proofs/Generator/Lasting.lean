import Resumable.Proofs.Continuation.Bodies
import Resumable.Proofs.Generator.Founding
import Resumable.Proofs.Rule

/-!
# What a generator call leaves for good

Only the compiled function itself sets the variables that compiling has added, and
a call of it sets those of its own frame. So a frame keeps the object and the
fragments in it, whatever is run afterwards.
-/

namespace Resumable

/-! ## Variables that are set -/

namespace Expr

def target? : Expr → Option Variable
  | .assign (.ref v) _ => some v
  | .unary op (.ref v) _ => if op.isIncDec then some v else none
  | _ => none

theorem overlooks_target? : Overlooks target? :=
  ⟨fun _ => rfl, fun _ _ _ => rfl, fun _ _ => rfl, fun _ _ _ => rfl, fun _ _ _ _ => rfl⟩

theorem mem_nodes {n e : Expr} (h : n ∈ e.nodes) : n = e ∨ ∃ c ∈ e.children, n ∈ c.nodes := by
  cases e with
  | missing => cases h
  | literal | ref | receiver | lambda => exact .inl (List.mem_singleton.1 h)
  | _ =>
      rw [nodes] at h
      rcases List.mem_cons.1 h with rfl | h
      · exact .inl rfl
      · exact .inr (by simpa [children, nodesList_eq_flatMap] using h)

/-- What is set is mentioned. -/
theorem targets_subset (e : Expr) : e.nodes.filterMap target? ⊆ e.vars := by
  induction e using children_induction with
  | h e ih =>
      intro v hv
      obtain ⟨n, hn, htarget⟩ := List.mem_filterMap.1 hv
      rcases mem_nodes hn with rfl | ⟨c, hc, hn⟩
      · unfold target? at htarget
        split at htarget
        · cases htarget
          simp
        · split at htarget
          · cases htarget
            simp
          · cases htarget
        · cases htarget
      · exact List.filterMap_subset _ (nodes_subset hc)
          (ih c hc (List.mem_filterMap.2 ⟨n, hn, htarget⟩))

end Expr

theorem bodyTargets_subset (body : List Stmt) : bodyPicks Expr.target? body ⊆ bodyRefs body := by
  intro v hv
  obtain ⟨e, he, hv⟩ := List.mem_flatMap.1 hv
  exact List.mem_flatMap.2 ⟨e, he, e.targets_subset hv⟩

theorem Store.binding_assign {σ : Store} {env : Env} {v : Variable} {x : Value} {y : Nat}
    (hy : y ≠ v.id) (j : FrameId) : (σ.assign env v x).binding j y = σ.binding j y := by
  rw [Store.assign]
  split
  · exact σ.binding_setBinding_of_ne (fun h => hy h.2) x
  · split <;> rfl

theorem Store.size_frames_assign (σ : Store) (env : Env) (v : Variable) (x : Value) :
    (σ.assign env v x).frames.size = σ.frames.size := by
  rw [assign]
  split
  · simp
  · split <;> rfl

theorem Store.objects_assign (σ : Store) (env : Env) (v : Variable) (x : Value) :
    (σ.assign env v x).objects = σ.objects := by
  rw [assign]
  split
  · rfl
  · split <;> rfl

namespace Generator

open Machine

/-! ## The rule -/

structure Keeps (names : Nat → Prop) (j : FrameId) (σ τ : Store) : Prop where
  frame : j < τ.frames.size
  binding : ∀ x, names x → τ.binding j x = σ.binding j x
  objects : σ.objects.size ≤ τ.objects.size

/-- No code sets the variables that a frame keeps. -/
def keeping (names : Nat → Prop) (j : FrameId) (σ : Store) : Rule where
  expr e := ∀ v ∈ e.nodes.filterMap Expr.target?, ¬ names v.id
  target e := (∀ v ∈ e.nodes.filterMap Expr.target?, ¬ names v.id) ∧ ∀ v, e = .ref v → ¬ names v.id
  value _ := True
  func _ := True
  store := Keeps names j σ
  apart _ := False

section

variable {names : Nat → Prop} {j : FrameId} {σ : Store}

theorem lawful_keeping : (keeping names j σ).Lawful where
  missing := by simp [keeping, Expr.nodes]
  child h hc := fun v hv => h v (List.filterMap_subset _ (Expr.nodes_subset hc) hv)
  assigned {t x} h := by
    refine ⟨fun v hv => h v (List.filterMap_subset _ (Expr.nodes_subset (.head _)) hv), ?_⟩
    rintro v rfl
    exact h v (by simp [Expr.nodes, Expr.target?])
  changed {op x t} hop h := by
    refine ⟨fun v hv => h v (List.filterMap_subset _ (Expr.nodes_subset (.head _)) hv), ?_⟩
    rintro v rfl
    exact h v (by simp [Expr.nodes, Expr.target?, hop])
  place h hc := fun v hv => h.1 v (List.filterMap_subset _ (Expr.nodes_subset hc) hv)
  data _ := trivial
  made _ _ _ := trivial
  called _ := trivial
  found _ _ _ := trivial
  field _ _ _ := trivial
  assign {τ v x} h hv _ env := by
    refine ⟨?_, fun y hy => ?_, ?_⟩
    · rw [Store.size_frames_assign]
      exact h.frame
    · rw [Store.binding_assign (fun heq => hv.2 v rfl (heq ▸ hy)), h.binding y hy]
    · rw [Store.objects_assign]
      exact h.objects
  frame {τ bs} h _ :=
    ⟨by simpa [Store.newFrame] using Nat.lt_succ_of_lt h.frame,
      fun x hx => by rw [Store.binding_newFrame, if_neg (Nat.ne_of_lt h.frame), h.binding x hx],
        h.objects⟩
  object h _ := ⟨h.frame, h.binding, by simpa [Store.newObject] using Nat.le_succ_of_le h.objects⟩
  set h _ _ _ := ⟨h.frame, h.binding, by simpa [Store.modifyFields] using h.objects⟩
  erase h _ _ := ⟨h.frame, h.binding, by simpa [Store.modifyFields] using h.objects⟩
  noted {τ υ} h hframes hobjects _ := by
    refine ⟨hframes ▸ h.frame, fun x hx => ?_, hobjects ▸ h.objects⟩
    rw [← h.binding x hx, Store.binding, Store.binding, hframes]

theorem code_keeping {body : List Stmt} :
    (keeping names j σ).Code body ↔ ∀ v ∈ bodyPicks Expr.target? body, ¬ names v.id := by
  rw [bodyPicks_eq]
  simp only [Rule.Code, keeping, List.mem_flatMap, forall_exists_index, and_imp]
  exact ⟨fun h v s hs e he hv => h s hs e he v hv, fun h s hs e he v hv => h v s hs e he hv⟩

end

/-! ## Runs -/

/-- A state in which the rule holds, or will once the generator call under way has
made its object. -/
def Lasts (p : Program) (names : Nat → Prop) (j : FrameId) (σ : Store) (s : State) : Prop :=
  ∃ t, Steps (free p) (fun s => callee? s = none) s t ∧ (keeping names j σ).Holds t

section

variable {stop : ClassId} {D : Compilation} {id : FuncId} {c : Code} {p p' : Program}
  {names : Nat → Prop} {j : FrameId} {σ : Store} {limit : Nat}

theorem Founded.keeps {env : Env} {τ υ : Store} (h : Founded D env τ υ) (hτ : Keeps names j σ τ) :
    Keeps names j σ υ :=
  ⟨Nat.lt_trans hτ.frame h.frames, fun x hx => (h.binding j hτ.frame x).trans (hτ.binding x hx),
    Nat.le_trans hτ.objects (Nat.le_of_lt h.objects)⟩

theorem Lasts.holds_of_callee {s : State} (h : Lasts p names j σ s) {fn : FuncId}
    (hfn : callee? s = some fn) : (keeping names j σ).Holds s := by
  obtain ⟨t, hsteps, ht⟩ := h
  cases hsteps with
  | refl => exact ht
  | head hnone _ _ =>
      rw [hfn] at hnone
      cases hnone

theorem lasts_of_leadsOn {step : Step} (h : (keeping names j σ).LeadsOn step) :
    Machine.Leads (Lasts p names j σ) (fun _ => Keeps names j σ) step := by
  cases step with
  | next s =>
      rcases h with h | h
      · exact ⟨s, .refl s, h⟩
      · obtain ⟨hfalse, -, -⟩ := h
        exact hfalse.elim
  | halt r τ => exact h.2

variable (h : Compiled stop D id c p p')
  (hothers : ∀ fn f, fn ≠ id → p'.func? fn = some f → (keeping names j σ).Code f.body)

include h hothers

/-- A call keeps what the frame keeps: that of another function step by step, and
that of the generator once its object is made. -/
theorem lasts_callValue (callee : Value) (args : List Value) {stack : List Waiting} {depth : Nat}
    {store : Store} (hstack : ∀ w ∈ stack, (keeping names j σ).OfWaiting w)
    (hstore : Keeps names j σ store) :
    Machine.Leads (Lasts p' names j σ) (fun _ => Keeps names j σ)
      (callValue ⟨p', limit⟩ callee args stack depth store) := by
  by_cases hcallee : ∃ tag env, callee = .closure tag id env
  · obtain ⟨tag, env, rfl⟩ := hcallee
    obtain ⟨f, hf, -⟩ := Option.map_eq_some_iff.1 h.own
    simp only [callValue]
    split
    · exact hstore
    · simp only [hf]
      obtain ⟨τ, hτ, hsteps⟩ := h.founds hf env args store stack depth
      exact ⟨_, hsteps, trivial, hstack, hτ.keeps hstore⟩
  · refine lasts_of_leadsOn (Rule.leads_callValue hstack hstore lawful_keeping trivial ?_ ?_).on
    · rintro tag fn env f rfl hf
      exact .of_code (hothers fn f (fun heq => hcallee ⟨tag, env, heq ▸ rfl⟩) hf)
    · exact fun _ _ => trivial

theorem Lasts.leads {s : State} (hs : Lasts p' names j σ s) :
    Machine.Leads (Lasts p' names j σ) (fun _ => Keeps names j σ) (step ⟨p', limit⟩ s) := by
  obtain ⟨t, hsteps, ht⟩ := hs
  cases hsteps with
  | head hnone hnext hrest =>
      rw [step_eq_free (by simp [hnone]), hnext]
      exact ⟨t, hrest, ht⟩
  | refl =>
      by_cases hcallee : callee? s = some id
      · -- the generator is called
        obtain ⟨focus, stack, depth, store⟩ := s
        unfold callee? at hcallee
        split at hcallee
        · next v done env below hfocus hstack =>
            cases hfocus
            cases hstack
            exact lasts_callValue h hothers _ _ (List.forall_mem_cons.1 ht.stack).2 ht.store
        · cases hcallee
      · refine lasts_of_leadsOn (ht.leadsOn lawful_keeping fun fn f hfn _ hf => ?_)
        exact .of_code (hothers fn f (fun heq => hcallee (heq ▸ hfn)) hf)

theorem lasts_start (callee : Value) (args : List Value) {τ : Store} (hτ : Keeps names j σ τ) :
    Machine.Leads (Lasts p' names j σ) (fun _ => Keeps names j σ) (start ⟨p', limit⟩ callee args τ) :=
  lasts_callValue h hothers callee args (by simp) hτ

/-- Every call keeps what the frame keeps. -/
theorem keeps_of_call {fuel : Nat} {callee : Value} {args : List Value} {r : Except Failure Value}
    {τ υ : Store} (hτ : Keeps names j σ τ)
    (hcall : call ⟨p', limit⟩ fuel callee args τ = some (r, υ)) : Keeps names j σ υ :=
  call_keeps (fun _ hs => Lasts.leads h hothers hs) (lasts_start h hothers callee args hτ) hcall

/-- The frame still keeps it where a function is called on the way. -/
theorem keeps_of_steps {callee : Value} {args : List Value} {τ : Store} (hτ : Keeps names j σ τ)
    {ok : State → Prop} {s t : State} (hstart : start ⟨p', limit⟩ callee args τ = .next s)
    (hsteps : Steps (step ⟨p', limit⟩) ok s t) {fn : FuncId} (hfn : callee? t = some fn) :
    Keeps names j σ t.store := by
  have hfirst : Machine.Leads (Lasts p' names j σ) (fun _ => Keeps names j σ)
      (start ⟨p', limit⟩ callee args τ) := lasts_start h hothers callee args hτ
  rw [hstart] at hfirst
  have hlast : Lasts p' names j σ t := hsteps.keeps (fun _ hs => Lasts.leads h hothers hs) hfirst
  exact (hlast.holds_of_callee hfn).store

end

/-! ## What compiling adds -/

section

variable {stop : ClassId} {D : Compilation} {id : FuncId} {c : Code} {p p' : Program} {j : FrameId}
  {σ : Store}

/-- What compiling adds are new variables. -/
theorem Compiled.le_of_added (h : Compiled stop D id c p p') {v : Variable} (hv : v ∈ D.added) :
    p.varCount ≤ v.id := by
  rw [← h.object]
  rcases List.mem_cons.1 hv with rfl | hv
  · exact Nat.le_refl _
  · exact Nat.le_of_lt (h.object_lt hv)

/-- No other function sets what compiling adds: fragments set what the body did. -/
theorem Compiled.code_keeping (h : Compiled stop D id c p p') (hc : p.code? id = some c)
    (hrefs : ∀ fn, ∀ v ∈ bodyRefs (p.bodyOf fn), v.id < p.varCount) {fn : FuncId} {f : Func}
    (hne : fn ≠ id) (hf : p'.func? fn = some f) :
    (keeping (· ∈ D.added.map (·.id)) j σ).Code f.body := by
  refine Generator.code_keeping.2 fun v hv hadded => ?_
  have hd := Program.code?_eq_some hf
  have hold : ∃ fn, v ∈ bodyRefs (p.bodyOf fn) := by
    by_cases hfn : fn ≤ p.size
    · rw [h.others fn hfn hne] at hd
      exact ⟨fn, Program.bodyOf_of_eq_some hd ▸ bodyTargets_subset _ hv⟩
    · obtain ⟨b, hb, body, hcode, q, n, n', -, hhook⟩ := h.found fn _ (Nat.lt_of_not_le hfn) hd
      obtain ⟨names, names', hlowered⟩ := h.lowered
      obtain ⟨k, hg⟩ := h.graph
      have hbody : f.body = body := congrArg Code.body hcode
      rw [hbody, faithful_hook _ _ _ _ Expr.overlooks_target? _ _ _ _ _ hhook,
        Elimination.bodyPicks_map_convertStmt Expr.overlooks_target?] at hv
      have hmentioned := Pass.mentioned_block (P := (· ∈ bodyRefs c.body)) hlowered hg
        (fun _ hv => hv) (.tail _ hb)
      exact ⟨id, Program.bodyOf_of_eq_some hc ▸
        hmentioned v (mem_mentions_of_refs (bodyTargets_subset _ hv))⟩
  obtain ⟨fn, hv⟩ := hold
  obtain ⟨u, hu, hid⟩ := List.mem_map.1 hadded
  exact Nat.not_lt.2 (h.le_of_added hu) (hid ▸ hrefs fn v hv)

end

end Generator

theorem mem_bodyRefs_iff {body : List Stmt} {v : Variable} :
    v ∈ bodyRefs body ↔ ∃ s ∈ body, v ∈ bodyRefs [s] := by
  induction body with
  | nil => simp
  | cons s body ih =>
      rw [← List.singleton_append, bodyRefs_append, List.mem_append, ih]
      simp

/-- Bodies refer to what they did before a body was filled anew, and to what is in
that body. -/
theorem Program.mem_bodyRefs_refill {p : Program} {id fn : FuncId} {body : List Stmt} {v : Variable}
    (hv : v ∈ bodyRefs ((p.refill id body).bodyOf fn)) :
    v ∈ bodyRefs body ∨ v ∈ bodyRefs (p.bodyOf fn) := by
  have hcode := code?_setBody (p.refresh body) id fn body
  rw [code?_refresh] at hcode
  cases hd : p.code? fn with
  | none =>
      have hnone : (p.refill id body).code? fn = none := by
        rw [refill, hcode, hd]
        split <;> rfl
      rw [bodyOf_eq_code?, hnone] at hv
      cases hv
  | some d =>
      rw [hd, Option.map_some] at hcode
      by_cases hne : fn = id
      · rw [if_pos hne, Option.map_some] at hcode
        rw [refill, bodyOf_of_eq_some hcode] at hv
        exact .inl hv
      · rw [if_neg hne] at hcode
        rw [refill, bodyOf_of_eq_some hcode] at hv
        obtain ⟨s, hs, hv⟩ := mem_bodyRefs_iff.1 hv
        obtain ⟨t, ht, rfl⟩ := List.mem_map.1 hs
        rw [bodyOf_of_eq_some hd]
        rcases t.refresh_cases body with hsame | ⟨-, u, hu, -, hsame⟩
        · exact .inr (mem_bodyRefs_iff.2 ⟨t, ht, hsame ▸ hv⟩)
        · exact .inl (mem_bodyRefs_iff.2 ⟨u, hu, hsame ▸ hv⟩)

namespace Pass

/-- Converted bodies refer to variables that are there. -/
theorem lt_of_converted {config : Config} {id : FuncId} {w w' : Workspace}
    (hscoped : w.program.scoped = true) (h : Converted config id w w') (fn : FuncId) :
    ∀ v ∈ bodyRefs (w'.program.bodyOf fn), v.id < w'.program.varCount := by
  intro v hv
  unfold Converted at h
  split at h
  · subst h
    exact Program.lt_of_mem_bodyRefs hscoped hv
  obtain ⟨body, w₁, hrun, rfl⟩ := convertBody_eq_ok h
  have hcontinued : Continuation.Continued w (·.id < w.program.varCount) [] (bodyRefs body) w₁ :=
    (Continuation.continued_convert w _ id).replaceSlots hrun
      (.start w fun v hv => Program.lt_of_mem_bodyRefs hscoped hv)
  have hlt {v : Variable} (hv : Continuation.Mentionable w (·.id < w.program.varCount)
      w₁.program.varCount v) : v.id < w₁.program.varCount :=
    hv.elim (fun hv => Nat.lt_of_lt_of_le hv hcontinued.varCount) fun hv => hv.2
  have hcount : (w₁.program.refill id body).varCount = w₁.program.varCount := by
    rw [Program.refill, Program.modifyFunc_varCount, Program.refresh_varCount]
  change v.id < (w₁.program.refill id body).varCount
  rw [hcount]
  rcases Program.mem_bodyRefs_refill hv with hv | hv
  · exact hlt (hcontinued.mentionable v hv)
  · by_cases hfn : fn ≤ w.program.size
    · have hsame : w₁.program.bodyOf fn = w.program.bodyOf fn :=
        Program.bodyOf_of_code? (hcontinued.old fn hfn)
      rw [hsame] at hv
      exact Nat.lt_of_lt_of_le (Program.lt_of_mem_bodyRefs hscoped hv) hcontinued.varCount
    · cases hd : w₁.program.code? fn with
      | none =>
          rw [Program.bodyOf_eq_code?, hd] at hv
          cases hv
      | some d =>
          rw [Program.bodyOf_of_eq_some hd] at hv
          exact hlt ((hcontinued.new fn d (Nat.lt_of_not_le hfn) hd).refs v hv)

end Pass

end Resumable
