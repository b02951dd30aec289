import Resumable.Proofs.Arena.Sharing
import Resumable.Proofs.Continuation.Upkeep
import Resumable.Proofs.Generator.Hook
import Resumable.Proofs.Pass.Stages
import Resumable.Proofs.Structured.Conservation

/-!
# What lowering a function leaves alone

Whether lowering succeeds or stops in the middle of any stage, it leaves every
other function as it was and inserts new functions below the function only.
-/

namespace Resumable.Pass

open Program (Frame)

section

variable {p₀ : Program} {id : FuncId}

/-- The definitions that lowering may move: new ones and closures of the
function. -/
def Movable (p₀ : Program) (id c : FuncId) : Prop :=
  p₀.size < c ∨ p₀.parent c = id

theorem movable_of_count {ls ls' : List FuncId} (h : ∀ c, ls'.count c ≤ ls.count c)
    (hls : ∀ c ∈ ls, Movable p₀ id c) : ∀ c ∈ ls', Movable p₀ id c := by
  intro c hc
  have hcount := h c
  have hpos := List.count_pos_iff.2 hc
  exact hls c (List.count_pos_iff.1 (by omega))

/-- A new function takes over closures that may be moved. -/
theorem after_adoptBody (hid : (p₀.func? id).isSome) {phase : Phase} {detail : String} {fn : FuncId}
    (hfn : p₀.size < fn) {body : List Stmt} (hbody : ∀ c ∈ bodyLiterals body, Movable p₀ id c)
    {w : Workspace} (hw : Frame p₀ id w.program) :
    After (Lowering.adoptBody phase detail fn body) w
      (fun _ w' => Frame p₀ id w'.program ∧ w'.program.size = w.program.size ∧
        w'.continuations = w.continuations) fun w' => Frame p₀ id w'.program := by
  have hframe : After (Lowering.adoptBody phase detail fn body) w
      (fun _ w' => Frame p₀ id w'.program) fun w' => Frame p₀ id w'.program := by
    refine After.bind_ok rfl ?_
    have hset : Frame p₀ id (w.program.modifyFunc fn fun f => { f with body }) :=
      hw.modifyNew hid hfn (by intro f; rfl) (by intro f; rfl) (by intro f; rfl)
    have hmove (c : FuncId) (hc : c ∈ bodyClosures body) (w : Workspace)
        (hw : Frame p₀ id w.program) : After (Lowering.reparent phase detail c fn) w
          (fun _ w' => Frame p₀ id w'.program) fun w' => Frame p₀ id w'.program := by
      unfold After Lowering.reparent
      cases hq : w.program.reparent c fn with
      | ok q => exact hw.reparent hfn (hbody c (mem_bodyClosures_iff.1 hc)) hq
      | error e => exact hw
    exact (After.forM _ hmove hset).bind fun _ w' hw' => After.pure hw'
  refine .intro (fun n w' h => ⟨hframe.ok h, ?_⟩) fun e w' h => hframe.error h
  have hkeeps := Lowering.keeps_of_adoptBody h
  refine ⟨hkeeps.program.size.trans ?_, hkeeps.continuations⟩
  exact Program.modifyFunc_size ..

/-! ## Expressions -/

/-- The frame with closures in hand that may be moved; every new function so far
is a continuation. -/
structure Converting (p₀ : Program) (id : FuncId) (before : Nat) (ls : List FuncId)
    (w : Workspace) : Prop where
  hand : ∀ c ∈ ls, Movable p₀ id c
  frame : Frame p₀ id w.program
  count : w.program.size + before = p₀.size + w.continuations

theorem upkeep_convert (hid : (p₀.func? id).isSome) (before : Nat) :
    Continuation.Upkeep id (fun ls _ _ => Converting p₀ id before ls)
      (fun w => Frame p₀ id w.program) (p₀.size < ·) where
  failed h := h.frame
  fewer hcount h := ⟨movable_of_count hcount h.hand, h.frame, h.count⟩
  narrow _ _ h := h
  fresh type h := ⟨h.hand, h.frame.of_funcs rfl, h.count⟩
  begun {ls _ _ w param} result _ h := by
    have hsize := h.frame.size
    have hcount := h.count
    refine ⟨Nat.lt_succ_of_le hsize, ?_, h.frame.newFunc hid "" [param] result, ?_⟩
    · intro c hc
      rcases List.mem_append.1 hc with hc | hc
      · rw [List.mem_singleton.1 hc]
        exact .inl (Nat.lt_succ_of_le hsize)
      · exact h.hand c hc
    · change (w.program.newFunc id "" [param] result).2.size + before = _
      rw [Program.newFunc_size]
      change w.program.size + 1 + before = p₀.size + (w.continuations + 1)
      omega
  declared {ls _ _ w fn} type hfn h := by
    refine After.of_ok (Lowering.freshLocal_eq fn type w) ⟨h.hand, ?_, ?_⟩
    · have hcounted : Frame p₀ id { w.program with varCount := w.program.varCount + 1 } :=
        h.frame.of_funcs rfl
      exact hcounted.modifyNew hid hfn (by intro f; rfl) (by intro f; rfl) (by intro f; rfl)
    · rw [Program.modifyFunc_size]
      exact h.count
  finished {ls _ _ w fn body} hfn _ _ h := by
    have hbody : ∀ c ∈ bodyLiterals body, Movable p₀ id c := fun c hc =>
      h.hand c (List.mem_append_right _ (List.mem_append_left _ hc))
    refine (after_adoptBody hid hfn hbody h.frame).bind fun _ w' hw' => After.pure ?_
    refine ⟨fun c hc => h.hand c ?_, hw'.1, ?_⟩
    · rcases List.mem_append.1 hc with hc | hc
      · exact List.mem_append_left _ hc
      · exact List.mem_append_right _ (List.mem_append_right _ hc)
    · rw [hw'.2.1, hw'.2.2]
      exact h.count

theorem bodyNumbers_of_forms {body body' : List Stmt}
    (h : (allStmts body').map Stmt.form = (allStmts body).map Stmt.form) :
    bodyNumbers body' = bodyNumbers body := by
  have hnumber : Stmt.number? ∘ Stmt.form = Stmt.number? := by
    funext s
    cases s <;> rfl
  have hforms (b : List Stmt) :
      bodyNumbers b = ((allStmts b).map Stmt.form).filterMap Stmt.number? := by
    rw [List.filterMap_map, hnumber, bodyNumbers]
  rw [hforms body', h, ← hforms body]

theorem bodyOf_eq {p : Program} {f : Func} (hf : p.func? id = some f) : p.bodyOf id = f.body := by
  rw [Program.bodyOf, hf]
  rfl

theorem bodyOf_setBody {p : Program} (hid : (p.func? id).isSome) (body : List Stmt) :
    (p.modifyFunc id fun f => { f with body }).bodyOf id = body := by
  obtain ⟨f, hf⟩ := Option.isSome_iff_exists.1 hid
  rw [Program.bodyOf, Program.func?_modifyFunc, if_pos rfl, hf]
  rfl

/-- Converting the expressions of a function that has its statements for
itself. -/
theorem after_convertBody (hid : (p₀.func? id).isSome) (hp : p₀.Forest) (happart : p₀.Apart id)
    (hlits : ∀ c ∈ bodyLiterals (p₀.bodyOf id), p₀.parent c = id) {w : Workspace}
    (hw : w.program = p₀) :
    After (Continuation.convertBody id) w
      (fun _ w' => Converting p₀ id w.continuations (bodyLiterals (w'.program.bodyOf id)) w')
      fun w' => Frame p₀ id w'.program := by
  have hle := (Program.isSome_func?.1 hid).2
  obtain ⟨f, hf⟩ := Option.isSome_iff_exists.1 hid
  rcases hrun : replaceSlots (Continuation.convert id · none) (p₀.bodyOf id) w with
    ⟨body, w₁, failure⟩
  have hstart : Converting p₀ id w.continuations (bodyLiterals (p₀.bodyOf id)) w := by
    refine ⟨fun c hc => .inr (hlits c hc), ?_, ?_⟩
    · rw [hw]
      exact .start hp id
    · rw [hw]
  have hslots := (upkeep_convert hid w.continuations).replaceSlots hrun hstart
  have hrefill (hframe : Frame p₀ id w₁.program) : Frame p₀ id (w₁.program.refill id body) := by
    refine hframe.refill hle fun fn c hfn hne hc n hn hbody => ?_
    obtain ⟨g, hg, rfl⟩ := Option.map_eq_some_iff.1 hc
    have hforms := forms_replaceSlots (Continuation.fillsOnSuccess_convert id) hrun
    refine happart fn hne n ?_ ?_
    · rw [bodyOf_eq hg]
      exact Program.filterMap_number?_subset _ hn
    rw [← bodyNumbers_of_forms hforms]
    exact Program.filterMap_number?_subset _ hbody
  unfold Continuation.convertBody
  refine After.bind_ok rfl (After.bind_ok rfl ?_)
  rw [func_body, hw, hrun]
  refine After.bind_ok rfl (After.bind_ok rfl ?_)
  cases failure with
  | some e => exact hrefill hslots
  | none =>
      have hconverting : Converting p₀ id w.continuations (bodyLiterals body) w₁ := hslots
      have hbody : (w₁.program.refill id body).bodyOf id = body := by
        refine bodyOf_setBody ?_ body
        rw [Program.isSome_func?_refresh]
        exact hconverting.frame.known hid
      refine ⟨?_, hrefill hconverting.frame, ?_⟩
      · rw [hbody]
        exact hconverting.hand
      · change (w₁.program.refill id body).size + _ = _
        rw [Program.refill_size]
        exact hconverting.count

/-! ## Control flow -/

structure Removing (p₀ : Program) (id : FuncId) (made : Nat) (ls : List FuncId) (w : Workspace) :
    Prop where
  hand : ∀ c ∈ ls, Movable p₀ id c
  frame : Frame p₀ id w.program
  continuations : w.continuations = made

theorem upkeep_eliminate (hid : (p₀.func? id).isSome) (made : Nat) :
    Elimination.Upkeep id (Removing p₀ id made)
      (fun w => Frame p₀ id w.program ∧ w.continuations = made) (fun w => Frame p₀ id w.program)
      (p₀.size < ·) where
  failed h := h.frame
  fewer hcount h := ⟨movable_of_count hcount h.hand, h.frame, h.continuations⟩
  shared h := ⟨h.hand, h.frame.shareBody (Program.isSome_func?.1 hid).2, h.continuations⟩
  declared {ls w} l type h := by
    refine ⟨h.hand, ?_, h.continuations⟩
    refine (h.frame.of_funcs (q := (w.program.newVariable l type).2) rfl).modifyOwn ?_ ?_
      ⟨[(w.program.newVariable l type).1], fun body => body, fun f => rfl⟩
      (Program.isSome_func?.1 hid).2
    · intro f
      rfl
    · intro f
      rfl
  begun {ls w} result h := by
    have hsize := h.frame.size
    refine ⟨Nat.lt_succ_of_le hsize, ?_, h.frame.newFunc hid "" [] result, h.continuations⟩
    intro c hc
    rcases List.mem_append.1 hc with hc | hc
    · rw [List.mem_singleton.1 hc]
      exact .inl (Nat.lt_succ_of_le hsize)
    · exact h.hand c hc
  adopted {ls w fn body} detail hfn h := by
    have hbody : ∀ c ∈ bodyLiterals body, Movable p₀ id c := fun c hc =>
      h.hand c (List.mem_append_right _ (List.mem_append_left _ hc))
    refine (after_adoptBody hid hfn hbody h.frame).imp (fun _ w' hw' => ?_) fun _ hw' => hw'
    refine ⟨fun c hc => h.hand c ?_, hw'.1, hw'.2.2.trans h.continuations⟩
    rcases List.mem_append.1 hc with hc | hc
    · exact List.mem_append_left _ hc
    · exact List.mem_append_right _ (List.mem_append_right _ hc)
  closed {w body} h := by
    refine ⟨h.frame.modifyOwn ?_ ?_ ⟨[], fun _ => body, fun f => ?_⟩
      (Program.isSome_func?.1 hid).2, h.continuations⟩
    · intro f
      rfl
    · intro f
      rfl
    · simp [Func.content, Func.code]

structure Lowered (p₀ : Program) (id : FuncId) (w : Workspace) (fragments : Nat) (w' : Workspace) :
    Prop where
  frame : Frame p₀ id w'.program
  continuations : w'.continuations = w.continuations
  size : w'.program.size = w.program.size + fragments

theorem after_eliminate (hid : (p₀.func? id).isSome) {η : Type} {hook : Elimination.Hook η}
    (hhook : hook.Faithful) {result : Ty} {n : η} {w : Workspace}
    (hlits : ∀ c ∈ bodyLiterals (w.program.bodyOf id), Movable p₀ id c)
    (hw : Frame p₀ id w.program) :
    After (Elimination.withNotes (Elimination.eliminate hook id result) n) w
      (fun r w' => Lowered p₀ id w r.1.fragments w') fun w' => Frame p₀ id w'.program := by
  have hremoved : After (Elimination.eliminate hook id result) (w, n)
      (fun _ s => Frame p₀ id s.1.program ∧ s.1.continuations = w.continuations) fun s =>
      Frame p₀ id s.1.program :=
    (upkeep_eliminate hid w.continuations).eliminate hhook ⟨hlits, hw, rfl⟩
  refine .intro (fun r w' h => ?_) fun e w' h => ?_
  · obtain ⟨r, n'⟩ := r
    have hrun := Elimination.withNotes_eq_ok.1 h
    have hdone := hremoved.ok hrun
    exact ⟨hdone.1, hdone.2, Elimination.eliminate_size hrun⟩
  · unfold Elimination.withNotes at h
    split at h
    · cases h
    · next hrun =>
        cases h
        exact hremoved.error hrun

theorem after_jumpCode (body : List Stmt) {w : Workspace} (hw : Frame p₀ id w.program) :
    After (Lowering.withNames (JumpCode.ofBody body)) w
      (fun code w' => (bodyLiterals code).Perm (bodyLiterals body) ∧ ∃ names, w' = { w with names })
      fun w' => Frame p₀ id w'.program :=
  Lowering.after_withNames (fun _ names h => ⟨JumpCode.ofBody_literals h, names, rfl⟩) fun _ => hw

theorem frame_setBody (hid : (p₀.func? id).isSome) {p : Program} (hp : Frame p₀ id p)
    (body : List Stmt) : Frame p₀ id (p.modifyFunc id fun f => { f with body }) := by
  refine hp.modifyOwn ?_ ?_ ⟨[], fun _ => body, fun f => ?_⟩ (Program.isSome_func?.1 hid).2
  · intro f
    rfl
  · intro f
    rfl
  · simp [Func.content, Func.code]

/-- The body becomes jump code, and fragments are formed from it. -/
theorem after_formed (hid : (p₀.func? id).isSome) {η : Type} {hook : Elimination.Hook η}
    (hhook : hook.Faithful) (result : Ty) (n : η) {w : Workspace} {code : List Stmt}
    (hcode : (bodyLiterals code).Perm (bodyLiterals (w.program.bodyOf id)))
    (hlits : ∀ c ∈ bodyLiterals (w.program.bodyOf id), Movable p₀ id c)
    (hw : Frame p₀ id w.program) :
    After (Elimination.withNotes (Elimination.eliminate hook id result) n)
      { w with program := w.program.modifyFunc id fun f => { f with body := code } }
      (fun r w' => Lowered p₀ id w r.1.fragments w') fun w' => Frame p₀ id w'.program := by
  have hset : ∀ c ∈ bodyLiterals ((w.program.modifyFunc id fun f => { f with body := code }).bodyOf id),
      Movable p₀ id c := by
    rw [bodyOf_setBody (hw.known hid) code]
    exact fun c hc => hlits c (hcode.mem_iff.1 hc)
  refine (after_eliminate (w := { w with program := w.program.modifyFunc id fun f =>
    { f with body := code } }) hid hhook hset (frame_setBody hid hw code)).imp (fun r w' hr => ?_)
    fun _ h => h
  exact ⟨hr.frame, hr.continuations, hr.size.trans
    (congrArg (· + r.1.fragments) (Program.modifyFunc_size ..))⟩

theorem after_lowerPlain (hid : (p₀.func? id).isSome) {w : Workspace}
    (hlits : ∀ c ∈ bodyLiterals (w.program.bodyOf id), Movable p₀ id c)
    (hw : Frame p₀ id w.program) :
    After (lowerPlain id) w (fun r w' => Lowered p₀ id w r.fragments w')
      fun w' => Frame p₀ id w'.program := by
  unfold lowerPlain
  refine After.bind_ok rfl ?_
  rw [func_body]
  refine (after_jumpCode _ hw).bind fun code w₁ hcode => ?_
  obtain ⟨hperm, names, rfl⟩ := hcode
  refine After.bind_ok rfl ?_
  unfold Elimination.plain
  refine After.bind_ok rfl ?_
  have hformed := after_formed hid Elimination.faithful_noHook
    (((w.program.modifyFunc id fun f => { f with body := code }).func? id).getD { name := "" }).result
    () (w := { w with names }) hperm hlits hw
  refine hformed.bind fun r w' hr => ?_
  exact ⟨hr.frame, hr.continuations, hr.size⟩

/-! ## Generators -/

/-- Work after which the body of the function is still to be lowered. -/
structure Ready (p₀ : Program) (id : FuncId) (w w' : Workspace) : Prop where
  frame : Frame p₀ id w'.program
  body : w'.program.bodyOf id = w.program.bodyOf id
  continuations : w'.continuations = w.continuations
  size : w'.program.size = w.program.size

theorem Ready.of_funcs {w w₁ w₂ : Workspace} (h : Ready p₀ id w w₁)
    (hfuncs : w₂.program.funcs = w₁.program.funcs) (hmade : w₂.continuations = w₁.continuations) :
    Ready p₀ id w w₂ := by
  refine ⟨h.frame.of_funcs hfuncs, ?_, hmade.trans h.continuations, ?_⟩
  · rw [← h.body, Program.bodyOf, Program.bodyOf, Program.func?, Program.func?, hfuncs]
  · rw [← h.size, Program.size, Program.size, hfuncs]

variable {w : Workspace}

theorem after_objectClass {template : TemplateId} {element : Ty} {w₁ : Workspace}
    (h : Ready p₀ id w w₁) : After (Generator.objectClass template element) w₁
      (fun _ w' => Ready p₀ id w w') fun w' => Frame p₀ id w'.program := by
  refine .intro (fun c w' hrun => ?_) fun e w' hrun => ?_
  · simp only [Generator.objectClass] at hrun
    split at hrun
    · cases hrun
    · split at hrun
      · cases hrun
      · cases hrun
        exact h.of_funcs rfl rfl
  · simp only [Generator.objectClass] at hrun
    split at hrun
    · cases hrun
      exact h.frame
    · split at hrun
      · cases hrun
        exact h.frame.of_funcs rfl
      · cases hrun

theorem after_checkConstruct {c : ClassId} {w₁ : Workspace} (h : Ready p₀ id w w₁) :
    After (Generator.checkConstruct c) w₁ (fun _ w' => Ready p₀ id w w')
      fun w' => Frame p₀ id w'.program := by
  refine After.bind_ok rfl ?_
  dsimp only
  split
  · exact After.pure h
  · exact After.throw h.frame

theorem after_newVariable {name : String} {type : Ty} {w₁ : Workspace} (h : Ready p₀ id w w₁) :
    After (Lowering.newVariable name type) w₁ (fun _ w' => Ready p₀ id w w')
      fun w' => Frame p₀ id w'.program :=
  h.of_funcs rfl rfl

/-- A new local of the function. -/
theorem after_addLocal (hid : (p₀.func? id).isSome) (v : Variable) {w₁ : Workspace}
    (h : Ready p₀ id w w₁) : After (Lowering.addLocal id v) w₁ (fun _ w' => Ready p₀ id w w')
      fun w' => Frame p₀ id w'.program := by
  have hframe : Frame p₀ id
      (w₁.program.modifyFunc id fun f => { f with locals := f.locals ++ [v] }) := by
    refine h.frame.modifyOwn ?_ ?_ ⟨[v], fun body => body, fun f => rfl⟩
      (Program.isSome_func?.1 hid).2
    · intro f
      rfl
    · intro f
      rfl
  refine ⟨hframe, Eq.trans ?_ h.body, h.continuations, ?_⟩
  · change Program.bodyOf (w₁.program.modifyFunc id _) id = w₁.program.bodyOf id
    rw [Program.bodyOf, Program.func?_modifyFunc, if_pos rfl, Program.bodyOf, Option.map_map]
    rfl
  · exact (Program.modifyFunc_size ..).trans h.size

theorem after_compile (hid : (p₀.func? id).isSome) {builtins : Option Generator.Builtins}
    (hlits : ∀ c ∈ bodyLiterals (w.program.bodyOf id), Movable p₀ id c)
    (hw : Frame p₀ id w.program) :
    After (Generator.compile builtins id) w (fun r w' => Lowered p₀ id w r.elimination.fragments w')
      fun w' => Frame p₀ id w'.program := by
  have hready : Ready p₀ id w w := ⟨hw, rfl, rfl, rfl⟩
  unfold Generator.compile
  refine After.bind_ok rfl ?_
  rw [func_body]
  generalize (w.program.func? id).getD { name := "" } = f
  dsimp only
  cases builtins with
  | none =>
      split
      · exact hw
      · exact hw
  | some builtins =>
      split
      · exact hw
      · refine After.bind_ok rfl ?_
        refine (Lowering.after_lift (fun _ _ => hready) hw).bind fun element w₁ h₁ => ?_
        refine (after_objectClass h₁).bind fun cls w₂ h₂ => ?_
        refine (after_checkConstruct h₂).bind fun _ w₃ h₃ => ?_
        refine (after_checkConstruct h₃).bind fun _ w₄ h₄ => ?_
        refine After.bind_ok rfl ?_
        refine (after_newVariable h₄).bind fun object w₅ h₅ => ?_
        refine (after_addLocal hid object h₅).bind fun _ w₆ h₆ => ?_
        refine (after_jumpCode _ h₆.frame).bind fun code w₇ hcode => ?_
        obtain ⟨hperm, names, rfl⟩ := hcode
        have hperm₆ : (bodyLiterals code).Perm (bodyLiterals (w₆.program.bodyOf id)) := by
          rw [h₆.body]
          exact hperm
        have hlits₆ : ∀ c ∈ bodyLiterals (w₆.program.bodyOf id), Movable p₀ id c := by
          rw [h₆.body]
          exact hlits
        have hformed := after_formed hid (Generator.faithful_hook object builtins.stop) .void 0
          (w := { w₆ with names }) hperm₆ hlits₆ h₆.frame
        refine After.bind_ok rfl (After.bind_ok rfl ?_)
        refine hformed.bind fun r w₈ hr => ?_
        refine After.bind_ok rfl ?_
        split
        · split
          · refine After.bind_ok rfl (After.pure ⟨frame_setBody hid hr.frame _, ?_, ?_⟩)
            · exact hr.continuations.trans h₆.continuations
            · refine (Program.modifyFunc_size ..).trans (hr.size.trans ?_)
              exact congrArg (· + r.1.fragments) h₆.size
          · exact After.throw hr.frame
        · exact After.throw hr.frame

/-! ## The pass -/

theorem after_stages (hid : (p₀.func? id).isSome) (hp : p₀.Forest) (happart : p₀.Apart id)
    (hlits : ∀ c ∈ bodyLiterals (p₀.bodyOf id), p₀.parent c = id) (config : Config)
    (builtins : Option Generator.Builtins) (hw : w.program = p₀) :
    After (stages config builtins id) w
      (fun stats w' => Frame p₀ id w'.program ∧
        w'.program.size = p₀.size + stats.continuations + stats.fragments)
      fun w' => Frame p₀ id w'.program := by
  have hconverted : After (if !config.skipExpressions then Continuation.convertBody id else pure ()) w
      (fun _ w' => Converting p₀ id w.continuations (bodyLiterals (w'.program.bodyOf id)) w')
      fun w' => Frame p₀ id w'.program := by
    split
    · exact after_convertBody hid hp happart hlits hw
    · refine After.pure ⟨?_, ?_, ?_⟩
      · rw [hw]
        exact fun c hc => .inr (hlits c hc)
      · rw [hw]
        exact .start hp id
      · rw [hw]
  unfold stages
  refine After.bind_ok rfl (After.bind_ok rfl ?_)
  refine After.ite_bind hconverted fun _ w₁ h₁ => ?_
  refine After.bind_ok rfl ?_
  have hcount := h₁.count
  have hsize := h₁.frame.size
  have hstats {fragments : Nat} {w' : Workspace} (h : Lowered p₀ id w₁ fragments w') :
      Frame p₀ id w'.program ∧
        w'.program.size = p₀.size + (w₁.continuations - w.continuations) + fragments := by
    refine ⟨h.frame, ?_⟩
    rw [h.size]
    omega
  dsimp only
  split
  · split
    · exact h₁.frame
    · refine (after_compile hid h₁.hand h₁.frame).bind fun r w₂ hr => ?_
      exact hstats hr
  · refine (after_lowerPlain hid h₁.hand h₁.frame).bind fun r w₂ hr => ?_
    exact hstats hr

end

/-- Lowering a function that succeeds leaves the frame. -/
theorem frame_of_transform {config : Config} {builtins : Option Generator.Builtins} {id : FuncId}
    {w w' : Workspace} {stats : Stats} (hforest : w.program.Forest) (happart : w.program.Apart id)
    (howned : ∀ c ∈ bodyClosures (w.program.bodyOf id), w.program.parent c = id)
    (h : transform config builtins id w = .ok stats w') : Frame w.program id w'.program := by
  obtain ⟨f, stats', hf, hstages⟩ := stages_of_transform h
  have hlits : ∀ c ∈ bodyLiterals (w.program.bodyOf id), w.program.parent c = id :=
    fun c hc => howned c (mem_bodyClosures_iff.2 hc)
  exact ((after_stages (Option.isSome_of_eq_some hf) hforest happart hlits config builtins rfl).ok
    hstages).1

/-- What a program keeps when one of its functions is lowered. -/
structure Kept (id : FuncId) (p p' : Program) : Prop where
  others : ∀ fn, fn ≤ p.size → fn ≠ id → p'.content? fn = p.content? fn
  own : ∃ more body, p'.content? id =
    (p.content? id).map fun c => { c with locals := c.locals ++ more, body }
  nearest : ∀ fn, (p.func? fn).isSome →
    (p'.chain (p'.parent fn)).find? (fun a => decide (a ≤ p.size)) = (p.chain (p.parent fn)).head?
  depth : ∀ fn, (p.func? fn).isSome → p'.generatorDepth fn = p.generatorDepth fn
  problems : p'.ownershipProblems = []

theorem Kept.of_frame {id : FuncId} {p p' : Program} (hp : p.Forest) (hid : id ≤ p.size)
    (h : Frame p id p') : Kept id p p' where
  others := h.others
  own := h.own
  nearest _ hfn := h.nearest hp hid hfn
  depth _ hfn := h.generatorDepth hp hid hfn
  problems := h.forest.ownershipProblems_eq_nil

theorem Kept.refl {p : Program} (hp : p.Forest) (id : FuncId) : Kept id p p where
  others _ _ _ := rfl
  own := (Frame.start hp id).own
  nearest fn _ := by
    rw [← List.head?_filter, List.filter_eq_self.2]
    exact fun a ha => decide_eq_true (Frame.chain_le hp ha)
  depth _ _ := rfl
  problems := hp.ownershipProblems_eq_nil

theorem after_attributed {α : Type} {name : String} {m : Lowering α} {w : Workspace}
    {done : α → Workspace → Prop} {failed : Workspace → Prop} (h : After m w done failed) :
    After (attributed name m) w done failed := by
  unfold After attributed
  unfold After at h
  cases hm : m w with
  | ok a w' =>
      rw [hm] at h
      exact h
  | error e w' =>
      rw [hm] at h
      exact h

theorem after_transform (config : Config) (builtins : Option Generator.Builtins) (id : FuncId)
    (w : Workspace) (hforest : w.program.Forest)
    (howned : ∀ c ∈ bodyClosures (w.program.bodyOf id), w.program.parent c = id)
    (happart : w.program.Apart id) :
    After (transform config builtins id) w
      (fun stats w' => Kept id w.program w'.program ∧
        w'.program.size = w.program.size + stats.continuations + stats.fragments ∧
        ∀ fn f, w.program.size < fn → w'.program.func? fn = some f → f.generator = false)
      fun w' => Kept id w.program w'.program := by
  unfold transform
  refine After.bind_ok rfl ?_
  cases hf : w.program.func? id with
  | none => exact After.throw (.refl hforest id)
  | some f =>
      have hid : (w.program.func? id).isSome := Option.isSome_of_eq_some hf
      have hle := (Program.isSome_func?.1 hid).2
      have hlits : ∀ c ∈ bodyLiterals (w.program.bodyOf id), w.program.parent c = id :=
        fun c hc => howned c (mem_bodyClosures_iff.2 hc)
      have hwanted {stats : Stats} {w' : Workspace} (h : Frame w.program id w'.program ∧
          w'.program.size = w.program.size + stats.continuations + stats.fragments) :
          Kept id w.program w'.program ∧
            w'.program.size = w.program.size + stats.continuations + stats.fragments ∧
            ∀ fn f, w.program.size < fn → w'.program.func? fn = some f → f.generator = false := by
        refine ⟨.of_frame hforest hle h.1, h.2, fun fn g hfn hg => ?_⟩
        exact h.1.plain fn g.content hfn (Program.content?_eq_some hg)
      have hstages : After (attributed (Program.displayName id f) (stages config builtins id)) w
          (fun stats w' => Frame w.program id w'.program ∧
            w'.program.size = w.program.size + stats.continuations + stats.fragments)
          fun w' => Kept id w.program w'.program :=
        after_attributed ((after_stages hid hforest happart hlits config builtins rfl).imp
          (fun _ _ h => h) fun _ h => .of_frame hforest hle h)
      refine hstages.bind fun stats w' h => ?_
      dsimp only
      split
      · have hchecked : After (Lowering.lift (Verify.check w'.program id)) w' (fun _ w'' => w' = w'')
            fun w' => Kept id w.program w'.program :=
          Lowering.after_lift (fun _ _ => rfl) (.of_frame hforest hle h.1)
        refine After.bind_ok rfl (hchecked.bind ?_)
        rintro _ _ rfl
        exact After.pure (hwanted h)
      · exact After.pure (hwanted h)

/-- Lowering a function, whether it succeeds or fails at any point, leaves the
other functions as they were and inserts new functions below it only. -/
theorem transform_keeps (config : Config) (builtins : Option Generator.Builtins) (id : FuncId)
    (w : Workspace) (hforest : w.program.Forest)
    (howned : ∀ c ∈ bodyClosures (w.program.bodyOf id), w.program.parent c = id)
    (happart : w.program.Apart id) :
    (∀ stats w', transform config builtins id w = .ok stats w' →
      Kept id w.program w'.program ∧
        w'.program.size = w.program.size + stats.continuations + stats.fragments ∧
        ∀ fn f, w.program.size < fn → w'.program.func? fn = some f → f.generator = false) ∧
      ∀ failure w', transform config builtins id w = .error failure w' →
        Kept id w.program w'.program := by
  have hafter := after_transform config builtins id w hforest howned happart
  exact ⟨fun _ _ hok => hafter.ok hok, fun _ _ herror => hafter.error herror⟩

def traced (share : Option Nat) : Stmt :=
  .simple (.expr (.mkCall (.ref ⟨1, "t", .variant⟩) [.ref ⟨0, "x", .variant⟩])) share

/-- A loop that hands a closure to a native before each round. -/
def rounds : Workspace where
  program := .nested [.whileLoop (.mkCall (.ref ⟨1, "t", .variant⟩) [.lambda 2 .variant])
    [traced (some 0), .breakTo ""] ""] [traced (some 1)]

theorem transform_keeps_rounds : ∃ stats w', transform {} none 1 rounds = .ok stats w' ∧
    rounds.program.parent 2 = 1 ∧ w'.program.parent 2 ≠ 1 ∧ Kept 1 rounds.program w'.program ∧
    w'.program.size = rounds.program.size + stats.continuations + stats.fragments ∧
    ∀ fn f, rounds.program.size < fn → w'.program.func? fn = some f → f.generator = false := by
  obtain ⟨stats, w', hok, hmoved⟩ := Lowering.ok_of_succeeds
    (show Lowering.succeeds (transform {} none 1) rounds (fun w' => w'.program.parent 2 ≠ 1) = true
      by decide +kernel)
  have howned : ∀ c ∈ bodyClosures (rounds.program.bodyOf 1), rounds.program.parent c = 1 := by
    decide +kernel
  have happart : rounds.program.Apart 1 := by decide +kernel
  have hkept := (transform_keeps {} none 1 rounds (Program.forest_nested _ _) howned
    happart).1 stats w' hok
  exact ⟨stats, w', hok, by decide +kernel, by simpa using hmoved, hkept⟩

/-- If a function and its closure hold a statement in common, lowering the
function changes the closure. -/
theorem transform_changes_common : ∃ w stats w', w.program.Forest ∧
    (∀ c ∈ bodyClosures (w.program.bodyOf 1), w.program.parent c = 1) ∧
    transform {} none 1 w = .ok stats w' ∧ ¬ Kept 1 w.program w'.program := by
  let w : Workspace := { program := .nested [traced (some 0)] [traced (some 0)] }
  obtain ⟨stats, w', hok, hchanged⟩ := Lowering.ok_of_succeeds
    (show Lowering.succeeds (transform {} none 1) w
      (fun w' => (bodyLiterals (w'.program.bodyOf 2)).length ≠
        (bodyLiterals (w.program.bodyOf 2)).length) = true by decide +kernel)
  refine ⟨w, stats, w', Program.forest_nested _ _, by decide +kernel, hok, fun hkept => ?_⟩
  have hsame := hkept.others 2 (by decide +kernel) (by decide)
  refine of_decide_eq_true hchanged ?_
  rw [Program.bodyOf_eq_content?, hsame, ← Program.bodyOf_eq_content?]

end Resumable.Pass
