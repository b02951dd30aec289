import Resumable.Lowering.Pass
import Resumable.Proofs.Jump.Removal
import Resumable.Proofs.Structured.Simulation

/-!
# Lowering control flow keeps the meaning

A function body becomes jump code and then fragments. The first half changes
neither values nor stores, so the two together do what removing jumps does.
-/

namespace Resumable

open Machine

namespace JumpCode

namespace BodyCode

variable {body code : List Stmt}

/-- The code mentions no further variables. -/
theorem vars_subset (h : BodyCode True body code) (hflat : ∀ s ∈ code, s.isStructured = false) :
    bodyVariables code ⊆ bodyVariables body := by
  intro v hv
  obtain ⟨s, hs, hv⟩ := List.mem_flatMap.1 hv
  rw [allStmts_of_flat hflat] at hs
  have hhandlers : s.handlers = [] := by
    have hs := hflat s hs
    cases s <;> first | rfl | cases hs
  rw [Stmt.ownVars, hhandlers, List.filterMap_nil, List.append_nil] at hv
  obtain ⟨e, he, hv⟩ := List.mem_flatMap.1 hv
  have hholds : Holds (fun e => ∀ v ∈ e.vars, v ∈ bodyVariables body) code :=
    h.holds (fun v hv => by cases hv) fun s hs e he v hv => mem_bodyVariables hs he hv
  exact hholds s hs e he v hv

/-- The code has no further literals of functions. -/
theorem closures_subset (h : BodyCode True body code) (hflat : ∀ s ∈ code, s.isStructured = false) :
    bodyClosures code ⊆ bodyClosures body := by
  intro fn hfn
  obtain ⟨s, hs, e, he, hfn⟩ := exists_of_mem_bodyClosures hfn
  rw [allStmts_of_flat hflat] at hs
  have hholds : Holds (fun e => ∀ fn ∈ e.nodes.filterMap Expr.lambdaId?, fn ∈ bodyClosures body) code :=
    h.holds (fun fn hfn => by cases hfn) fun s hs e he fn hfn => mem_bodyClosures hs he hfn
  exact hholds s hs e he fn hfn

/-- Control comes from the start of the code to that of the body. -/
theorem start (h : BodyCode True body code) (hnodup : (Graph.labelsOf code).Nodup) :
    ∃ pos, Leads code code pos ∧ StretchAt code [] body [] true pos [] := by
  obtain ⟨c, falls, hlist, hcode⟩ := h
  have hbegin : .label Label.begin :: (c ++ enter falls Label.finish) <:+ code :=
    ⟨[.goto Label.begin], hcode.symm⟩
  have hpos := (List.suffix_cons _ _).trans hbegin
  have hend : enter falls Label.finish ++ [] <:+ code := by
    rw [List.append_nil]
    exact suffix_of_append hpos
  refine ⟨_, ?_, ⟨c, falls, _, hlist, rfl, fun _ => ?_⟩, hpos⟩
  · have hleads : Leads code (.goto Label.begin :: _) _ :=
      .single (Stmt.after?_of_suffix hnodup hbegin)
        (.label Label.begin :: (c ++ enter falls Label.finish))
    exact hcode ▸ hleads
  · simpa using leads_enter hnodup hend

end BodyCode

end JumpCode

/-! ## The two halves -/

/-- Whether a state is regular depends on expressions and operators only. -/
theorem guard_regular (known loose : FuncId → Bool) :
    Guard (fun s => regular known loose s = true) where
  exec := rfl
  complete := rfl
  thrown := rfl
  discard := by
    intro v done rest env stack depth σ
    cases rest <;> rfl
  flow := by
    intro v task done rest env stack depth σ htask
    cases task <;> cases rest <;> first | rfl | cases htask
  below := by
    intro focus w stack stack' depth σ h
    cases focus with
    | value v =>
        cases w with
        | operands task done rest env => cases rest <;> exact h
        | _ => exact h
    | _ => exact h
  eval h := h

namespace Pass

open JumpCode Elimination

variable {w w' : Workspace} {id : FuncId} {result : Elimination.Result} {f : Func}

theorem lowerPlain_spec (h : lowerPlain id w = .ok result w') (hf : w.program.func? id = some f) :
    ∃ code names, ofBody f.body w.names = .ok code names ∧
      plain id { w with
        names, program := w.program.modifyFunc id fun f => { f with body := code } } =
          .ok result w' := by
  unfold lowerPlain at h
  obtain ⟨f₀, w₀, hfunc, hrest⟩ := bind_eq_ok.1 h
  obtain ⟨rfl, rfl⟩ := Lowering.func_eq_ok.1 hfunc
  rw [hf] at hrest
  obtain ⟨code, w₁, hnames, hrest⟩ := bind_eq_ok.1 hrest
  obtain ⟨names, hcode, rfl⟩ := Lowering.withNames_eq_ok.1 hnames
  obtain ⟨_, w₂, ⟨⟩, hplain⟩ := bind_eq_ok.1 hrest
  exact ⟨code, names, hcode, hplain⟩

theorem twins_setBody (p : Program) (id : FuncId) (code : List Stmt) :
    Twins id p (p.modifyFunc id fun f => { f with body := code }) where
  types := Program.modifyFunc_types ..
  others fn hfn := by rw [Program.code?_setBody, if_neg hfn]
  own := by
    rw [Program.code?_setBody, if_pos rfl, Option.map_map]
    rfl

/-- A body with no further variables. -/
theorem scoped_setBody {p : Program} (hp : p.scoped = true) (hf : p.func? id = some f)
    {code : List Stmt} (hcode : bodyVariables code ⊆ bodyVariables f.body) :
    (p.modifyFunc id fun f => { f with body := code }).scoped = true := by
  refine Program.scoped_of_lt fun fn g hg v hv => ?_
  rw [Program.func?_modifyFunc] at hg
  rw [Program.modifyFunc_varCount]
  split at hg
  · next hid =>
      subst hid
      rw [hf] at hg
      cases hg
      refine Program.lt_of_scoped hp hf ?_
      rcases List.mem_append.1 hv with hv | hv
      · exact List.mem_append_left _ hv
      · exact List.mem_append_right _ (hcode hv)
  · exact Program.lt_of_scoped hp hg hv

/-- The program between the two halves: the function is jump code there. -/
theorem lowerPlain_halves (h : lowerPlain id w = .ok result w') (hf : w.program.func? id = some f)
    (hdecided : ∀ t ∈ allStmts f.body, t.isDecided = true) (hscoped : w.program.scoped = true) :
    ∃ q f₁ g settings table, q.func? id = some f₁ ∧ Lowered w.program q id f₁.body ∧
      bodyClosures f₁.body ⊆ bodyClosures f.body ∧
      Plainly q w'.program id f₁.code g result.labelVars settings table := by
  obtain ⟨code, names, hof, hplain⟩ := lowerPlain_spec h hf
  have hbody : BodyCode True f.body code := bodyCode_of_ofBody (fun _ => hdecided) hof
  have hq : (w.program.modifyFunc id fun f => { f with body := code }).func? id =
      some { f with body := code } := by
    rw [Program.func?_modifyFunc, if_pos rfl, hf, Option.map_some]
  obtain ⟨body, g, settings, table, hsame, hgraph, hremoves⟩ := plain_spec hplain hq
  have hlabels : Graph.labelsOf body = Graph.labelsOf code := Graph.labelsOf_of_same hsame
  have hnodup : (Graph.labelsOf code).Nodup := hlabels ▸ hgraph.nodup
  have hflat (s : Stmt) (hs : s ∈ code) : s.isStructured = false := by
    obtain ⟨s', hs', hshare⟩ := (SameStmts.symm hsame).exists_of_mem hs
    rw [Stmt.isStructured_of_same hshare]
    exact hgraph.plain s' hs'
  have hjumps : JumpsTo (· ≠ entryLabel) code := hbody.jumpsTo fun l hl => by
    rintro rfl
    exact hgraph.nonempty (hlabels ▸ Graph.mem_labelsOf.2 hl)
  obtain ⟨pos, hleads, hstretch⟩ := hbody.start hnodup
  exact ⟨_, _, g, settings, table, hq, ⟨twins_setBody w.program id code, hnodup, f, _, pos, hf, hq,
      rfl, rfl, rfl, hleads, hstretch⟩, hbody.closures_subset hflat,
    ⟨Program.code?_eq_some hq, ⟨body, hsame, hgraph⟩, hremoves,
      scoped_setBody hscoped hf (hbody.vars_subset hflat), hbody.neverFalls,
      fun s hs hl => hjumps s hs _ hl rfl⟩⟩

/-- Lowering the control flow of a function keeps its meaning. Whenever a call of
it ends within a limit, the lowered function ends alike under every limit that
is large enough. On the way the call makes values of functions of the program
only, and no function whose literal stands in the body names a field. -/
theorem lowerPlain_sound (h : lowerPlain id w = .ok result w') (hf : w.program.func? id = some f)
    (hdecided : (allStmts f.body).all Stmt.isDecided = true) (hscoped : w.program.scoped = true)
    {store : Store} (hstore : store.valid w.program = true) {env : Env}
    (henv : ∀ i ∈ env, i < store.frames.size) {args : List Value}
    (hargs : ∀ v ∈ args, v.valid w.program store = true) (tag : Nat) {limit fuel : Nat}
    {r : Except Failure Value} {σ : Store}
    (hrun : watch (step ⟨w.program, limit⟩) (fun s => withinLimit limit s &&
        regular (isKnown w.program) (isLoose f.body) s) fuel
      (entered f id env args store) = some (r, σ)) :
    ∃ limit' r' σ', EndAlike store r σ r' σ' ∧ ∀ depth, limit' ≤ depth →
      ∃ fuel, call ⟨w'.program, depth⟩ fuel (.closure tag id env) args store = some (r', σ') := by
  obtain ⟨q, f₁, g, settings, table, hq, hlowered, hclosures, hplainly⟩ :=
    lowerPlain_halves h hf (List.all_eq_true.1 hdecided) hscoped
  have hsome := hlowered.twins.isSome_eq
  have hfree : Ends (free w.program)
      (fun s => regular (isKnown w.program) (isLoose f.body) s = true)
      (entered f id env args store) r σ :=
    (ends_of_watch hrun).transfer fun s hs => by
      simp only [Bool.and_eq_true] at hs
      exact ⟨hs.2, (step_eq_free_of_withinLimit hs.1).symm⟩
  have hjump : Ends (jump q id) (fun s => regular (isKnown q) (isLoose f₁.body) s = true)
      (entered f₁ id env args store) r σ :=
    (hlowered.ends (guard_regular _ _) hf hq hfree).transfer fun s hs =>
      ⟨regular_mono (fun fn hfn => (hsome fn).trans hfn) (fun fn hfn => List.contains_iff_mem.2
        (hclosures (List.contains_iff_mem.1 hfn))) hs, rfl⟩
  rw [← Store.valid_congr hsome] at hstore
  rw [← Value.valid_congr hsome] at hargs
  exact hplainly.ends hq hstore henv hargs hjump tag

/-- A loop around a switch that is left and continued from within. -/
def labelled : Func where
  name := "f"
  params := [⟨0, "n", .variant⟩]
  body :=
    let n : Expr := .ref ⟨0, "n", .variant⟩
    let text (s : String) : Expr := .literal (.str s) .variant
    let trace (x : Expr) : Stmt := .expr (.mkCall (.ref ⟨1, "t", .variant⟩) [x])
    [.whileLoop (.literal (.bool true) .variant)
        [.switch n
          [.defaultMark, .expr (.assign n (text "b")),
            .doWhile n [trace (text "c"), .ifElse n [.continueTo "outer"] []] "",
            .caseMark (text "b"), trace n, .caseMark (text "d"), .breakTo "outer"] ""] "outer",
      .ret n]

theorem lowerPlain_sound_labelled : ∃ result w' r σ limit' r' σ',
    lowerPlain 1 (sample #[labelled]) = .ok result w' ∧
    watch (step ⟨(sample #[labelled]).program, 10⟩) (fun s => withinLimit 10 s &&
        regular (isKnown (sample #[labelled]).program) (isLoose labelled.body) s) 100
      (entered labelled 1 [] [.str "a"] tracing) = some (r, σ) ∧
    σ.trace = #["t(\"c\")", "t(\"b\")"] ∧ EndAlike tracing r σ r' σ' ∧ ∀ depth, limit' ≤ depth →
      ∃ fuel, call ⟨w'.program, depth⟩ fuel (.closure 0 1 []) [.str "a"] tracing = some (r', σ') := by
  obtain ⟨result, w', hlower, -⟩ := Lowering.ok_of_succeeds
    (show Lowering.succeeds (lowerPlain 1) (sample #[labelled]) (fun _ => true) = true by
      decide +kernel)
  obtain ⟨⟨r, σ⟩, hrun, htrace⟩ := (Option.any_eq_true _ _).1
    (show (watch (step ⟨(sample #[labelled]).program, 10⟩) (fun s => withinLimit 10 s &&
        regular (isKnown (sample #[labelled]).program) (isLoose labelled.body) s) 100
      (entered labelled 1 [] [.str "a"] tracing)).any
        (·.2.trace = #["t(\"c\")", "t(\"b\")"]) = true by decide +kernel)
  obtain ⟨limit', r', σ', halike, hcall⟩ := lowerPlain_sound hlower rfl (by decide +kernel)
    (by decide +kernel) (by decide +kernel) (by simp) (by decide +kernel) 0 hrun
  exact ⟨result, w', r, σ, limit', r', σ', hlower, hrun, by simpa using htrace, halike, hcall⟩

/-- Two rounds of a loop make the same function anew and name a field by it. -/
def keyedLoop : Func where
  name := "f"
  locals := [⟨0, "o", .variant⟩, ⟨2, "n", .variant⟩, ⟨3, "c", .variant⟩, ⟨4, "m", .variant⟩]
  body :=
    let field : Expr := .binary .index (.ref ⟨0, "o", .variant⟩) (.ref ⟨3, "c", .variant⟩) .variant
    let set (x y : Expr) : Stmt := .expr (.assign x y)
    let n : Expr := .ref ⟨2, "n", .variant⟩
    let m : Expr := .ref ⟨4, "m", .variant⟩
    [set (.ref ⟨0, "o", .variant⟩) (.construct none []), set m (.literal (.bool true) .variant),
      .doWhile n
        [set (.ref ⟨3, "c", .variant⟩) (.lambda 2 .variant),
          .expr (.mkCall (.ref ⟨1, "t", .variant⟩) [field]),
          set field (.literal (.bool true) .variant), set n m, set m (.literal .null .variant)] ""]

def danglingBranch : Func where
  name := "f"
  body := [.ifElse (.literal (.bool true) .variant) [.ret (.lambda 2 .variant)] []]

/-- Rounds of a lowered loop make a function anew in other frames, so it names
another field each time, and the fragments are functions that the program did
not have. -/
theorem lowerPlain_differs :
    (allStmts keyedLoop.body).all Stmt.isDecided = true ∧
    Differs #[keyedLoop, { name := "" }] (lowerPlain 1)
      (step ⟨(sample #[keyedLoop, { name := "" }]).program, 10⟩) keyedLoop (fun s =>
        withinLimit 10 s &&
          regular (isKnown (sample #[keyedLoop, { name := "" }]).program) (fun _ => false) s) ∧
    (allStmts danglingBranch.body).all Stmt.isDecided = true ∧
    Differs #[danglingBranch] (lowerPlain 1) (step ⟨(sample #[danglingBranch]).program, 10⟩)
      danglingBranch (fun s => withinLimit 10 s &&
        regular (fun _ => true) (isLoose danglingBranch.body) s) := by
  refine ⟨by decide +kernel, ?_, by decide +kernel, ?_⟩
  · exact .of_observed 500 8 rfl (by decide +kernel) (by decide +kernel) (by decide +kernel)
  · exact .of_observed 100 5 rfl (by decide +kernel) (by decide +kernel) (by decide +kernel)

end Pass

end Resumable
