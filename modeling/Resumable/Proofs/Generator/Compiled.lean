import Resumable.Proofs.Unreachable.Reports

/-!
# Compiled generators

What the pass has made of the control flow of a generator: a function that makes
the object and the fragments, and one fragment for each label of its jump code.
-/

namespace Resumable

namespace Generator

open Elimination

def lastBody (types : TypeTable) (object finish : Variable) (stop : ClassId) : List Stmt :=
  [setField types object nextField (.ref finish), .throw (.construct (some stop) [])]

/-- What compiling makes of the last block. -/
theorem hook_finish {object : Variable} {stop : ClassId} {q : Program} {vars : LabelVars}
    {n n' : Nat} {body : List Stmt} (h : hook object stop q ⟨Label.finish, [], vars⟩ n = .ok body n') :
    ∃ finish, vars.lookup Label.finish = some finish ∧ body = lastBody q.types object finish stop := by
  cases hvar : vars.lookup Label.finish with
  | none => simp [hook, compileFragment, Fragment.labelVar?, hvar] at h
  | some v =>
      simp only [hook, compileFragment, Fragment.labelVar?, hvar, if_true] at h
      cases h
      exact ⟨v, rfl, rfl⟩

structure Compilation where
  object : Variable
  start : Variable
  cls : ClassId
  types : TypeTable
  code : List Stmt
  graph : Graph
  vars : LabelVars
  settings : List Stmt
  table : List (String × FuncId)

def Compilation.added (D : Compilation) : List Variable :=
  D.object :: D.vars.map Prod.snd

def Compilation.body (D : Compilation) : List Stmt :=
  .setVar D.object (.construct (some D.cls) []) :: D.settings ++
    [setField D.types D.object nextField (.ref D.start), .ret (.ref D.object)]

/-- A function with the code `c` in one program is a compiled generator in another. -/
structure Compiled (stop : ClassId) (D : Compilation) (id : FuncId) (c : Code) (p p' : Program) :
    Prop where
  lowered : ∃ names names', JumpCode.ofBody c.body names = .ok D.code names'
  graph : ∃ k, D.graph.Describes (D.code.mapIdx fun i s => s.share (k + i))
  types : p'.types = D.types
  others : ∀ fn, fn ≤ p.size → fn ≠ id → p'.code? fn = p.code? fn
  own : p'.code? id = some { c with locals := c.locals ++ D.added, body := D.body }
  object : D.object.id = p.varCount
  ids : D.vars.map (fun entry => entry.2.id) = List.range' (p.varCount + 1) D.graph.labels.length
  labels : D.vars.map Prod.fst = D.graph.labels
  named : D.vars.map (fun entry => entry.2.name) = D.graph.labels
  fragments : Fragments p' (HookBody (hook D.object stop) D.types D.vars) D.vars D.graph.labelled
    D.settings D.table
  new : ∀ entry ∈ D.table, p.size < entry.2
  found : ∀ fn d, p.size < fn → p'.code? fn = some d → ∃ b ∈ D.graph.labelled, ∃ body,
    d = ⟨"", [], [], body⟩ ∧ HookBody (hook D.object stop) D.types D.vars b body
  size : p.size ≤ p'.size
  varCount : p'.varCount = p.varCount + D.added.length
  start : D.vars.lookup Label.begin = some D.start

namespace Compiled

variable {stop : ClassId} {D : Compilation} {id : FuncId} {c : Code} {p p' : Program}

theorem mem_added {l : String} {v : Variable} (hv : D.vars.lookup l = some v) : v ∈ D.added :=
  List.mem_cons_of_mem _ (List.mem_map_of_mem (Removes.mem_of_lookup hv))

theorem name_eq (h : Compiled stop D id c p p') {l : String} {v : Variable}
    (hv : D.vars.lookup l = some v) : v.name = l :=
  List.map_inj_left.1 (h.named.trans h.labels.symm) _ (Removes.mem_of_lookup hv)

/-- The last fragment. -/
theorem last (h : Compiled stop D id c p p') : ∃ finish last,
    D.vars.lookup Label.finish = some finish ∧ D.table.lookup Label.finish = some last ∧
      p'.code? last = some ⟨"", [], [], lastBody D.types D.object finish stop⟩ := by
  obtain ⟨names, names', hcode⟩ := h.lowered
  obtain ⟨k, hg⟩ := h.graph
  obtain ⟨pre, hpre⟩ := Pass.ofBody_finish hcode
  rw [hpre, List.mapIdx_append] at hg
  have hlabel : Label.finish ∈ D.graph.labels := by
    rw [hg.labels_eq, Graph.mem_labelsOf]
    exact List.mem_append_right _ (.head _)
  obtain ⟨block, hblock, last, body, hl, htable, hlast, q, n, n', htypes, hhook⟩ :=
    h.fragments.lookup hlabel
  rw [hl, hg.last_empty hblock hl] at hhook
  obtain ⟨finish, hfinish, rfl⟩ := hook_finish hhook
  exact ⟨finish, last, hfinish, htable, htypes ▸ hlast⟩

end Compiled

end Generator

namespace Pass

open Elimination Generator

variable {b : Builtins} {id : FuncId} {w w' : Workspace}

theorem compiled_of_flow (h : Flow (some b) id true w w') {c : Code}
    (hc : w.program.code? id = some c) : ∃ D, Compiled b.stop D id c w.program w'.program := by
  cases h with
  | @generator _ registry types cls object start depth code names r n entry _ w₁ hb hobject hname
      hcode hrun hentry hstart hcall =>
      cases hb
      have hc₁ : (objected w id registry types object).program.code? id =
          some { c with locals := c.locals ++ [object] } := by
        rw [objected, Program.code?_addLocal, if_pos rfl]
        change (w.program.code? id).map _ = _
        rw [hc]
        rfl
      obtain ⟨f, hf, hfcode⟩ := Option.map_eq_some_iff.1 hc₁
      have hformed := code?_formed hf code names
      rw [hfcode] at hformed
      obtain ⟨g, settings, table, hbuild, hremoves, hstmts⟩ := eliminate_spec hrun hformed
      have hsize : (formed (objected w id registry types object) id code names).program.size =
          w.program.size := by
        rw [formed, Program.modifyFunc_size, objected, Program.modifyFunc_size]
        rfl
      have hle : id ≤ w.program.size := by
        obtain ⟨f₀, hf₀, -⟩ := Option.map_eq_some_iff.1 hc
        exact (Program.isSome_func?.1 (Option.isSome_of_eq_some hf₀)).2
      have hcount : (formed (objected w id registry types object) id code names).program.varCount =
          w.program.varCount + 1 := by
        rw [formed, Program.modifyFunc_varCount, objected, Program.modifyFunc_varCount]
      have hown := hremoves.own
      rw [hformed, Option.map_some] at hown
      have hbody : w₁.program.bodyOf id = settings ++ [entry] := by
        rw [Program.bodyOf_eq_code?, hown, ← hentry, hstmts]
        rfl
      have hfinal (fn : FuncId) (hne : fn ≠ id) :
          (w₁.program.modifyFunc id fun f => { f with
            body := wrapped types cls object start (w₁.program.bodyOf id) }).code? fn =
              w₁.program.code? fn := by
        rw [Program.code?_setBody, if_neg hne]
      have hne {fn : FuncId} (hfn : w.program.size < fn) : fn ≠ id :=
        Nat.ne_of_gt (Nat.lt_of_le_of_lt hle hfn)
      have htypes : (formed (objected w id registry types object) id code names).program.types =
          types := by
        rw [formed, Program.modifyFunc_types, objected, Program.modifyFunc_types]
      have hnew (entry : String × FuncId) (hentry : entry ∈ table) : w.program.size < entry.2 :=
        hsize ▸ hremoves.new entry hentry
      rw [htypes] at hremoves
      have hlowered : JumpCode.ofBody c.body w.names = .ok code names := by
        rw [Program.bodyOf_eq_code?, hc] at hcode
        exact hcode
      refine ⟨⟨object, start, cls, types, code, g, r.labelVars, settings, table⟩, ?_⟩
      refine
        { lowered := ⟨_, _, hlowered⟩
          graph := ⟨_, Graph.describes_of_build hbuild⟩
          types := ?_
          others := fun fn hfn hne => ?_
          own := ?_
          object := hobject
          ids := by rw [hremoves.ids, hcount]
          labels := hremoves.labels
          named := hremoves.named
          fragments := hremoves.fragments.of_code fun entry hentry => hfinal _ (hne (hnew entry hentry))
          new := hnew
          found := fun fn d hfn hd => ?_
          size := ?_
          varCount := ?_
          start := hstart }
      · rw [Program.modifyFunc_types, hremoves.types, htypes]
      · rw [hfinal fn hne, hremoves.others fn (hsize.symm ▸ hfn) hne, formed, Program.code?_setBody,
          if_neg hne, objected_code? fn hne]
      · rw [Program.code?_setBody, if_pos rfl, hown, hbody, wrapped, List.dropLast_concat]
        simp [Compilation.added, Compilation.body]
      · rw [hfinal fn (hne hfn)] at hd
        obtain ⟨b, hb, body, hd, hhook, -⟩ := hremoves.eq_fragment (hsize.symm ▸ hfn) hd
        exact ⟨b, hb, body, hd, hhook⟩
      · rw [Program.modifyFunc_size, hremoves.size, hsize]
        exact Nat.le_add_right _ _
      · have hlength : (r.labelVars.map Prod.snd).length = g.labels.length := by
          rw [← hremoves.labels, List.length_map, List.length_map]
        rw [Program.modifyFunc_varCount, hremoves.varCount, hcount, Compilation.added, List.length_cons,
          hlength]
        omega

end Pass

end Resumable
