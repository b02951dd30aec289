import Resumable.Lowering.Pass
import Resumable.Proofs.Jump.Elimination
import Resumable.Proofs.Lowering.Effect
import Resumable.Proofs.Tree.Contents

/-!
# The stages of a pass that succeeds

A function that was lowered has gone through at most four stages: its
expressions were converted, a generator object was declared, its body became jump
code and fragments were formed from it. The body of a generator is wrapped in
the end.
-/

namespace Resumable

theorem Program.bodyOf_eq_code? (p : Program) (fn : FuncId) :
    p.bodyOf fn = ((p.code? fn).map Code.body).getD [] := by
  rw [bodyOf, code?, Option.map_map]
  rfl

theorem Program.bodyOf_of_eq_some {p : Program} {fn : FuncId} {c : Code} (h : p.code? fn = some c) :
    p.bodyOf fn = c.body := by
  rw [bodyOf_eq_code?, h]
  rfl

namespace Pass

def formed (w : Workspace) (id : FuncId) (code : List Stmt) (names : Names) : Workspace :=
  { w with names, program := w.program.modifyFunc id fun f => { f with body := code } }

def objected (w : Workspace) (id : FuncId) (registry : Registry) (types : TypeTable)
    (object : Variable) : Workspace :=
  { w with
    registry
    program := { w.program with types, varCount := w.program.varCount + 1 }.modifyFunc id fun f =>
      { f with locals := f.locals ++ [object] } }

def wrapped (types : TypeTable) (cls : ClassId) (object start : Variable) (body : List Stmt) :
    List Stmt :=
  [.setVar object (.construct (some cls) [])] ++ body.dropLast ++
    [Generator.setField types object Generator.nextField (.ref start), .ret (.ref object)]

theorem bodyOf_objected (w : Workspace) (id : FuncId) (registry : Registry) (types : TypeTable)
    (object : Variable) (fn : FuncId) :
    (objected w id registry types object).program.bodyOf fn = w.program.bodyOf fn := by
  rw [objected, Program.bodyOf_eq_code?, Program.code?_addLocal, Program.bodyOf_eq_code?]
  split
  · rw [Option.map_map]
    rfl
  · rfl

/-- Wrapping a body adds no closures. -/
theorem bodyLiterals_wrapped (types : TypeTable) (cls : ClassId) (object start : Variable)
    (body : List Stmt) :
    (bodyLiterals (wrapped types cls object start body)).Sublist (bodyLiterals body) := by
  have hwrapped : bodyLiterals (wrapped types cls object start body) = bodyLiterals body.dropLast := by
    simp [wrapped, Stmt.setVar, Generator.setField, Stmt.ret, Simple.slots, Expr.mkProperty]
  rw [hwrapped]
  rcases List.eq_nil_or_concat body with rfl | ⟨front, last, rfl⟩
  · exact List.Sublist.refl _
  · rw [List.concat_eq_append, List.dropLast_concat, bodyLiterals_append]
    exact List.sublist_append_left _ _

/-- What lowering the control flow of a function, a generator or not, comes to. -/
inductive Flow (builtins : Option Generator.Builtins) (id : FuncId) :
    Bool → Workspace → Workspace → Prop where
  | plain {result : Ty} {code : List Stmt} {names : Names} {r : Elimination.Result}
      {w w' : Workspace} :
      JumpCode.ofBody (w.program.bodyOf id) w.names = .ok code names →
      Elimination.eliminate Elimination.noHook id result (formed w id code names, ()) =
        .ok r (w', ()) →
      Flow builtins id false w w'
  | generator {b : Generator.Builtins} {registry : Registry} {types : TypeTable} {cls : ClassId}
      {object start : Variable} {depth : Nat} {code : List Stmt} {names : Names}
      {r : Elimination.Result}
      {n : Nat} {entry : Stmt} {w w' : Workspace} :
      builtins = some b → object.id = w.program.varCount →
      object.name = Label.generatorVariable depth →
      JumpCode.ofBody (w.program.bodyOf id) w.names = .ok code names →
      Elimination.eliminate (Generator.hook object b.stop) id .void
        (formed (objected w id registry types object) id code names, 0) = .ok r (w', n) →
      r.entry = [entry] → r.labelVars.lookup Label.begin = some start →
      Generator.isCallOf start entry = true →
      Flow builtins id true w
        { w' with
          program := w'.program.modifyFunc id fun f =>
            { f with body := wrapped types cls object start (w'.program.bodyOf id) } }

section

variable {builtins : Option Generator.Builtins} {id : FuncId} {w w' : Workspace}

theorem func_body (w : Workspace) (id : FuncId) :
    ((w.program.func? id).getD { name := "" }).body = w.program.bodyOf id := by
  rw [Program.bodyOf]
  cases w.program.func? id <;> rfl

theorem lowerPlain_eq_ok {r : Elimination.Result} (h : lowerPlain id w = .ok r w') :
    ∃ result code names, JumpCode.ofBody (w.program.bodyOf id) w.names = .ok code names ∧
      Elimination.eliminate Elimination.noHook id result (formed w id code names, ()) =
        .ok r (w', ()) := by
  simp only [lowerPlain, Elimination.plain, bind_eq_ok, pure_eq_ok, Lowering.func_eq_ok,
    Lowering.withNames_eq_ok] at h
  obtain ⟨f, _, ⟨rfl, rfl⟩, code, _, ⟨names, hcode, rfl⟩, _, _, ⟨⟩, f, _, ⟨rfl, rfl⟩,
    ⟨r, n⟩, _, hrun, rfl, rfl⟩ := h
  rw [func_body] at hcode
  exact ⟨_, code, names, hcode, Elimination.withNotes_eq_ok.1 hrun⟩

theorem flow_of_lowerPlain {r : Elimination.Result} (h : lowerPlain id w = .ok r w') :
    Flow builtins id false w w' := by
  obtain ⟨result, code, names, hcode, hrun⟩ := lowerPlain_eq_ok h
  exact .plain hcode hrun

theorem objectClass_eq_ok {template : TemplateId} {element : Ty} {cls : ClassId}
    (h : Generator.objectClass template element w = .ok cls w') :
    ∃ registry types, w' = { w with registry, program := { w.program with types } } := by
  simp only [Generator.objectClass] at h
  split at h
  · cases h
  · split at h
    · cases h
    · cases h
      exact ⟨_, _, rfl⟩

theorem checkConstruct_eq_ok {c : ClassId} (h : Generator.checkConstruct c w = .ok () w') :
    w = w' := by
  obtain ⟨_, _, ⟨⟩, hcheck⟩ := bind_eq_ok.1 h
  cases hnew : Registry.checkNew w.program.types (some c) 0 with
  | ok u =>
      simp only [hnew] at hcheck
      exact (pure_eq_ok.1 hcheck).2
  | error e =>
      simp only [hnew] at hcheck
      cases hcheck

/-- What compiling a generator comes to. -/
theorem compile_eq_ok {r : Generator.Result} (h : Generator.compile builtins id w = .ok r w') :
    ∃ b registry types start, ∃ depth : Nat, ∃ code names entry w₁, builtins = some b ∧
      r.object.id = w.program.varCount ∧ r.object.name = Label.generatorVariable depth ∧
      JumpCode.ofBody (w.program.bodyOf id) w.names = .ok code names ∧
      Elimination.eliminate (Generator.hook r.object b.stop) id .void
        (formed (objected w id registry types r.object) id code names, 0) =
          .ok r.elimination (w₁, r.yields) ∧
      r.elimination.entry = [entry] ∧ r.elimination.labelVars.lookup Label.begin = some start ∧
      Generator.isCallOf start entry = true ∧
      w' = { w₁ with
        program := w₁.program.modifyFunc id fun f =>
          { f with body := wrapped types r.cls r.object start (w₁.program.bodyOf id) } } := by
  unfold Generator.compile at h
  obtain ⟨f, _, hf, hrest⟩ := bind_eq_ok.1 h
  obtain ⟨rfl, rfl⟩ := Lowering.func_eq_ok.1 hf
  dsimp only at hrest
  split at hrest
  · obtain ⟨_, _, hthrow, -⟩ := bind_eq_ok.1 hrest
    cases hthrow
  · cases builtins with
    | none => cases hrest
    | some b =>
        simp only [bind_eq_ok, Lowering.lift_eq_ok, Lowering.withNames_eq_ok, Lowering.func_eq_ok,
          Lowering.get_eq_ok, Lowering.newVariable_eq_ok, Lowering.addLocal,
          Lowering.modifyFunc_eq_ok] at hrest
        obtain ⟨_, _, ⟨rfl, rfl⟩, element, _, ⟨-, rfl⟩, cls, w₁, hcls, _, _, hcheck, _, _, hstop,
          hrest⟩ := hrest
        obtain ⟨_, _, ⟨rfl, rfl⟩, object, _, ⟨hobject, rfl⟩, _, _, rfl, code, _, ⟨names, hcode, rfl⟩,
          hrest⟩ := hrest
        obtain ⟨_, _, rfl, _, _, ⟨rfl, rfl⟩, ⟨r, n⟩, w₄, hrun, _, _, ⟨rfl, rfl⟩, hend⟩ := hrest
        obtain ⟨registry, types, rfl⟩ := objectClass_eq_ok hcls
        cases checkConstruct_eq_ok hcheck
        cases checkConstruct_eq_ok hstop
        rw [func_body] at hcode
        replace hobject : object.id = w.program.varCount ∧ object.name = Label.generatorVariable
            (({ w.program with types } : Program).generatorDepth id) := by
          rw [hobject]
          exact ⟨rfl, rfl⟩
        have hremoved : Elimination.eliminate (Generator.hook object b.stop) id .void
            (formed (objected w id registry types object) id code names, 0) = .ok r (w₄, n) :=
          Elimination.withNotes_eq_ok.1 hrun
        simp only [Program.modifyFunc_types, func_body] at hend
        rcases hentry : r.entry with _ | ⟨entry, _ | ⟨_, _⟩⟩
        · simp only [hentry] at hend
          cases hend
        · cases hstart : r.labelVars.lookup Label.begin with
          | none =>
              simp only [hentry, hstart] at hend
              cases hend
          | some start =>
              simp only [hentry, hstart] at hend
              split at hend
              · next hcall =>
                  simp only [bind_eq_ok, pure_eq_ok, Lowering.modifyFunc_eq_ok] at hend
                  obtain ⟨_, _, rfl, rfl, rfl⟩ := hend
                  exact ⟨b, registry, types, start, _, code, names, entry, w₄, rfl, hobject.1,
                    hobject.2, hcode, hremoved, hentry, hstart, hcall, rfl⟩
              · cases hend
        · simp only [hentry] at hend
          cases hend

theorem flow_of_compile {r : Generator.Result} (h : Generator.compile builtins id w = .ok r w') :
    Flow builtins id true w w' := by
  obtain ⟨b, registry, types, start, depth, code, names, entry, w₁, hb, hobject, hname, hcode, hrun,
    hentry, hstart, hcall, rfl⟩ := compile_eq_ok h
  exact .generator hb hobject hname hcode hrun hentry hstart hcall

def Converted (config : Config) (id : FuncId) (w w₁ : Workspace) : Prop :=
  if config.skipExpressions then w = w₁ else Continuation.convertBody id w = .ok () w₁

theorem converted_of_ite {α : Type} {config : Config} {rest : Unit → Lowering α} {a : α}
    (h : (if !config.skipExpressions then Continuation.convertBody id >>= rest else rest ()) w =
      .ok a w') : ∃ w₁, Converted config id w w₁ ∧ rest () w₁ = .ok a w' := by
  unfold Converted
  cases hskip : config.skipExpressions with
  | false =>
      rw [hskip] at h
      obtain ⟨_, w₁, hconvert, hrest⟩ := bind_eq_ok.1 h
      exact ⟨w₁, hconvert, hrest⟩
  | true =>
      rw [hskip] at h
      exact ⟨w, rfl, h⟩

theorem flow_of_stages {config : Config} {stats : Stats}
    (h : stages config builtins id w = .ok stats w') : ∃ w₁, Converted config id w w₁ ∧
      Flow builtins id ((w.program.func? id).getD { name := "" }).generator w₁ w' := by
  unfold stages at h
  obtain ⟨f, _, hf, hrest⟩ := bind_eq_ok.1 h
  obtain ⟨rfl, rfl⟩ := Lowering.func_eq_ok.1 hf
  obtain ⟨_, _, hget, hrest⟩ := bind_eq_ok.1 hrest
  obtain ⟨rfl, rfl⟩ := Lowering.get_eq_ok.1 hget
  obtain ⟨w₁, hconverted, hflow⟩ := converted_of_ite hrest
  refine ⟨w₁, hconverted, ?_⟩
  obtain ⟨_, _, hget, hflow⟩ := bind_eq_ok.1 hflow
  obtain ⟨rfl, rfl⟩ := Lowering.get_eq_ok.1 hget
  dsimp only at hflow
  split at hflow
  · next hgenerator =>
      rw [hgenerator]
      cases builtins with
      | none => cases hflow
      | some b =>
          obtain ⟨r, w₂, hcompile, hend⟩ := bind_eq_ok.1 hflow
          cases hend
          exact flow_of_compile hcompile
  · next hplain =>
      rw [Bool.not_eq_true] at hplain
      rw [hplain]
      obtain ⟨r, w₂, hlower, hend⟩ := bind_eq_ok.1 hflow
      cases hend
      exact flow_of_lowerPlain hlower

/-- Lowering a function that succeeds has gone through its stages, and verification
has changed nothing. -/
theorem stages_of_transform {config : Config} {stats : Stats}
    (h : transform config builtins id w = .ok stats w') : ∃ f stats', w.program.func? id = some f ∧
      stages config builtins id w = .ok stats' w' := by
  unfold transform at h
  obtain ⟨_, _, hget, hrest⟩ := bind_eq_ok.1 h
  obtain ⟨rfl, rfl⟩ := Lowering.get_eq_ok.1 hget
  cases hf : w.program.func? id with
  | none =>
      simp only [hf] at hrest
      cases hrest
  | some f =>
      simp only [hf] at hrest
      obtain ⟨stats₁, w₁, hattributed, hend⟩ := bind_eq_ok.1 hrest
      have hstages : stages config builtins id w = .ok stats₁ w₁ := by
        unfold attributed at hattributed
        split at hattributed
        · next hrun =>
            cases hattributed
            exact hrun
        · cases hattributed
      have hsame : w₁ = w' := by
        split at hend
        · obtain ⟨_, _, hget, hend⟩ := bind_eq_ok.1 hend
          obtain ⟨rfl, rfl⟩ := Lowering.get_eq_ok.1 hget
          obtain ⟨_, _, hcheck, hend⟩ := bind_eq_ok.1 hend
          obtain ⟨-, rfl⟩ := Lowering.lift_eq_ok.1 hcheck
          exact (pure_eq_ok.1 hend).2
        · exact (pure_eq_ok.1 hend).2
      exact ⟨f, stats₁, rfl, hsame ▸ hstages⟩

/-- What lowering a function has come to where it succeeded. -/
theorem flow_of_transform {config : Config} {stats : Stats}
    (h : transform config builtins id w = .ok stats w') : ∃ f w₁, w.program.func? id = some f ∧
      Converted config id w w₁ ∧ Flow builtins id f.generator w₁ w' := by
  obtain ⟨f, _, hf, hstages⟩ := stages_of_transform h
  obtain ⟨w₁, hconverted, hflow⟩ := flow_of_stages hstages
  rw [hf] at hflow
  exact ⟨f, w₁, hf, hconverted, hflow⟩

end

end Pass

end Resumable
