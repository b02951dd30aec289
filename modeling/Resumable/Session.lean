import Resumable.Catalog
import Resumable.Lowering.Pass

/-!
# Sessions

Work on one program by hand: whole passes, single stages of lowering that draw
names of their own, and runs on one store. Variables, classes, templates and
values are found by the names they were given in the session.
-/

namespace Resumable

structure Session where
  program : Program := {}
  registry : Registry := {}
  /-- The registry of the pass, if it does not share that of the session. -/
  passRegistry : Option Registry := none
  config : Pass.Config := {}
  /-- What the pass found when it was set up. -/
  passBuiltins : Option Generator.Builtins := none
  passNames : Names := {}
  passContinuations : Nat := 0
  /-- What single stages use. -/
  builtins : Option Generator.Builtins := none
  names : Names := {}
  continuations : Nat := 0
  store : Store := {}
  maxDepth : Nat := Machine.defaultMaxDepth
  vars : List (String × Variable) := []
  classes : List (String × ClassId) := []
  templates : List (String × TemplateId) := []
  values : List (String × Value) := []
  /-- How much of the trace has been shown. -/
  traceSeen : Nat := 0
  deriving Inhabited

namespace Session

abbrev Action := StateM Session

/-! ## Parts of the state -/

def onProgram {α : Type} (f : Program → α × Program) : Action α := fun s =>
  let (a, program) := f s.program
  (a, { s with program })

def modifyFunc (id : FuncId) (change : Func → Func) : Action Unit :=
  modify fun s => { s with program := s.program.modifyFunc id change }

abbrev Replacement (σ : Type) := Program → Expr → EStateM Failure σ Expr

/-- Replaces the expressions of statements in order up to the first failure.
What is in common with other bodies changes there statement by statement. -/
def replaceIn {σ : Type} (f : Replacement σ) (p : Program) (notes : σ) :
    List Stmt → List Stmt × σ × Option Failure
  | [] => ([], notes, none)
  | s :: rest =>
      let (s, notes, failure) := replaceSlots (f p) [s] notes
      match failure with
      | some e => (s ++ rest, notes, some e)
      | none =>
          let (rest, notes, failure) := replaceIn f (p.refresh s) notes rest
          (s ++ rest, notes, failure)

/-- Replaces the expressions in the body of a function; also returns the notes
of the replacement and the failure that ended it. -/
def replaceExprs {σ : Type} (f : Replacement σ) (notes : σ) (id : FuncId) :
    Action (List Stmt × σ × Option Failure) := fun s =>
  let old := ((s.program.func? id).map (·.body)).getD []
  let (body, notes, failure) := replaceIn f s.program notes old
  ((body, notes, failure), { s with program := s.program.refill id body })

def onTypes {α : Type} (f : TypeTable → α × TypeTable) : Action α :=
  onProgram fun p =>
    let (a, types) := f p.types
    (a, { p with types })

def onStore {α : Type} (f : Store → α × Store) : Action α := fun s =>
  let (a, store) := f s.store
  (a, { s with store })

def func (id : FuncId) : Action Func :=
  return ((← get).program.func? id).getD { name := "" }

/-! ## Named entities -/

def declare (key name : String) (type : Ty) : Action Variable := do
  let v ← onProgram (Program.newVariable · name type)
  modify fun s => { s with vars := (key, v) :: s.vars }
  return v

/-- The variable with a name; one that was not declared comes into being with
the type `type`. -/
def named (key : String) (type : Ty) : Action Variable := do
  match (← get).vars.lookup key with
  | some v => return v
  | none => declare key key type

def nameClass (key : String) (c : ClassId) : Action Unit :=
  modify fun s => { s with classes := (key, c) :: s.classes }

def nameTemplate (key : String) (t : TemplateId) : Action Unit :=
  modify fun s => { s with templates := (key, t) :: s.templates }

def keep (key : String) (v : Value) : Action Unit :=
  modify fun s => { s with values := (key, v) :: s.values }

def kept (key : String) : Action Value :=
  return ((← get).values.lookup key).getD .null

def setGlobal (v : Variable) (x : Value) : Action Unit :=
  modify fun s => { s with store := s.store.setGlobal v x }

/-! ## The registry -/

def register (key : String) : Action Unit :=
  modify fun s =>
    match s.classes.lookup key, s.templates.lookup key with
    | some c, _ =>
        let name := ((s.program.types.class? c).map (·.name)).getD ""
        { s with registry := s.registry.registerClass name c }
    | none, some t =>
        let name := ((s.program.types.template? t).map (·.name)).getD ""
        { s with registry := s.registry.registerTemplate name t }
    | none, none => s

def instantiate (key : String) (args : List Ty) : Action (Except Failure ClassId) := do
  let s ← get
  let template : Except Failure TemplateId := match s.templates.lookup key with
    | some t => .ok t
    | none => s.registry.lookupTemplate key
  match template.bind fun t => s.registry.instantiate s.program.types t args with
  | .error f => return .error f
  | .ok (c, registry, types) => do
      set { s with registry, program := { s.program with types } }
      return .ok c

def analyze (c : ClassId) : Action (Except Failure Unit) := do
  let s ← get
  match Registry.analyze s.program.types c with
  | .error f => return .error f
  | .ok types => do
      set { s with program := { s.program with types } }
      return .ok ()

inductive Types where
  /-- One registry with the classes that generators need. -/
  | shared
  /-- One registry without classes. -/
  | empty
  /-- Two registries with the classes that generators need. -/
  | separate
  deriving DecidableEq, Repr

def newRegistry : Action Registry := onTypes Registry.builtin

def configure (types : Types) (registered : List String) (config : Pass.Config)
    (maxDepth : Int) : Action Unit := do
  if types ≠ .empty then
    let registry ← newRegistry
    modify fun s => { s with registry }
  if types = .separate then
    let registry ← newRegistry
    modify fun s => { s with passRegistry := some registry }
  registered.forM register
  modify fun s =>
    { s with
      config
      builtins := (Pass.setup {} s.registry).toOption
      maxDepth := if maxDepth ≤ 0 then Machine.defaultMaxDepth else maxDepth.toNat }

/-! ## Lowering -/

def stage {α : Type} (m : Lowering α) : Action (Except Failure α) := fun s =>
  let finish (w : Workspace) : Session :=
    { s with
      program := w.program, names := w.names, registry := w.registry
      continuations := w.continuations }
  match m ⟨s.program, s.names, s.registry, s.continuations⟩ with
  | .ok a w => (.ok a, finish w)
  | .error f w => (.error f, finish w)

def onPass {α : Type} (f : Workspace → α × Workspace) : Action α := fun s =>
  let (a, w) := f ⟨s.program, s.passNames, s.passRegistry.getD s.registry, s.passContinuations⟩
  let s := { s with
    program := w.program, passNames := w.names, passContinuations := w.continuations }
  (a, match s.passRegistry with
    | some _ => { s with passRegistry := some w.registry }
    | none => { s with registry := w.registry })

/-- Sets the pass up; a second time nothing happens. -/
def setup : Action (Except Failure Unit) := do
  let s ← get
  if s.passBuiltins.isSome then return .ok ()
  match Pass.setup s.config (s.passRegistry.getD s.registry) with
  | .error f => return .error f
  | .ok b => do
      set { s with passBuiltins := some b }
      return .ok ()

def transform (id : FuncId) : Action (Except Failure Pass.Stats) := do
  let s ← get
  onPass fun w =>
    match Pass.transform s.config s.passBuiltins id w with
    | .ok stats w => (.ok stats, w)
    | .error f w => (.error f, w)

def transformAll : Action (List Pass.Stats × Option Failure) := do
  let s ← get
  onPass fun w =>
    let (stats, failure, w) := Pass.transformAll s.config s.passBuiltins w
    ((stats, failure), w)

/-- Lowers the control flow of a function; returns how many statements it has
then. -/
def lowerFunc (id : FuncId) : Action (Except Failure Nat) := do
  let f ← func id
  match ← stage (Lowering.withNames (JumpCode.ofBody f.body)) with
  | .error e => return .error e
  | .ok body => do
      modifyFunc id fun f => { f with body }
      return .ok body.length

/-- Removes the jumps of a function under a hook; also returns its notes. -/
def eliminate {η : Type} (hook : Elimination.Hook η) (notes : η) (id : FuncId)
    (result : Ty) : Action (Except Failure Elimination.Result × η) := fun s =>
  let work : Workspace := ⟨s.program, s.names, s.registry, s.continuations⟩
  match Elimination.eliminate hook id result (work, notes) with
  | .ok r (w, notes) => ((.ok r, notes), { s with program := w.program })
  | .error f (w, notes) => ((.error f, notes), { s with program := w.program })

/-! ## Runs -/

def context (s : Session) : Machine.Context := ⟨s.program, s.maxDepth⟩

def running {α : Type} (failed : Failure → α)
    (f : Machine.Context → Nat → Store → Option (α × Store)) : Action α := fun s =>
  match f s.context Machine.ampleFuel s.store with
  | some (a, store) => (a, { s with store })
  | none => (failed Machine.outOfFuel, s)

def call (callee : Value) (args : List Value) : Action (Except Failure Value) :=
  running .error fun cx fuel store => Machine.call cx fuel callee args store

def callFunc (id : FuncId) (args : List Value) : Action (Except Failure Value) :=
  running .error fun cx fuel store => Machine.callFunc cx fuel id args store

def newRoot (name : String) : Action FuncId :=
  onProgram (Program.newFunc · noFunc name [] .variant)

def callWith (id : FuncId) (body : List Stmt) (locals : List Variable) :
    Action (Except Failure Value) := do
  modifyFunc id fun f => { f with body, locals }
  callFunc id []

def resume (gen : Value) : Action Machine.Resumption :=
  running .failed fun cx fuel store => Machine.resume cx fuel gen store

def drain (gen : Value) (limit : Int) : Action (List Value × Option Failure) :=
  running (fun f => ([], some f)) fun cx fuel store => do
    let (values, failure, store) ← Machine.drain cx fuel gen limit store
    return ((values, failure), store)

/-- What was logged and traced since it was last taken. -/
def takeEffects : Action (String × List String) := fun s =>
  ((s.store.output, s.store.trace.toList.drop s.traceSeen),
    { s with store := { s.store with output := "" }, traceSeen := s.store.trace.size })

def ofSample (sample : Sample) : Session :=
  { program := sample.program, store := sample.store }

end Session

end Resumable
