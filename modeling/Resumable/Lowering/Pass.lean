import Resumable.Lowering.Continuation
import Resumable.Lowering.Generator
import Resumable.Lowering.Selection
import Resumable.Lowering.Verify

/-!
# The lowering pass

Lowers functions of a program in place: expressions to continuation-passing
style, then generators to generator objects and other functions to fragments.
-/

namespace Resumable.Pass

structure Config where
  /-- Which functions to lower besides generators. -/
  only : Option Matcher := none
  /-- Which functions to leave alone, generators included. -/
  skip : Option Matcher := none
  stopClass : String := Generator.stopClass
  generatorTemplate : String := Generator.templateName
  /-- Leaves expressions as they are. -/
  skipExpressions : Bool := false
  /-- Verifies every lowered function. -/
  verify : Bool := false
  deriving Inhabited

structure Stats where
  func : String
  id : FuncId
  generator : Bool
  unreachable : List String
  continuations : Nat
  fragments : Nat
  labelVars : Nat
  adopted : Nat
  dropped : Nat
  yields : Nat
  deriving Inhabited, Repr

/-- Finds the class and template that generators need. -/
def setup (config : Config) (r : Registry) : Except Failure Generator.Builtins :=
  let context (detail : String) (e : Failure) : Failure :=
    .caused { phase := .setup, kind := .notFound, detail } e
  match r.lookupClass config.stopClass with
  | .error e => .error (context "resolving the iteration exhaustion class" e)
  | .ok stop =>
      match r.lookupTemplate config.generatorTemplate with
      | .error e => .error (context "resolving the generator template" e)
      | .ok template => .ok ⟨stop, template⟩

def selected (config : Config) (f : Func) : Bool :=
  let matched (m : Option Matcher) : Bool :=
    match m with
    | some m => m.accepts f.name
    | none => false
  if matched config.skip then false
  else f.generator || (f.name ≠ "" && matched config.only)

def lowerPlain (id : FuncId) : Lowering Elimination.Result := do
  let f ← Lowering.func id
  let code ← Lowering.withNames (JumpCode.ofBody f.body)
  Lowering.modifyFunc id fun f => { f with body := code }
  Elimination.plain id

def stages (config : Config) (builtins : Option Generator.Builtins) (id : FuncId) :
    Lowering Stats := do
  let f ← Lowering.func id
  let name := Program.displayName id f
  let before := (← get).continuations
  if !config.skipExpressions then Continuation.convertBody id
  let continuations := (← get).continuations - before
  let (elimination, yields) ←
    if f.generator then
      match builtins with
      | none =>
          throw (.logicFlaw .setup ("generator " ++ name ++ " transformed before Setup"))
      | some _ => do
          let r ← Generator.compile builtins id
          pure (r.elimination, r.yields)
    else do
      let r ← lowerPlain id
      pure (r, 0)
  return {
    func := name
    id
    generator := f.generator
    unreachable := elimination.unreachable
    continuations
    fragments := elimination.fragments
    labelVars := elimination.labelVars.length
    adopted := elimination.adopted
    dropped := elimination.dropped
    yields }

def attributed {α : Type} (name : String) (m : Lowering α) : Lowering α := fun w =>
  match m w with
  | .ok a w => .ok a w
  | .error f w => .error (f.withFunc name) w

def transform (config : Config) (builtins : Option Generator.Builtins) (id : FuncId) :
    Lowering Stats := do
  match (← get).program.func? id with
  | none => throw (.notFound .lower "function" (Verify.numberText id))
  | some f => do
      let stats ← attributed (Program.displayName id f) (stages config builtins id)
      if config.verify then Lowering.lift (Verify.check (← get).program id)
      return stats

/-- Lowers functions in order up to the first failure; returns what was done. -/
def transformEach (config : Config) (builtins : Option Generator.Builtins) :
    List FuncId → Workspace → List Stats × Option Failure × Workspace
  | [], w => ([], none, w)
  | id :: rest, w =>
      match transform config builtins id w with
      | .error f w => ([], some f, w)
      | .ok stats w =>
          let (others, failure, w) := transformEach config builtins rest w
          (stats :: others, failure, w)

/-- Lowers every function that is selected now, in order of creation. -/
def transformAll (config : Config) (builtins : Option Generator.Builtins) (w : Workspace) :
    List Stats × Option Failure × Workspace :=
  let ids := w.program.ids.filter fun id =>
    match w.program.func? id with
    | some f => selected config f
    | none => false
  transformEach config builtins ids w

end Resumable.Pass
