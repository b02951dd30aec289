import Resumable.Catalog
import Resumable.Console.Arguments
import Resumable.Lowering.Pass
import Resumable.Render

/-!
# Reports on sample programs

Lowers a sample, calls it and writes down what happens.
-/

namespace Resumable.Console

structure Options where
  sample : String := "two-yields"
  /-- Patterns of further plain functions to lower. -/
  only : List String := []
  /-- How often a generator is resumed at most. -/
  steps : Int := 20
  /-- Lists the samples and does nothing else. -/
  list : Bool := false
  /-- Shows the program before and after lowering. -/
  dump : Bool := false
  /-- Leaves expressions as they are. -/
  skipExpressions : Bool := false
  /-- Sets titles off from the text around them. -/
  color : Bool := false
  deriving Inhabited

structure Prepared where
  sample : Sample
  /-- The lowered program. -/
  program : Program
  stats : List Pass.Stats
  before : String
  after : String
  deriving Inhabited

def prepare (name : String) (options : Options) : Except Failure Prepared :=
  match Catalog.sample? name with
  | none => .error (.plain ("unknown sample " ++ Text.quote name ++ " (try -list)"))
  | some sample =>
      let (registry, types) := Registry.builtin sample.program.types
      let config : Pass.Config :=
        { only := some (.anyOf [.names sample.only, .patterns options.only])
          skipExpressions := options.skipExpressions
          verify := true }
      match Pass.setup config registry with
      | .error e => .error e
      | .ok builtins =>
          let work : Workspace := { program := { sample.program with types }, registry }
          match Pass.transformAll config (some builtins) work with
          | (_, some e, _) => .error e
          | (stats, none, done) =>
              .ok {
                sample
                program := done.program
                stats
                before := Render.program sample.program
                after := Render.program done.program }

def Prepared.entryName (p : Prepared) : String :=
  match p.program.func? p.sample.entry with
  | some f => Program.displayName p.sample.entry f
  | none => s!"#{p.sample.entry}"

def Prepared.isGenerator (p : Prepared) : Bool :=
  match p.program.func? p.sample.entry with
  | some f => f.generator
  | none => false

def Prepared.context (p : Prepared) : Machine.Context :=
  ⟨p.program, Machine.defaultMaxDepth⟩

def Prepared.call (p : Prepared) (args : List Value) (store : Store) :
    Except Failure Value × Store :=
  match Machine.callFunc p.context Machine.ampleFuel p.sample.entry args store with
  | some r => r
  | none => (.error Machine.outOfFuel, store)

def Prepared.resume (p : Prepared) (gen : Value) (store : Store) : Machine.Resumption × Store :=
  match Machine.resume p.context Machine.ampleFuel gen store with
  | some r => r
  | none => (.failed Machine.outOfFuel, store)

def padRight (width : Nat) (text : String) : String :=
  text ++ String.ofList (List.replicate (width - text.length) ' ')

def sampleLine (s : Sample) : String :=
  padRight 12 s.name ++ " " ++ s.description

def title (color : Bool) (text : String) : String :=
  if color then " " ++ text ++ " " else text

def statsLines (s : Pass.Stats) : String :=
  let kind := if s.generator then "generator" else "function"
  s!"  {kind} {s.func}: {s.fragments} fragments, {s.continuations} continuations, " ++
    s!"{s.yields} yields, {s.dropped} dropped\n" ++
    (if s.unreachable.isEmpty then ""
      else "    unreachable: " ++ ", ".intercalate s.unreachable ++ "\n")

/-- The text logged since it was last taken, and the store without it. -/
def takeOutput (store : Store) : String × Store :=
  (store.output, { store with output := "" })

/-- Resumes a generator object up to `steps` times and reports each. -/
def resumeLines (p : Prepared) (gen : Value) : Nat → Store → String × Store
  | 0, store => ("", store)
  | steps + 1, store =>
      let (outcome, store) := p.resume gen store
      let (logged, store) := takeOutput store
      match outcome with
      | .failed f => (logged ++ "  next() failed: " ++ f.message p.program ++ "\n", store)
      | .done => (logged ++ "  next() -> done\n", store)
      | .yielded v =>
          let (rest, store) := resumeLines p gen steps store
          (logged ++ "  next() -> " ++ v.format p.program ++ "\n" ++ rest, store)

def traceLines (store : Store) : String :=
  if store.trace.isEmpty then ""
  else "\n--- trace ---\n" ++ "\n".intercalate store.trace.toList ++ "\n"

/-- The report on a lowered sample, and the failure that ended it early. -/
def reportOn (options : Options) (p : Prepared) : String × Option Failure :=
  let head := title options.color
  let dump :=
    if options.dump then
      head "Source" ++ "\n" ++ p.before ++ "\n" ++ head "Lowered" ++ "\n" ++ p.after ++ "\n"
    else ""
  let transformed :=
    head "Transformed" ++ "\n" ++ String.join (p.stats.map statsLines) ++ "\n"
  let calling :=
    "Calling " ++ p.entryName ++ formatArgs p.program p.sample.args ++ "\n"
  let (result, store) := p.call p.sample.args p.sample.store
  let (logged, store) := takeOutput store
  let soFar := dump ++ transformed ++ calling ++ logged
  match result with
  | .error f => (soFar, some (.plain ("call: " ++ f.message p.program)))
  | .ok v =>
      let (lines, store) :=
        if p.isGenerator then resumeLines p v options.steps.toNat store
        else ("Result: " ++ v.format p.program ++ "\n", store)
      (soFar ++ lines ++ traceLines store, none)

/-- The list of samples, or the report on one, and the failure that ended it
early. -/
def run (options : Options) : String × Option Failure :=
  if options.list then
    (String.join (Catalog.samples.map fun s => "  " ++ sampleLine s ++ "\n"), none)
  else
    match prepare options.sample options with
    | .error f => ("", some f)
    | .ok p => reportOn options p

end Resumable.Console
