import Resumable.Machine.Step

/-!
# Calls and resumptions

Whole runs of the machine: calling a function, resuming a generator object by
one value and draining it. Each takes the fuel of its runs and gives nothing if
a run needs more.
-/

namespace Resumable

/-! ## Names that generator objects and their end are known by -/

namespace Generator

def stopClass : String := "StopIteration"

def templateName : String := "__generator"

def valueField : String := "__value"

def nextField : String := "__next"

end Generator

namespace Machine

def ampleFuel : Nat := 1000000000000000

/-- The failure of a run that takes longer than its fuel allows. -/
def outOfFuel : Failure := .plain "the run takes too long"

variable (cx : Context) (fuel : Nat)

/-- The first state of a call, or its end if a native function or a failure
ends it at once. -/
def start (callee : Value) (args : List Value) (store : Store) : Step :=
  callValue cx callee args [] 0 store

def finish : Step → Option (Except Failure Value × Store)
  | .halt result store => some (result, store)
  | .next s => run cx fuel s

def call (callee : Value) (args : List Value) (store : Store) :
    Option (Except Failure Value × Store) :=
  finish cx fuel (start cx callee args store)

def callFunc (id : FuncId) (args : List Value) (store : Store) :
    Option (Except Failure Value × Store) :=
  match cx.program.func? id with
  | none => some (.error (.notFound .eval "function" (toString id)), store)
  | some _ => call cx fuel (.closure 0 id []) args store

inductive Resumption where
  | yielded (value : Value)
  | done
  | failed (failure : Failure)
  deriving Inhabited

def resume (gen : Value) (store : Store) : Option (Resumption × Store) :=
  match gen with
  | .object ref _ => do
      let (result, store) ← call cx fuel (Fields.get (store.fields ref) (.text Generator.nextField)) []
        store
      match result with
      | .ok _ => return (.yielded (Fields.get (store.fields ref) (.text Generator.valueField)), store)
      | .error (.thrown v) =>
          if v.isInstance cx.program Generator.stopClass then return (.done, store)
          else return (.failed (.thrown v), store)
      | .error f => return (.failed f, store)
  | v =>
      some (.failed (.eval .typeError (v.format cx.program ++ " is not a generator")), store)

/-- Resumes a generator object until it is done, at most `rounds` times, and
puts the values in front of `found`. More than `limit` values in all are a
failure. -/
def drainFrom (gen : Value) (limit : Int) :
    Nat → List Value → Store → Option (List Value × Option Failure × Store)
  | 0, _, _ => none
  | rounds + 1, found, store => do
      let (outcome, store) ← resume cx fuel gen store
      match outcome with
      | .failed f => return (found, some f, store)
      | .done => return (found, none, store)
      | .yielded v =>
          if (found.length : Int) = limit then
            return (found,
              some (.eval .invalidInput s!"generator produced more than {limit} values"), store)
          else drainFrom gen limit rounds (v :: found) store

/-- Every value a generator object still yields, and the failure that ended it
early, if one did. -/
def drain (gen : Value) (limit : Int) (store : Store) :
    Option (List Value × Option Failure × Store) := do
  let (found, failure, store) ← drainFrom cx fuel gen limit fuel [] store
  return (found.reverse, failure, store)

end Machine

end Resumable
