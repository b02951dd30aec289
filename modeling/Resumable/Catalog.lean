import Resumable.Machine.Interpreter

/-!
# Sample programs

Small programs to lower and run: generators to resume, and plain functions
whose order of evaluation shows in the trace of native calls.
-/

namespace Resumable

structure Sample where
  name : String
  description : String
  program : Program
  entry : FuncId
  /-- Free variables bound to tracing natives. -/
  natives : List Variable := []
  /-- The arguments it is called with by default. -/
  args : List Value := []
  /-- The plain functions to lower. -/
  only : List String := []
  deriving Inhabited

namespace Catalog

abbrev Build := StateM Program

def newVar (name : String) (type : Ty) : Build Variable := fun p => p.newVariable name type

def native (name : String) (result : Ty) (params : List Ty) : Build Variable :=
  newVar name (.function result params)

/-- A new class of generator objects that yield `element`, as a declared
result type names it. -/
def generatorOf (element : Ty) : Build Ty := fun p =>
  let (c, types) := p.types.addClass { name := Generator.templateName, typeArgs := [element] }
  (.object (some c), { p with types })

def newFunc (parent : FuncId) (name : String) (result : Ty) (params : List Variable) :
    Build FuncId := fun p =>
  p.newFunc parent name params result

def newGenerator (parent : FuncId) (name : String) (element : Ty) (params : List Variable) :
    Build FuncId := do
  let id ← newFunc parent name (← generatorOf element) params
  modify fun p => p.modifyFunc id fun f => { f with generator := true }
  return id

def addLocal (id : FuncId) (name : String) (type : Ty) : Build Variable := do
  let v ← newVar name type
  modify fun p => p.modifyFunc id fun f => { f with locals := f.locals ++ [v] }
  return v

def setBody (id : FuncId) (body : List Stmt) : Build Unit :=
  modify fun p => p.modifyFunc id fun f => { f with body }

def call (f : Variable) (args : List Expr) : Expr := .mkCall (.ref f) args

def increment (v : Variable) : Expr := .unary .postInc (.ref v) v.type

/-- Builds `function* twoYields() { yield 1; yield 2; }` -/
def twoYields : Sample :=
  let build : Build FuncId := do
    let id ← newGenerator noFunc "twoYields" .int []
    setBody id [.yield (.int 1), .yield (.int 2)]
    return id
  let (entry, program) := build {}
  { name := "two-yields", description := "yield 1; yield 2;", program, entry }

/-- Builds `function* counter(n) { i = 0; while (i < n) { yield i; i = i + 1; } }` -/
def counter : Sample :=
  let build : Build FuncId := do
    let n ← newVar "n" .int
    let id ← newGenerator noFunc "counter" .int [n]
    let i ← addLocal id "i" .int
    setBody id [
      .setVar i (.int 0),
      .whileLoop (.mkBinary .lt (.ref i) (.ref n)) [
        .yield (.ref i),
        .setVar i (.mkBinary .add (.ref i) (.int 1))] ""]
    return id
  let (entry, program) := build {}
  { name := "counter", description := "while loop yielding 0..n-1", program, entry
    args := [.int 3] }

/-- Builds `function* countdown(n) { do { yield n; n = n - 1; } while (n > 0); }` -/
def countdown : Sample :=
  let build : Build FuncId := do
    let n ← newVar "n" .int
    let id ← newGenerator noFunc "countdown" .int [n]
    setBody id [
      .doWhile (.mkBinary .gt (.ref n) (.int 0)) [
        .yield (.ref n),
        .setVar n (.mkBinary .sub (.ref n) (.int 1))] ""]
    return id
  let (entry, program) := build {}
  { name := "countdown", description := "do-while loop yielding n..1", program, entry
    args := [.int 3] }

/-- Builds `function* fibonacci(limit) { a = 0; b = 1; while (a < limit) { yield a; … } }` -/
def fibonacci : Sample :=
  let build : Build FuncId := do
    let limit ← newVar "limit" .int
    let id ← newGenerator noFunc "fibonacci" .int [limit]
    let a ← addLocal id "a" .int
    let b ← addLocal id "b" .int
    let t ← addLocal id "t" .int
    setBody id [
      .setVar a (.int 0),
      .setVar b (.int 1),
      .whileLoop (.mkBinary .lt (.ref a) (.ref limit)) [
        .yield (.ref a),
        .setVar t (.mkBinary .add (.ref a) (.ref b)),
        .setVar a (.ref b),
        .setVar b (.ref t)] ""]
    return id
  let (entry, program) := build {}
  { name := "fibonacci", description := "Fibonacci numbers below a limit", program, entry
    args := [.int 50] }

/-- A switch whose first case falls through to its second. -/
def classify : Sample :=
  let build : Build (FuncId × Variable) := do
    let trace ← native "trace" .int [.string]
    let x ← newVar "x" .int
    let id ← newGenerator noFunc "classify" .string [x]
    setBody id [
      .switch (.ref x) [
        .caseMark (.int 1),
        .expr (call trace [.str "f"]),
        .yield (.str "f"),
        .caseMark (.int 2),
        .expr (call trace [.str "g"]),
        .yield (.str "g"),
        .breakTo "",
        .defaultMark,
        .expr (call trace [.str "h"]),
        .yield (.str "h")] ""]
    return (id, trace)
  let ((entry, trace), program) := build {}
  { name := "switch", description := "switch with fallthrough and default", program, entry
    natives := [trace], args := [.int 1] }

/-- Builds `function* parity(n) { for (i = 0; i < n; i++) yield i % 2 == 0 ? "even" : "odd"; }` -/
def parity : Sample :=
  let build : Build FuncId := do
    let n ← newVar "n" .int
    let id ← newGenerator noFunc "parity" .string [n]
    let i ← addLocal id "i" .int
    setBody id [
      .forLoop (.assign (.ref i) (.int 0)) (.mkBinary .lt (.ref i) (.ref n)) (increment i) [
        .yield (.mkConditional
          (.mkBinary .eq (.mkBinary .mod (.ref i) (.int 2)) (.int 0))
          (.str "even") (.str "odd"))] ""]
    return id
  let (entry, program) := build {}
  { name := "conditional", description := "for loop yielding a conditional expression"
    program, entry, args := [.int 4] }

/-- Two nested loops, the inner of which continues and breaks the outer. -/
def pairs : Sample :=
  let build : Build FuncId := do
    let n ← newVar "n" .int
    let id ← newGenerator noFunc "pairs" .int [n]
    let i ← addLocal id "i" .int
    let j ← addLocal id "j" .int
    setBody id [
      .forLoop (.assign (.ref i) (.int 0)) (.mkBinary .lt (.ref i) (.ref n)) (increment i) [
        .forLoop (.assign (.ref j) (.int 0)) (.mkBinary .lt (.ref j) (.ref n)) (increment j) [
          .ifElse (.mkBinary .gt (.ref j) (.ref i)) [.continueTo "outer"] [],
          .ifElse (.mkBinary .eq (.ref i) (.int 2)) [.breakTo "outer"] [],
          .yield (.mkBinary .add (.mkBinary .mul (.ref i) (.int 10)) (.ref j))] ""] "outer"]
    return id
  let (entry, program) := build {}
  { name := "nested", description := "labelled break and continue across nested loops"
    program, entry, args := [.int 4] }

/-- A generator that yields the object of a generator defined inside it. -/
def inner : Sample :=
  let build : Build FuncId := do
    let outer ← newGenerator noFunc "outer" .variant []
    let k ← newVar "k" .int
    let id ← newGenerator outer "" .int [k]
    setBody id [.yield (.ref k), .yield (.mkBinary .add (.ref k) (.int 1))]
    let f := (← get).lambda id
    let make ← addLocal outer "make" f.type
    setBody outer [.setVar make f, .yield (call make [.int 10])]
    return outer
  let (entry, program) := build {}
  { name := "inner", description := "generator defined inside a generator", program, entry }

/-- Builds `function order() { return f(a(), b()) + c(); }` -/
def order : Sample :=
  let build : Build (FuncId × List Variable) := do
    let f ← native "f" .int [.int, .int]
    let a ← native "a" .int []
    let b ← native "b" .int []
    let c ← native "c" .int []
    let id ← newFunc noFunc "order" .int []
    setBody id [.ret (.mkBinary .add (call f [call a [], call b []]) (call c []))]
    return (id, [f, a, b, c])
  let ((entry, natives), program) := build {}
  { name := "order", description := "plain function with traced operand evaluation order"
    program, entry, natives, only := ["order"] }

/-- A loop that continues, breaks and returns a sum. -/
def accumulate : Sample :=
  let build : Build FuncId := do
    let n ← newVar "n" .int
    let id ← newFunc noFunc "accumulate" .int [n]
    let total ← addLocal id "total" .int
    let i ← addLocal id "i" .int
    setBody id [
      .setVar total (.int 0),
      .forLoop (.assign (.ref i) (.int 0)) (.mkBinary .lt (.ref i) (.ref n)) (increment i) [
        .ifElse (.mkBinary .eq (.mkBinary .mod (.ref i) (.int 3)) (.int 0))
          [.continueTo ""] [],
        .setVar total (.mkBinary .add (.ref total) (.ref i)),
        .ifElse (.mkBinary .gt (.ref total) (.int 20)) [.breakTo ""] []] "",
      .ret (.ref total)]
    return id
  let (entry, program) := build {}
  { name := "accumulate", description := "plain function with continue, break and return"
    program, entry, args := [.int 10], only := ["accumulate"] }

def samples : List Sample :=
  [accumulate, parity, countdown, counter, fibonacci, inner, pairs, order, classify, twoYields]

def names : List String := samples.map (·.name)

def sample? (name : String) : Option Sample :=
  samples.find? fun s => s.name = name

end Catalog

def Sample.store (s : Sample) : Store :=
  s.natives.foldl Store.bindTracing {}

end Resumable
