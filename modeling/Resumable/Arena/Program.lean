import Resumable.Tree.Walk
import Resumable.Arena.IdSet

/-!
# Programs

A program holds every function definition, numbered from one. Each definition
names its owner and keeps the set of the closures it owns; a closure is owned
by exactly one definition at a time, and owning forms a forest.
-/

namespace Resumable

structure Func where
  name : String
  params : List Variable := []
  locals : List Variable := []
  body : List Stmt := []
  result : Ty := .void
  generator : Bool := false
  /-- The definition that owns this one; `noFunc` for a root. -/
  parent : FuncId := noFunc
  closures : IdSet := IdSet.withCapacity 64
  deriving Inhabited

def Func.type (f : Func) : Ty :=
  .function f.result (f.params.map (·.type))

/-- All function definitions with the types they use. -/
structure Program where
  /-- Definition number `n` stands at place `n - 1`. -/
  funcs : Array Func := #[]
  types : TypeTable := {}
  /-- How many variable identities have been handed out. -/
  varCount : Nat := 0
  /-- How many numbers for statements in common have been handed out. -/
  shareCount : Nat := 0
  deriving Inhabited

namespace Program

def func? (p : Program) (id : FuncId) : Option Func :=
  if id = noFunc then none else p.funcs[id - 1]?

def size (p : Program) : Nat := p.funcs.size

def ids (p : Program) : List FuncId :=
  (List.range p.funcs.size).map (· + 1)

/-- Changes one definition; an unknown number changes nothing. -/
def modifyFunc (p : Program) (id : FuncId) (change : Func → Func) : Program :=
  if id = noFunc then p else { p with funcs := p.funcs.modify (id - 1) change }

def displayName (id : FuncId) (f : Func) : String :=
  if f.name = "" then s!"<closure #{id}>" else f.name

def nameOf (p : Program) (id : FuncId) : String :=
  match p.func? id with
  | some f => displayName id f
  | none => ""

def newVariable (p : Program) (name : String) (type : Ty) : Variable × Program :=
  (⟨p.varCount, name, type⟩, { p with varCount := p.varCount + 1 })

/-- Adds a definition; an owner takes it among its closures. A result type
that is absent counts as `void`. -/
def newFunc (p : Program) (parent : FuncId) (name : String) (params : List Variable)
    (result : Ty) : FuncId × Program :=
  let id := p.funcs.size + 1
  let result := match result with
    | .absent => .void
    | t => t
  let p := { p with funcs := p.funcs.push { name, params, result, parent } }
  (id, p.modifyFunc parent fun f => { f with closures := f.closures.insert id })

/-- The owner of a definition; `noFunc` for roots and unknown numbers. -/
def parent (p : Program) (id : FuncId) : FuncId :=
  match p.func? id with
  | some f => f.parent
  | none => noFunc

def roots (p : Program) : List FuncId :=
  p.ids.filter fun id => p.parent id = noFunc

def closures (p : Program) (id : FuncId) : List FuncId :=
  match p.func? id with
  | some f => f.closures.toList
  | none => []

/-- Whether `child` is in the closure set of `parent`. -/
def owns (p : Program) (parent child : FuncId) : Bool :=
  match p.func? parent with
  | some f => f.closures.contains child
  | none => false

/-- Every definition whose closure set contains `id`. -/
def owners (p : Program) (id : FuncId) : List FuncId :=
  p.ids.filter fun owner => p.owns owner id

/-- The definition itself, its owner, the owner of that and so on, at most
`fuel` of them. -/
def chainFrom (p : Program) : Nat → FuncId → List FuncId
  | 0, _ => []
  | fuel + 1, id => if id = noFunc then [] else id :: p.chainFrom fuel (p.parent id)

/-- The definition and all that own it, innermost first. In a forest no chain
is longer than the number of definitions. -/
def chain (p : Program) (id : FuncId) : List FuncId :=
  p.chainFrom (p.funcs.size + 1) id

def generatorDepth (p : Program) (id : FuncId) : Nat :=
  ((p.chain (p.parent id)).filter fun owner =>
    match p.func? owner with
    | some f => f.generator
    | none => false).length

/-- Why a definition cannot change its owner. -/
inductive ReparentError where
  | unknownFunction (child : FuncId)
  | unknownParent (parent : FuncId)
  /-- The new owner is the definition itself or owned by it. -/
  | cycle (child parent : FuncId)
  deriving DecidableEq, Repr

def ReparentError.message : ReparentError → String
  | .unknownFunction child => s!"reparent: unknown function {child}"
  | .unknownParent parent => s!"reparent: unknown parent {parent}"
  | .cycle child parent => s!"reparent: {child} would own its ancestor {parent}"

/-- Moves a definition that is not above `newParent` to it. -/
def moveTo (p : Program) (child newParent : FuncId) : Program :=
  if p.parent child = newParent then p
  else
    let p := p.modifyFunc (p.parent child) fun f =>
      { f with closures := f.closures.erase child }
    let p := p.modifyFunc child fun f => { f with parent := newParent }
    p.modifyFunc newParent fun f => { f with closures := f.closures.insert child }

/-- Moves a definition to another owner, or makes it a root if that is
`noFunc`. -/
def reparent (p : Program) (child newParent : FuncId) : Except ReparentError Program :=
  if (p.func? child).isNone then .error (.unknownFunction child)
  else if newParent = noFunc then .ok (p.moveTo child newParent)
  else if (p.func? newParent).isNone then .error (.unknownParent newParent)
  else if (p.chain newParent).contains child then .error (.cycle child newParent)
  else .ok (p.moveTo child newParent)

def lambda (p : Program) (id : FuncId) : Expr :=
  match p.func? id with
  | some f => .lambda id f.type
  | none => .lambda id (.function .void [])

def idList (ids : List FuncId) : String :=
  "[" ++ " ".intercalate (ids.map toString) ++ "]"

def unknownClosures (p : Program) : List String :=
  p.ids.flatMap fun id =>
    ((p.closures id).filter fun c => (p.func? c).isNone).map fun c =>
      s!"{p.nameOf id} owns unknown function {c}"

def ownershipProblem? (p : Program) (id : FuncId) : Option String :=
  let found := p.owners id
  let parent := p.parent id
  if parent = noFunc then
    if found.isEmpty then none
    else some s!"root {p.nameOf id} is listed as a closure of {idList found}"
  else
    match found with
    | [owner] =>
        if owner = parent then none
        else some
          s!"closure {p.nameOf id} is owned by {owner} but its parent link is {parent}"
    | _ => some s!"closure {p.nameOf id} has {found.length} owners {idList found}"

/-- Every definition must be in the closure set of its owner and in no other. -/
def ownershipProblems (p : Program) : List String :=
  p.unknownClosures ++ p.ids.filterMap p.ownershipProblem?

end Program

end Resumable
