import Resumable.Lowering.Fragment

/-!
# Generators

A generator becomes a function that makes a generator object, points its
`__next` at the first fragment and returns it. A resumption runs `__next`: a
fragment that ends in a yield leaves the value in `__value` and the fragment to
go on with in `__next`. The last fragment points `__next` at itself and throws,
so that every further resumption throws too.
-/

namespace Resumable.Generator

structure Builtins where
  stop : ClassId
  template : TemplateId
  deriving DecidableEq, Repr

structure Result where
  cls : ClassId
  object : Variable
  elimination : Elimination.Result
  yields : Nat
  deriving Inhabited

def elementType (types : TypeTable) (id : FuncId) (f : Func) : Except Failure Ty :=
  let element? := match f.result with
    | .object (some c) => (types.class? c).bind fun cls => cls.typeArgs.head?
    | _ => none
  match element? with
  | some t => .ok t
  | none =>
      .error (.logicFlaw .generator
        ("generator " ++ Program.displayName id f ++ " does not return a generator type"))

def setField (types : TypeTable) (object : Variable) (field : String) (x : Expr) : Stmt :=
  .expr (.assign (.mkProperty types (.ref object) field) x)

/-- Turns a yield and the jump after it, at the end of a fragment, into the
settings of the two fields. Returns how many yields that were. -/
def compileYield (types : TypeTable) (object : Variable) (f : Fragment) :
    List Stmt → Except Failure (List Stmt × Nat)
  | [.simple (.yield x) _, after] =>
      match f.jumpTarget? after with
      | some next =>
          .ok ([setField types object valueField x, setField types object nextField (.ref next)], 1)
      | none =>
          .error (.logicFlaw .generator
            ("yield in " ++ f.label ++ " is not followed by a jump"))
  | s :: rest => do
      let (rest, n) ← compileYield types object f rest
      return (s :: rest, n)
  | [] => .ok ([], 0)

/-- Turns each `return` that is no jump into a jump to the end. -/
def compileReturn (f : Fragment) (finish : Variable) (s : Stmt) : Except Failure Stmt :=
  match s with
  | .simple (.yield _) _ =>
      .error (.logicFlaw .generator ("yield in the middle of fragment " ++ f.label))
  | .simple (.ret x) _ =>
      if (f.jumpTarget? s).isSome then .ok s
      else if x.isMissing then .ok (.ret (.mkCall (.ref finish) []))
      else .error (.unsupported .generator "returning a value from a generator")
  | _ => .ok s

def compileFragment (types : TypeTable) (object : Variable) (stop : ClassId) (f : Fragment) :
    Except Failure (List Stmt × Nat) :=
  match f.labelVar? Label.finish with
  | none =>
      .error (.logicFlaw .generator ("lowered generator has no " ++ Label.finish ++ " label"))
  | some finish =>
      if f.label = Label.finish then
        .ok (f.body ++ [setField types object nextField (.ref finish),
          .throw (.construct (some stop) [])], 0)
      else do
        let (body, yields) ← compileYield types object f f.body
        return (← body.mapM (compileReturn f finish), yields)

def hook (object : Variable) (stop : ClassId) : Elimination.Hook Nat :=
  fun p f count =>
    match compileFragment p.types object stop f with
    | .ok (body, yields) => .ok body (count + yields)
    | .error e => .error e count

def typeFailure (detail : String) (cause : Failure) : Failure :=
  .caused { phase := .generator, kind := .typeError, detail } cause

/-- The analyzed class of generator objects that yield `element`. -/
def objectClass (template : TemplateId) (element : Ty) : Lowering ClassId := fun w =>
  let types := w.program.types
  let name := ((types.template? template).map (·.name)).getD ""
  match w.registry.instantiate types template [element] with
  | .error e => .error (typeFailure ("instantiating " ++ name) e) w
  | .ok (c, registry, types) =>
      let w := { w with registry, program := { w.program with types } }
      match Registry.analyze types c with
      | .error e => .error (typeFailure ("analyzing " ++ types.classText c) e) w
      | .ok types => .ok c { w with program := { w.program with types } }

def checkConstruct (c : ClassId) : Lowering Unit := do
  let types := (← get).program.types
  match Registry.checkNew types (some c) 0 with
  | .ok () => return ()
  | .error e => throw (typeFailure ("checking new " ++ types.classText c) e)

/-- Whether a statement is a call of the variable in a `return`. -/
def isCallOf (v : Variable) : Stmt → Bool
  | .simple (.ret (.call (.ref w) _ _)) _ => w.id = v.id
  | _ => false

def compile (builtins : Option Builtins) (id : FuncId) : Lowering Result := do
  let f ← Lowering.func id
  let name := Program.displayName id f
  if !f.generator then throw (.logicFlaw .generator (name ++ " is not a generator"))
  match builtins with
  | none => throw (.logicFlaw .generator "generator builtins are not set up")
  | some builtins => do
      let element ← Lowering.lift (elementType (← get).program.types id f)
      let cls ← objectClass builtins.template element
      checkConstruct cls
      checkConstruct builtins.stop
      let depth := (← get).program.generatorDepth id
      let object ← Lowering.newVariable (Label.generatorVariable depth) (.object (some cls))
      Lowering.addLocal id object
      let code ← Lowering.withNames (JumpCode.ofBody f.body)
      Lowering.modifyFunc id fun f => { f with body := code }
      let types := (← get).program.types
      let (elimination, yields) ←
        Elimination.withNotes (Elimination.eliminate (hook object builtins.stop) id .void) 0
      let body := (← Lowering.func id).body
      match elimination.entry, elimination.labelVars.lookup Label.begin with
      | [entry], some start =>
          if isCallOf start entry then do
            let body := [.setVar object (.construct (some cls) [])] ++ body.dropLast ++
              [setField types object nextField (.ref start), .ret (.ref object)]
            Lowering.modifyFunc id fun f => { f with body }
            return ⟨cls, object, elimination, yields⟩
          else
            throw (.logicFlaw .generator
              ("entry of " ++ name ++ " does not start at " ++ Label.begin))
      | _, _ => throw (.logicFlaw .generator ("unexpected entry block in " ++ name))

end Resumable.Generator
