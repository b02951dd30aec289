import Resumable.Lowering.Workspace

/-!
# Continuation-passing style

An expression is rebuilt so that each operand is evaluated once, from left to
right, and handed to a closure of one parameter that goes on from there. The
last value goes to the continuation `k`, or is the value of the whole if there
is none.
-/

namespace Resumable.Continuation

/-- The result type of a continuation, or `otherwise` if there is none. -/
def resultOf (k : Option Expr) (otherwise : Ty) : Ty :=
  match k with
  | none => otherwise
  | some k => k.type.callResult?.getD .void

def deliver (k : Option Expr) (v : Expr) : Expr :=
  match k with
  | none => v
  | some f => .call f [v] (resultOf k .void)

def finish (id : FuncId) (body : List Stmt) : Lowering Unit := do
  let _ ← Lowering.adoptBody .cps "adopting continuation closure" id body

def begin (owner : FuncId) (param : Variable) (result : Ty) : Lowering FuncId := do
  let id ← Lowering.newFunc owner "" [param] result
  modify fun w => { w with continuations := w.continuations + 1 }
  return id

/-- The literal of `function (param) { return body; }`. -/
def make (owner : FuncId) (param : Variable) (body : Expr) : Lowering Expr := do
  let id ← begin owner param body.type
  finish id [.ret body]
  Lowering.lambda id

/-- Binds a literal continuation to a new local of `id`, so that two branches
can share it; any other continuation is shared as it is. -/
def share (id : FuncId) (k : Option Expr) : Lowering (List Stmt × Option Expr) :=
  match k with
  | some (.lambda fn t) => do
      let v ← Lowering.freshLocal id t
      return ([.setVar v (.lambda fn t)], some (.ref v))
  | _ => return ([], k)

def parameters : List Expr → Lowering (List Variable)
  | [] => return []
  | e :: es => do
      let v ← Lowering.freshVariable e.type
      return v :: (← parameters es)

def describeTarget : Expr → String
  | .property _ name _ => "property " ++ name
  | .binary .index _ _ _ => "an indexed element"
  | .receiver _ => "this"
  | _ => "a non-local target"

/-- The name of the method that a callee reads off its object. -/
def calledMethod? : Expr → Option String
  | .property _ name t => if t.isMethod then some name else none
  | _ => none

def resultType (id : FuncId) : Lowering Ty :=
  return (← Lowering.func id).result

mutual

/-- Rebuilds an expression so that its value goes to `k`. New closures belong
to `owner` until a continuation takes them over. -/
def convert (owner : FuncId) : Expr → Option Expr → Lowering Expr
  | .literal l t, k => return deliver k (.literal l t)
  | .ref v, k => return deliver k (.ref v)
  | .receiver t, k => return deliver k (.receiver t)
  | .lambda fn t, k => return deliver k (.lambda fn t)
  | .unary op x t, k =>
      if op.isIncDec then
        match x with
        | .ref v => return deliver k (.unary op (.ref v) t)
        | _ => throw (.unsupported .cps "increment or decrement of a non-local operand")
      else do
        let p ← Lowering.freshVariable x.type
        let c ← make owner p (deliver k (.unary op (.ref p) t))
        convert owner x (some c)
  | .binary op x y t, k =>
      if op.isLogical then do
        let l ← Lowering.freshVariable x.type
        let id ← begin owner l (resultOf k t)
        let (prologue, shared) ← share id k
        let right ← convert owner y shared
        let left := deliver shared (.ref l)
        let result ← resultType id
        let choice : Expr :=
          if op = .or then .conditional (.ref l) left right result
          else .conditional (.ref l) right left result
        finish id (prologue ++ [.ret choice])
        let c ← Lowering.lambda id
        convert owner x (some c)
      else do
        let p ← Lowering.freshVariable x.type
        let q ← Lowering.freshVariable y.type
        let c ← make owner q (deliver k (.binary op (.ref p) (.ref q) t))
        let right ← convert owner y (some c)
        let c ← make owner p right
        convert owner x (some c)
  | .conditional c thenE elseE t, k => do
      let p ← Lowering.freshVariable c.type
      let id ← begin owner p (resultOf k t)
      let (prologue, shared) ← share id k
      let thenC ← convert owner thenE shared
      let elseC ← convert owner elseE shared
      let result ← resultType id
      finish id (prologue ++ [.ret (.conditional (.ref p) thenC elseC result)])
      let f ← Lowering.lambda id
      convert owner c (some f)
  | .assign target value, k =>
      match target with
      | .ref v => do
          let p ← Lowering.freshVariable value.type
          let c ← make owner p (deliver k (.assign (.ref v) (.ref p)))
          convert owner value (some c)
      | other =>
          throw (.report
            { phase := .cps, kind := .unsupported
              detail := "assignment to " ++ describeTarget other ++ " is not yet supported" })
  | .call callee args t, k =>
      match calledMethod? callee with
      | some name => throw (.unsupported .cps ("calling method " ++ name))
      | none => do
          let p ← Lowering.freshVariable callee.type
          let ps ← parameters args
          let inner ← convertArgs owner args ps (deliver k (.call (.ref p) (ps.map .ref) t))
          let c ← make owner p inner
          convert owner callee (some c)
  | .property x name t, k =>
      if t.isMethod then
        throw (.logicFlaw .cps ("method " ++ name ++ " referenced without a call"))
      else do
        let p ← Lowering.freshVariable x.type
        let c ← make owner p (deliver k (.property (.ref p) name t))
        convert owner x (some c)
  | .construct .., _ =>
      throw (.unsupported .cps "object construction inside a transformed expression")
  | .missing, _ => throw (.logicFlaw .cps "unexpected expression <nil>")

/-- Evaluates arguments from left to right into their parameters and goes on
with `inner`. The closures are made from the inside out. -/
def convertArgs (owner : FuncId) : List Expr → List Variable → Expr → Lowering Expr
  | e :: es, p :: ps, inner => do
      let rest ← convertArgs owner es ps inner
      let c ← make owner p rest
      convert owner e (some c)
  | _, _, inner => return inner

end

/-- Rebuilds every expression slot of a definition, each without a
continuation. -/
def convertBody (id : FuncId) : Lowering Unit := do
  let f ← Lowering.func id
  let (body, w, failure) := replaceSlots (convert id · none) f.body (← get)
  set w
  Lowering.refill id body
  match failure with
  | some e => throw e
  | none => return ()

end Resumable.Continuation
