import Resumable.Tree.Stmt

/-!
# Walks over trees

Reading walks list the nodes of an expression or statement in order; the
replacing walk changes every expression slot of a statement. Neither enters a
function literal.
-/

namespace Resumable

namespace Expr

/-- The direct parts of an expression, in evaluation order. -/
def children : Expr → List Expr
  | .unary _ x _ => [x]
  | .binary _ x y _ => [x, y]
  | .conditional c t e _ => [c, t, e]
  | .assign target value => [target, value]
  | .call callee args _ => callee :: args
  | .property x _ _ => [x]
  | .construct _ args => args
  | _ => []

mutual

/-- The expression and its parts, each before its own parts. Missing
expressions are left out. -/
def nodes : Expr → List Expr
  | .missing => []
  | .unary op x t => .unary op x t :: nodes x
  | .binary op x y t => .binary op x y t :: (nodes x ++ nodes y)
  | .conditional c t e ty => .conditional c t e ty :: (nodes c ++ nodes t ++ nodes e)
  | .assign target value => .assign target value :: (nodes target ++ nodes value)
  | .call callee args t => .call callee args t :: (nodes callee ++ nodesList args)
  | .property x name t => .property x name t :: nodes x
  | .construct c args => .construct c args :: nodesList args
  | .literal v t => [.literal v t]
  | .ref v => [.ref v]
  | .receiver t => [.receiver t]
  | .lambda fn t => [.lambda fn t]

def nodesList : List Expr → List Expr
  | [] => []
  | e :: es => nodes e ++ nodesList es

end

def lambdaId? : Expr → Option FuncId
  | .lambda fn _ => some fn
  | _ => none

/-- The functions named by literals in the expressions, each once, in order of
appearance. -/
def closures (exprs : List Expr) : List FuncId :=
  ((nodesList exprs).filterMap lambdaId?).eraseDups

end Expr

def Simple.slots : Simple → List Expr
  | .expr x | .ret x | .yield x | .delete x | .throw x => [x]
  | .assert x _ => [x]
  | .log args => args
  | .super _ args => args
  | .debugger => []

namespace Stmt

/-- The expression slots of the statement itself, in the order of its parts. -/
def slots : Stmt → List Expr
  | .simple s _ => s.slots
  | .caseMark x => [x]
  | .ifElse c _ _ => [c]
  | .whileLoop c _ _ => [c]
  | .doWhile c _ _ => [c]
  | .forLoop init cond post _ _ => [init, cond, post]
  | .forIn _ x _ _ => [x]
  | .switch x _ _ => [x]
  | .condGoto c _ _ => [c]
  | .dispatch x arms => x :: arms.map (·.value)
  | _ => []

/-- The expressions held by the statement itself, those of nested bodies and
missing ones excluded. -/
def exprs (s : Stmt) : List Expr :=
  s.slots.filter fun e => !e.isMissing

def bodies : Stmt → List (List Stmt)
  | .ifElse _ t e => [t, e]
  | .whileLoop _ body _ => [body]
  | .doWhile _ body _ => [body]
  | .forLoop _ _ _ body _ => [body]
  | .forIn _ _ body _ => [body]
  | .switch _ body _ => [body]
  | .tryCatch body catches => body :: catches.map Catch.body
  | .catchClause c => [c.body]
  | _ => []

end Stmt

mutual

/-- A statement and, where `enter` allows, the statements nested in it, each
before its own. -/
def Stmt.preorder (enter : Stmt → Bool) : Stmt → List Stmt
  | .ifElse c t e =>
      let s := Stmt.ifElse c t e
      if enter s then s :: (preorderList enter t ++ preorderList enter e) else [s]
  | .whileLoop c body l =>
      let s := Stmt.whileLoop c body l
      if enter s then s :: preorderList enter body else [s]
  | .doWhile c body l =>
      let s := Stmt.doWhile c body l
      if enter s then s :: preorderList enter body else [s]
  | .forLoop i c p body l =>
      let s := Stmt.forLoop i c p body l
      if enter s then s :: preorderList enter body else [s]
  | .forIn k x body l =>
      let s := Stmt.forIn k x body l
      if enter s then s :: preorderList enter body else [s]
  | .switch x body l =>
      let s := Stmt.switch x body l
      if enter s then s :: preorderList enter body else [s]
  | .tryCatch body catches =>
      let s := Stmt.tryCatch body catches
      if enter s then s :: (preorderList enter body ++ preorderCatches enter catches) else [s]
  | .catchClause c =>
      let s := Stmt.catchClause c
      if enter s then s :: preorderCatch enter c else [s]
  | s => [s]

def preorderList (enter : Stmt → Bool) : List Stmt → List Stmt
  | [] => []
  | s :: rest => s.preorder enter ++ preorderList enter rest

def preorderCatch (enter : Stmt → Bool) : Catch → List Stmt
  | .mk _ body => preorderList enter body

def preorderCatches (enter : Stmt → Bool) : List Catch → List Stmt
  | [] => []
  | c :: rest => preorderCatch enter c ++ preorderCatches enter rest

end

/-- Every statement of a body, nested ones included. -/
def allStmts (body : List Stmt) : List Stmt :=
  preorderList (fun _ => true) body

/-- Every expression slot that is filled anywhere in a body. -/
def allExprs (body : List Stmt) : List Expr :=
  (allStmts body).flatMap Stmt.exprs

def bodyClosures (body : List Stmt) : List FuncId :=
  Expr.closures (allExprs body)

/-! ## Replacing -/

section Replacing

variable {m : Type → Type} [Monad m]

/-- Replaces the expression of one slot; a missing expression stays missing. -/
def mapSlot (f : Expr → m Expr) (e : Expr) : m Expr :=
  if e.isMissing then pure e else f e

def mapArm (f : Expr → m Expr) (arm : Arm) : m Arm := do
  return { arm with value := ← mapSlot f arm.value }

def Simple.mapExprs (f : Expr → m Expr) : Simple → m Simple
  | .expr x => return .expr (← mapSlot f x)
  | .ret x => return .ret (← mapSlot f x)
  | .yield x => return .yield (← mapSlot f x)
  | .delete x => return .delete (← mapSlot f x)
  | .throw x => return .throw (← mapSlot f x)
  | .assert x msg => return .assert (← mapSlot f x) msg
  | .log args => return .log (← args.mapM (mapSlot f))
  | .super c args => return .super c (← args.mapM (mapSlot f))
  | .debugger => pure .debugger

mutual

/-- Replaces every expression slot of a statement and its nested bodies. -/
def Stmt.mapExprs (f : Expr → m Expr) : Stmt → m Stmt
  | .simple s share => return .simple (← s.mapExprs f) share
  | .caseMark x => return .caseMark (← mapSlot f x)
  | .condGoto c t e => return .condGoto (← mapSlot f c) t e
  | .ifElse c t e => do
      let c ← mapSlot f c
      let t ← mapExprsList f t
      return .ifElse c t (← mapExprsList f e)
  | .whileLoop c body l => do
      let c ← mapSlot f c
      return .whileLoop c (← mapExprsList f body) l
  | .doWhile c body l => do
      let body ← mapExprsList f body
      return .doWhile (← mapSlot f c) body l
  | .forLoop init cond post body l => do
      let init ← mapSlot f init
      let cond ← mapSlot f cond
      let post ← mapSlot f post
      return .forLoop init cond post (← mapExprsList f body) l
  | .forIn k x body l => do
      let x ← mapSlot f x
      return .forIn k x (← mapExprsList f body) l
  | .switch x body l => do
      let x ← mapSlot f x
      return .switch x (← mapExprsList f body) l
  | .tryCatch body catches => do
      let body ← mapExprsList f body
      return .tryCatch body (← mapExprsCatches f catches)
  | .catchClause c => return .catchClause (← mapExprsCatch f c)
  | .dispatch x arms => do
      let x ← mapSlot f x
      return .dispatch x (← arms.mapM (mapArm f))
  | .missing => pure .missing
  | .breakTo l => pure (.breakTo l)
  | .continueTo l => pure (.continueTo l)
  | .defaultMark => pure .defaultMark
  | .label l => pure (.label l)
  | .goto l => pure (.goto l)

def mapExprsList (f : Expr → m Expr) : List Stmt → m (List Stmt)
  | [] => pure []
  | s :: rest => do
      let s ← s.mapExprs f
      return s :: (← mapExprsList f rest)

def mapExprsCatch (f : Expr → m Expr) : Catch → m Catch
  | .mk v body => return .mk v (← mapExprsList f body)

/-- Replaces the slots of several handlers in order. -/
def mapExprsCatches (f : Expr → m Expr) : List Catch → m (List Catch)
  | [] => pure []
  | c :: rest => do
      let c ← mapExprsCatch f c
      return c :: (← mapExprsCatches f rest)

end

end Replacing

/-- A replacement that fails leaves the slot at which it failed and all later
slots alone. -/
def untilFailure {σ ε : Type} (f : Expr → EStateM ε σ Expr) (e : Expr) :
    StateM (σ × Option ε) Expr := fun (s, failure) =>
  match failure with
  | some err => (e, (s, some err))
  | none =>
      match f e s with
      | .ok e' s' => (e', (s', none))
      | .error err s' => (e, (s', some err))

def replaceSlots {σ ε : Type} (f : Expr → EStateM ε σ Expr) (body : List Stmt) (s : σ) :
    List Stmt × σ × Option ε :=
  let (body, (s, failure)) := (mapExprsList (untilFailure f) body).run (s, none)
  (body, s, failure)

end Resumable
