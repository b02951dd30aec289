import Resumable.Machine.Store

/-!
# States of the abstract machine

A run is a row of states. Each has a focus, the work at hand, and a stack of
frames of work that wait for its outcome. Nothing of a run lies outside the
state, so a run can be as deep as the depth limit allows.
-/

namespace Resumable

inductive Completion where
  | normal
  | broke (label : String)
  | continued (label : String)
  | returned (value : Value)
  deriving Inhabited

structure Loop where
  label : String
  /-- The condition; a loop without one goes on. -/
  cond : Expr
  /-- What runs after each round, if anything. -/
  post : Expr
  body : List Stmt
  deriving Inhabited

inductive Task where
  | unary (op : UnaryOp)
  | binary (op : BinaryOp)
  /-- Goes on with the right operand unless the left one decides. -/
  | logical (op : BinaryOp) (right : Expr)
  | conditional (thenE elseE : Expr)
  | assign (target : Expr)
  | incDec (op : UnaryOp) (target : Expr)
  /-- Sets a field of the object to `value` and yields `result`. -/
  | storeField (name : String) (value result : Value)
  /-- Sets the element of the object at the key and yields `result`. -/
  | storeIndex (value result : Value)
  | call
  | property (name : String)
  | construct (cls : Option ClassId)
  | discard
  | ret
  | throw
  | assert (message : String)
  | log
  | deleteField (name : String)
  /-- Removes the element at the key, which is evaluated before the object. -/
  | deleteIndex
  | branch (thenS elseS : List Stmt)
  | loopTest (loop : Loop)
  /-- Goes on with the test of the loop. -/
  | loopAgain (loop : Loop)
  | switchOn (label : String) (body : List Stmt)
  /-- Compares a case with the subject; `rest` follows the case, and `fallback`
  is what follows the default seen so far. -/
  | caseTest (label : String) (subject : Value) (rest : List Stmt)
      (fallback : Option (List Stmt))

inductive Waiting where
  /-- Operands of a task, `done` evaluated and `rest` still to come. -/
  | operands (task : Task) (done : List Value) (rest : List Expr) (env : Env)
  | block (rest : List Stmt) (env : Env)
  | loop (l : Loop) (env : Env)
  | switch (label : String)
  | tryCatch (catches : List Catch) (env : Env)
  /-- The end of a call of a function. -/
  | call (fn : FuncId)

inductive Focus where
  | eval (e : Expr) (env : Env)
  | exec (s : Stmt) (env : Env)
  /-- A value for the work that waits. -/
  | value (v : Value)
  /-- The end of a statement. -/
  | complete (c : Completion)
  /-- A thrown value on its way to a handler. -/
  | thrown (v : Value)

structure State where
  focus : Focus
  stack : List Waiting
  /-- The number of calls under way. -/
  depth : Nat
  store : Store

/-- The outcome of a step: a further state, or the end of the run. -/
inductive Step where
  | next (s : State)
  | halt (result : Except Failure Value) (store : Store)

end Resumable
