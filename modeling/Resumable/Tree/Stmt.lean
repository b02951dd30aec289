import Resumable.Tree.Expr

/-!
# Statements

The statements of a function body. Simple statements hold expressions but no
other statement; they pass through the lowering of structured statements and
the forming of fragments unchanged. Labels and the three jumps (`goto`,
`condGoto`, `dispatch`) occur only in jump code, between the two.
-/

namespace Resumable

/-- One way out of a dispatch; without a match it is the default. -/
structure Arm where
  value : Expr
  target : String
  deriving Inhabited, Repr

inductive Simple where
  | expr (x : Expr)
  /-- Leaves the function; the value may be missing. -/
  | ret (x : Expr)
  | yield (x : Expr)
  | delete (x : Expr)
  | throw (x : Expr)
  | assert (x : Expr) (message : String)
  | log (args : List Expr)
  | debugger
  /-- A call of the constructor of the class above. -/
  | super (cls : Option ClassId) (args : List Expr)
  deriving Inhabited, Repr

mutual

/-- A statement. The label of a loop or switch is `""` if it has none, and so
is the label of a `break` or `continue`. -/
inductive Stmt where
  /-- Nothing where a statement could stand. -/
  | missing
  /-- A simple statement. Several bodies may hold one in common; it then has a
  number, the same in all of them. -/
  | simple (s : Simple) (share : Option Nat)
  | breakTo (label : String)
  | continueTo (label : String)
  | ifElse (cond : Expr) (thenS elseS : List Stmt)
  | whileLoop (cond : Expr) (body : List Stmt) (label : String)
  | doWhile (cond : Expr) (body : List Stmt) (label : String)
  /-- A loop with three clauses, each of which may be missing. -/
  | forLoop (init cond post : Expr) (body : List Stmt) (label : String)
  | forIn (key : Option Variable) (x : Expr) (body : List Stmt) (label : String)
  /-- A switch whose body interleaves `case` and `default` marks with the
  statements that follow them. -/
  | switch (subject : Expr) (body : List Stmt) (label : String)
  | caseMark (x : Expr)
  | defaultMark
  | tryCatch (body : List Stmt) (catches : List Catch)
  | catchClause (clause : Catch)
  | label (name : String)
  | goto (target : String)
  | condGoto (cond : Expr) (thenL elseL : String)
  /-- Jumps to the first arm whose value equals the subject, or else to the
  default arm, or else continues. -/
  | dispatch (subject : Expr) (arms : List Arm)

/-- A handler of thrown values, which it may bind to a variable. -/
inductive Catch where
  | mk (var : Option Variable) (body : List Stmt)

end

instance : Inhabited Stmt := ⟨.missing⟩
instance : Inhabited Catch := ⟨.mk none []⟩

namespace Catch

def var : Catch → Option Variable
  | .mk v _ => v

def body : Catch → List Stmt
  | .mk _ b => b

end Catch

namespace Simple

def nodeName : Simple → String
  | .expr _ => "*ast.ExprStmt"
  | .ret _ => "*ast.Return"
  | .yield _ => "*ast.Yield"
  | .delete _ => "*ast.Delete"
  | .throw _ => "*ast.Throw"
  | .assert .. => "*ast.Assert"
  | .log _ => "*ast.Log"
  | .debugger => "*ast.Debugger"
  | .super .. => "*ast.CtorInvocation"

/-- Whether control never passes from the statement to the next one. -/
def isTerminator : Simple → Bool
  | .ret _ | .throw _ => true
  | _ => false

end Simple

namespace Stmt

/-! ## Simple statements of one body -/

abbrev expr (x : Expr) : Stmt := .simple (.expr x) none

abbrev ret (x : Expr) : Stmt := .simple (.ret x) none

abbrev yield (x : Expr) : Stmt := .simple (.yield x) none

abbrev delete (x : Expr) : Stmt := .simple (.delete x) none

abbrev throw (x : Expr) : Stmt := .simple (.throw x) none

abbrev assert (x : Expr) (message : String) : Stmt := .simple (.assert x message) none

abbrev log (args : List Expr) : Stmt := .simple (.log args) none

abbrev debugger : Stmt := .simple .debugger none

abbrev super (cls : Option ClassId) (args : List Expr) : Stmt := .simple (.super cls args) none

/-! ## Kinds of statements -/

def nodeName : Stmt → String
  | .missing => "<nil>"
  | .simple s _ => s.nodeName
  | .breakTo _ => "*ast.Break"
  | .continueTo _ => "*ast.Continue"
  | .ifElse .. => "*ast.If"
  | .whileLoop .. => "*ast.While"
  | .doWhile .. => "*ast.DoWhile"
  | .forLoop .. => "*ast.For"
  | .forIn .. => "*ast.ForIn"
  | .switch .. => "*ast.Switch"
  | .caseMark _ => "*ast.Case"
  | .defaultMark => "*ast.Default"
  | .tryCatch .. => "*ast.Try"
  | .catchClause _ => "*ast.Catch"
  | .label _ => "*ast.Label"
  | .goto _ => "*ast.Goto"
  | .condGoto .. => "*ast.CondGoto"
  | .dispatch .. => "*ast.Dispatch"

/-- Whether this is a `case` or `default` mark. -/
def isCaseMark : Stmt → Bool
  | .caseMark _ | .defaultMark => true
  | _ => false

def constructLabel? : Stmt → Option String
  | .whileLoop _ _ l | .doWhile _ _ l | .forLoop _ _ _ _ l | .forIn _ _ _ l | .switch _ _ l => some l
  | _ => none

/-- Whether control never passes from the statement to the next one. -/
def isTerminator : Stmt → Bool
  | .simple s _ => s.isTerminator
  | .goto _ | .condGoto .. => true
  | _ => false

def isJumpForm : Stmt → Bool
  | .label _ | .goto _ | .condGoto .. | .dispatch .. => true
  | _ => false

/-- Whether the statement must not remain in jump code. -/
def isStructured : Stmt → Bool
  | .ifElse .. | .whileLoop .. | .doWhile .. | .forLoop .. | .forIn .. | .switch .. | .tryCatch .. |
    .catchClause _ | .caseMark _ | .defaultMark | .breakTo _ | .continueTo _ => true
  | _ => false

def isLoop : Stmt → Bool
  | .whileLoop .. | .doWhile .. | .forLoop .. | .forIn .. => true
  | _ => false

def targets : Stmt → List String
  | .goto l => [l]
  | .condGoto _ t e => [t, e]
  | .dispatch _ arms => arms.map (·.target)
  | _ => []

def setVar (v : Variable) (x : Expr) : Stmt :=
  .expr (.assign (.ref v) x)

end Stmt

end Resumable
