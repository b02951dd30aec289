import Resumable.Tree.Type
import Resumable.Tree.Operator

/-!
# Expressions

Typed expressions over variables with identity. A function literal names a
definition held elsewhere, so expressions never contain function bodies.
-/

namespace Resumable

/-- The number of a function definition; zero names none. -/
abbrev FuncId := Nat

def noFunc : FuncId := 0

/-- A parameter or local variable. Two variables are the same exactly if their
identities are; names may repeat. -/
structure Variable where
  id : Nat
  name : String
  type : Ty
  deriving Inhabited, Repr

inductive Literal where
  | null
  | bool (b : Bool)
  | int (n : Int64)
  | num (x : Float)
  | str (s : String)
  deriving Inhabited, Repr

inductive Expr where
  /-- Nothing where an expression could stand. -/
  | missing
  | literal (value : Literal) (type : Ty)
  | ref (v : Variable)
  | receiver (type : Ty)
  | unary (op : UnaryOp) (x : Expr) (type : Ty)
  | binary (op : BinaryOp) (x y : Expr) (type : Ty)
  | conditional (cond thenE elseE : Expr) (type : Ty)
  | assign (target value : Expr)
  | call (callee : Expr) (args : List Expr) (type : Ty)
  | lambda (fn : FuncId) (type : Ty)
  | property (x : Expr) (name : String) (type : Ty)
  | construct (cls : Option ClassId) (args : List Expr)
  deriving Inhabited, Repr

namespace Expr

def isMissing : Expr → Bool
  | .missing => true
  | _ => false

def type : Expr → Ty
  | .missing => .absent
  | .literal _ t => t
  | .ref v => v.type
  | .receiver t => t
  | .unary _ _ t => t
  | .binary _ _ _ t => t
  | .conditional _ _ _ t => t
  | .assign target _ => target.type
  | .call _ _ t => t
  | .lambda _ t => t
  | .property _ _ t => t
  | .construct c _ => .object c

def nodeName : Expr → String
  | .missing => "<nil>"
  | .literal .. => "*ast.Literal"
  | .ref _ => "*ast.LocalRef"
  | .receiver _ => "*ast.This"
  | .unary .. => "*ast.Unary"
  | .binary .. => "*ast.Binary"
  | .conditional .. => "*ast.Conditional"
  | .assign .. => "*ast.Assign"
  | .call .. => "*ast.Call"
  | .lambda .. => "*ast.FuncLit"
  | .property .. => "*ast.Property"
  | .construct .. => "*ast.New"

/-! ## Building expressions with their types -/

def int (n : Int64) : Expr := .literal (.int n) .int
def num (x : Float) : Expr := .literal (.num x) .number
def str (s : String) : Expr := .literal (.str s) .string
def bool (b : Bool) : Expr := .literal (.bool b) .boolean

/-- A unary expression typed after its operator, or else after its operand. -/
def mkUnary (op : UnaryOp) (x : Expr) : Expr :=
  .unary op x <| match op with
    | .not => .boolean
    | .typeof => .string
    | _ => x.type

/-- A binary expression typed after its operator, or else after its left operand. -/
def mkBinary (op : BinaryOp) (x y : Expr) : Expr :=
  .binary op x y <|
    if op.isComparison then .boolean
    else if op = .index then .variant
    else x.type

def mkConditional (cond thenE elseE : Expr) : Expr :=
  .conditional cond thenE elseE thenE.type

/-- A call typed after the result of the callee, `void` if none is known. -/
def mkCall (callee : Expr) (args : List Expr) : Expr :=
  .call callee args (callee.type.callResult?.getD .void)

/-- A member read typed after the class of the object. -/
def mkProperty (table : TypeTable) (x : Expr) (name : String) : Expr :=
  .property x name (table.memberType x.type name)

end Expr

end Resumable
