/-!
# Operators

Unary and binary operators with their spelling and their classes.
-/

namespace Resumable

inductive UnaryOp where
  | neg | plus | not | bitNot | typeof | preInc | preDec | postInc | postDec
  /-- An operator outside the language. -/
  | unknown
  deriving DecidableEq, Repr, Inhabited

namespace UnaryOp

def all : List UnaryOp :=
  [.neg, .plus, .not, .bitNot, .typeof, .preInc, .preDec, .postInc, .postDec]

def ofNumber (n : Nat) : UnaryOp := all.getD n .unknown

def ofText : String → UnaryOp
  | "-" => .neg
  | "+" => .plus
  | "!" => .not
  | "~" => .bitNot
  | "typeof" => .typeof
  | "++x" => .preInc
  | "--x" => .preDec
  | "x++" => .postInc
  | "x--" => .postDec
  | _ => .unknown

def text : UnaryOp → String
  | .neg => "-"
  | .plus => "+"
  | .not => "!"
  | .bitNot => "~"
  | .typeof => "typeof "
  | .preInc | .postInc => "++"
  | .preDec | .postDec => "--"
  | .unknown => "?"

def isIncDec : UnaryOp → Bool
  | .preInc | .preDec | .postInc | .postDec => true
  | _ => false

def isPostfix : UnaryOp → Bool
  | .postInc | .postDec => true
  | _ => false

def isDecrement : UnaryOp → Bool
  | .preDec | .postDec => true
  | _ => false

end UnaryOp

inductive BinaryOp where
  | add | sub | mul | div | mod
  | lt | le | gt | ge | eq | ne
  | and | or
  | bitAnd | bitOr | bitXor | shl | shr
  /-- Whether an object has a field. -/
  | member
  /-- Reading an element: `x[y]`. -/
  | index
  /-- An operator outside the language. -/
  | unknown
  deriving DecidableEq, Repr, Inhabited

namespace BinaryOp

def all : List BinaryOp :=
  [.add, .sub, .mul, .div, .mod, .lt, .le, .gt, .ge, .eq, .ne, .and, .or,
    .bitAnd, .bitOr, .bitXor, .shl, .shr, .member, .index]

def ofNumber (n : Nat) : BinaryOp := all.getD n .unknown

def text : BinaryOp → String
  | .add => "+"
  | .sub => "-"
  | .mul => "*"
  | .div => "/"
  | .mod => "%"
  | .lt => "<"
  | .le => "<="
  | .gt => ">"
  | .ge => ">="
  | .eq => "=="
  | .ne => "!="
  | .and => "&&"
  | .or => "||"
  | .bitAnd => "&"
  | .bitOr => "|"
  | .bitXor => "^"
  | .shl => "<<"
  | .shr => ">>"
  | .member => "in"
  | .index => "[]"
  | .unknown => "?"

def ofText (s : String) : BinaryOp :=
  (all.find? fun op => op.text = s).getD .unknown

def isComparison : BinaryOp → Bool
  | .lt | .le | .gt | .ge | .eq | .ne | .member => true
  | _ => false

def isLogical : BinaryOp → Bool
  | .and | .or => true
  | _ => false

end BinaryOp

end Resumable
