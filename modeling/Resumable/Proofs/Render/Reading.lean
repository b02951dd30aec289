import Resumable.Proofs.Decimal.Integer
import Resumable.Proofs.Text.Quoted
import Resumable.Render

/-!
# Reading rendered expressions

A reader for the text of expressions, and the expressions whose text it reads back.
It goes by the characters in front: an operand is a word, a quoted text or an
expression in parentheses with suffixes after it, and an operand with a blank after
it is the left side of an operation.
-/

namespace Resumable

/-! ## Expressions up to types -/

mutual

/-- An expression without its types and the identities of its variables. -/
def Expr.erased : Expr → Expr
  | .missing => .missing
  | .literal value _ => .literal value .absent
  | .ref v => .ref ⟨0, v.name, .absent⟩
  | .receiver _ => .receiver .absent
  | .unary op x _ => .unary op x.erased .absent
  | .binary op x y _ => .binary op x.erased y.erased .absent
  | .conditional c t e _ => .conditional c.erased t.erased e.erased .absent
  | .assign target value => .assign target.erased value.erased
  | .call callee args _ => .call callee.erased (erasedList args) .absent
  | .lambda fn _ => .lambda fn .absent
  | .property x name _ => .property x.erased name .absent
  | .construct cls args => .construct cls (erasedList args)

def erasedList : List Expr → List Expr
  | [] => []
  | e :: es => e.erased :: erasedList es

end

/-! ## Words -/

namespace Reading

def isWordChar (c : Char) : Bool :=
  c.isAlphanum || c = '_' || c = '$' || 0x80 ≤ c.toNat

def isIdentifier (s : String) : Bool :=
  s.toList.all isWordChar && s.toList.head?.any fun c => !c.isDigit

def reserved : List String :=
  ["this", "null", "true", "false", "new", "function", "typeof", "in"]

def wordExpr (word : List Char) : Expr :=
  if word = "this".toList then .receiver .absent
  else if word = "null".toList then .literal .null .absent
  else if word = "true".toList then .literal (.bool true) .absent
  else if word = "false".toList then .literal (.bool false) .absent
  else
    match Decimal.readInt64? (String.ofList word) with
    | some n => .literal (.int n) .absent
    | none => .ref ⟨0, String.ofList word, .absent⟩

/-! ## The reader -/

def prefixOp? : List Char → Option (UnaryOp × List Char)
  | '+' :: '+' :: rest => some (.preInc, rest)
  | '-' :: '-' :: rest => some (.preDec, rest)
  | '+' :: rest => some (.plus, rest)
  | '-' :: rest => some (.neg, rest)
  | '!' :: rest => some (.not, rest)
  | '~' :: rest => some (.bitNot, rest)
  | cs => ("typeof ".toList.isPrefixOf? cs).map fun rest => (.typeof, rest)

open Text (onward)

mutual

def readExpr (cs : List Char) : Option (Expr × List Char) :=
  match prefixOp? cs with
  | some (op, rest) => do
      let ⟨rest, _⟩ ← onward cs rest
      let (x, rest) ← readOperand rest
      return (.unary op x .absent, rest)
  | none => do
      let (x, rest) ← readOperand cs
      let ⟨rest, _⟩ ← onward cs rest
      readOperation x rest
termination_by (cs.length, 2)

def readOperation (x : Expr) : List Char → Option (Expr × List Char)
  | ' ' :: cs => do
      let rest ← [' '].isPrefixOf? (cs.dropWhile (· ≠ ' '))
      let ⟨after, _⟩ ← onward cs rest
      match cs.takeWhile (· ≠ ' ') with
      | ['='] => do
          let (y, rest) ← readExpr after
          return (.assign x y, rest)
      | ['?'] => do
          let (y, rest) ← readOperand after
          let rest ← [' ', ':', ' '].isPrefixOf? rest
          let ⟨rest, _⟩ ← onward after rest
          let (z, rest) ← readOperand rest
          return (.conditional x y z .absent, rest)
      | op => do
          let (y, rest) ← readOperand after
          return (.binary (.ofText (String.ofList op)) x y .absent, rest)
  | rest => some (x, rest)
termination_by cs => (cs.length, 0)

def readOperand : List Char → Option (Expr × List Char)
  | '(' :: cs => do
      let (x, rest) ← readExpr cs
      let rest ← [')'].isPrefixOf? rest
      let ⟨rest, _⟩ ← onward cs rest
      readSuffixes x rest
  | '"' :: cs => do
      let (text, rest) ← Text.readQuoted cs
      let ⟨rest, _⟩ ← onward cs rest
      readSuffixes (.literal (.str (String.ofList text)) .absent) rest
  | cs => do
      let ⟨rest, _⟩ ← onward cs (cs.dropWhile isWordChar)
      readSuffixes (wordExpr (cs.takeWhile isWordChar)) rest
termination_by cs => (cs.length, 1)

def readSuffixes (x : Expr) : List Char → Option (Expr × List Char)
  | '+' :: '+' :: rest => readSuffixes (.unary .postInc x .absent) rest
  | '-' :: '-' :: rest => readSuffixes (.unary .postDec x .absent) rest
  | '.' :: cs => do
      let ⟨rest, _⟩ ← onward cs (cs.dropWhile isWordChar)
      readSuffixes (.property x (String.ofList (cs.takeWhile isWordChar)) .absent) rest
  | '[' :: cs => do
      let (y, rest) ← readExpr cs
      let rest ← [']'].isPrefixOf? rest
      let ⟨rest, _⟩ ← onward cs rest
      readSuffixes (.binary .index x y .absent) rest
  | '(' :: ')' :: rest => readSuffixes (.call x [] .absent) rest
  | '(' :: cs => do
      let (args, rest) ← readArgs cs
      let ⟨rest, _⟩ ← onward cs rest
      readSuffixes (.call x args .absent) rest
  | rest => some (x, rest)
termination_by cs => (cs.length, 0)

def readArgs (cs : List Char) : Option (List Expr × List Char) := do
  let (x, rest) ← readExpr cs
  match rest with
  | ')' :: rest => return ([x], rest)
  | ',' :: ' ' :: rest => do
      let ⟨rest, _⟩ ← onward cs rest
      let (xs, rest) ← readArgs rest
      return (x :: xs, rest)
  | _ => none
termination_by (cs.length, 3)

end

end Reading

/-! ## Expressions that can be read -/

def Literal.isPlain : Literal → Bool
  | .int n => 0 ≤ n
  | .num _ => false
  | _ => true

def Expr.isPlace : Expr → Bool
  | .ref _ | .property .. => true
  | .binary op .. => op = .index
  | _ => false

open Reading in
mutual

/-- Whether an expression is built from names, constants, `this` and operators of
the language, with nothing missing. -/
def Expr.isPlain : Expr → Bool
  | .literal value _ => value.isPlain
  | .ref v => isIdentifier v.name && !reserved.contains v.name
  | .receiver _ => true
  | .unary op x _ => op ≠ .unknown && x.isPlain
  | .binary op x y _ => op ≠ .unknown && x.isPlain && y.isPlain
  | .conditional c t e _ => c.isPlain && t.isPlain && e.isPlain
  | .assign target value => target.isPlace && target.isPlain && value.isPlain
  | .call callee args _ => callee.isPlain && arePlain args
  | .property x name _ => x.isPlain && isIdentifier name
  | .missing | .lambda .. | .construct .. => false

def arePlain : List Expr → Bool
  | [] => true
  | e :: es => e.isPlain && arePlain es

end

end Resumable
