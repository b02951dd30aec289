import Resumable.Arena.Program
import Resumable.Decimal.Notation
import Resumable.Decimal.Integer
import Resumable.Text.Quoted

/-!
# Rendering

Programs as source text. A function literal is written out where it stands,
so the text of a root shows every function inside it. Operands are put in
parentheses unless they bind tighter than any operator around them.
-/

namespace Resumable.Render

def pad (indent : Nat) : String :=
  String.join (List.replicate indent "  ")

def literal : Literal → String
  | .null => "null"
  | .bool b => if b then "true" else "false"
  | .int n => Decimal.int64Text n
  | .num x => Decimal.floatText x
  | .str s => Text.quote s

def needsParens : Expr → Bool
  | .binary op _ _ _ => op ≠ .index
  | .unary op _ _ => !op.isPostfix
  | .conditional .. | .assign .. | .lambda .. => true
  | _ => false

/-- The text put in parentheses if `parens`. -/
def wrap (parens : Bool) (text : String) : String :=
  if parens then "(" ++ text ++ ")" else text

section Trees

/- `fn indent id` is the text of function `id` at an indentation. -/
variable (types : TypeTable) (fn : Nat → FuncId → String) (indent : Nat)

mutual

def exprAt : Expr → String
  | .missing => "<nil>"
  | .literal l _ => literal l
  | .ref v => v.name
  | .receiver _ => "this"
  | .lambda id _ => fn indent id
  | .unary op x _ =>
      let operand := wrap (needsParens x) (exprAt x)
      if op.isPostfix then operand ++ op.text else op.text ++ operand
  | .binary op x y _ =>
      let left := wrap (needsParens x) (exprAt x)
      if op = .index then left ++ "[" ++ exprAt y ++ "]"
      else left ++ " " ++ op.text ++ " " ++ wrap (needsParens y) (exprAt y)
  | .conditional c t e _ =>
      wrap (needsParens c) (exprAt c) ++ " ? " ++ wrap (needsParens t) (exprAt t) ++ " : " ++
        wrap (needsParens e) (exprAt e)
  | .assign target value => exprAt target ++ " = " ++ exprAt value
  | .call callee args _ =>
      wrap (needsParens callee) (exprAt callee) ++ "(" ++ ", ".intercalate (exprsAt args) ++ ")"
  | .property x name _ => wrap (needsParens x) (exprAt x) ++ "." ++ name
  | .construct cls args =>
      let name := match cls with
        | some c => types.classText c
        | none => ""
      "new " ++ name ++ "(" ++ ", ".intercalate (exprsAt args) ++ ")"

def exprsAt : List Expr → List String
  | [] => []
  | e :: es => exprAt e :: exprsAt es

end

def line (text : String) : String :=
  pad indent ++ text ++ "\n"

def labelMark (label : String) : String :=
  if label = "" then "" else label ++ ": "

def jumpText (word label : String) : String :=
  if label = "" then word ++ ";" else word ++ " " ++ label ++ ";"

def optional (e : Expr) : String :=
  if e.isMissing then "" else exprAt types fn indent e

def simpleAt : Simple → String
  | .expr x => line indent (exprAt types fn indent x ++ ";")
  | .ret x =>
      if x.isMissing then line indent "return;"
      else line indent ("return " ++ exprAt types fn indent x ++ ";")
  | .yield x => line indent ("yield " ++ exprAt types fn indent x ++ ";")
  | .delete x => line indent ("delete " ++ exprAt types fn indent x ++ ";")
  | .throw x => line indent ("throw " ++ exprAt types fn indent x ++ ";")
  | .assert x message =>
      line indent ("assert(" ++ exprAt types fn indent x ++
        (if message = "" then "" else ", " ++ Text.quote message) ++ ");")
  | .log args => line indent ("log(" ++ ", ".intercalate (exprsAt types fn indent args) ++ ");")
  | .debugger => line indent "debugger;"
  | .super _ args =>
      line indent ("super(" ++ ", ".intercalate (exprsAt types fn indent args) ++ ");")

def armAt (arm : Arm) : String :=
  if arm.value.isMissing then line indent ("default: goto " ++ arm.target ++ ";")
  else
    line indent ("case " ++ exprAt types fn indent arm.value ++ ": goto " ++ arm.target ++ ";")

end Trees

def catchLine (indent : Nat) (var : Option Variable) : String :=
  match var with
  | some v => line indent ("\x7d catch (" ++ v.name ++ ") \x7b")
  | none => line indent "\x7d catch \x7b"

section Statements

variable (types : TypeTable) (fn : Nat → FuncId → String)

mutual

def stmtAt (indent : Nat) : Stmt → String
  | .missing => line indent "/* <nil> */"
  | .simple s _ => simpleAt types fn indent s
  | .breakTo l => line indent (jumpText "break" l)
  | .continueTo l => line indent (jumpText "continue" l)
  | .ifElse c t e =>
      line indent ("if (" ++ exprAt types fn indent c ++ ") \x7b") ++
        stmtsAt (indent + 1) t ++
        (if e.isEmpty then "" else line indent "\x7d else \x7b" ++ stmtsAt (indent + 1) e) ++
        line indent "\x7d"
  | .whileLoop c body l =>
      line indent (labelMark l ++ "while (" ++ exprAt types fn indent c ++ ") \x7b") ++
        stmtsAt (indent + 1) body ++ line indent "\x7d"
  | .doWhile c body l =>
      line indent (labelMark l ++ "do \x7b") ++ stmtsAt (indent + 1) body ++
        line indent ("\x7d while (" ++ exprAt types fn indent c ++ ");")
  | .forLoop init cond post body l =>
      line indent
          (labelMark l ++ "for (" ++ optional types fn indent init ++ "; " ++
            optional types fn indent cond ++ "; " ++ optional types fn indent post ++ ") \x7b") ++
        stmtsAt (indent + 1) body ++ line indent "\x7d"
  | .forIn key x body l =>
      let name := match key with
        | some v => v.name
        | none => "?"
      line indent
          (labelMark l ++ "for (" ++ name ++ " in " ++ exprAt types fn indent x ++ ") \x7b") ++
        stmtsAt (indent + 1) body ++ line indent "\x7d"
  | .switch x body l =>
      line indent (labelMark l ++ "switch (" ++ exprAt types fn indent x ++ ") \x7b") ++
        casesAt (indent + 1) false body ++ line indent "\x7d"
  | .caseMark x => line indent ("case " ++ exprAt types fn indent x ++ ":")
  | .defaultMark => line indent "default:"
  | .tryCatch body catches =>
      line indent "try \x7b" ++ stmtsAt (indent + 1) body ++ catchesAt indent catches ++
        line indent "\x7d"
  | .catchClause c => catchAt indent c ++ line indent "\x7d"
  | .label l => line indent (l ++ ":")
  | .goto l => line indent ("goto " ++ l ++ ";")
  | .condGoto c t e =>
      line indent
        ("if (" ++ exprAt types fn indent c ++ ") goto " ++ t ++ "; else goto " ++ e ++ ";")
  | .dispatch x arms =>
      line indent ("dispatch (" ++ exprAt types fn indent x ++ ") \x7b") ++
        String.join (arms.map (armAt types fn (indent + 1))) ++ line indent "\x7d"

def stmtsAt (indent : Nat) : List Stmt → String
  | [] => ""
  | s :: rest => stmtAt indent s ++ stmtsAt indent rest

/-- The lines of a switch body: marks at the indentation, and the statements
after a mark one further in. -/
def casesAt (indent : Nat) (inCase : Bool) : List Stmt → String
  | [] => ""
  | s :: rest =>
      if s.isCaseMark then stmtAt indent s ++ casesAt indent true rest
      else stmtAt (if inCase then indent + 1 else indent) s ++ casesAt indent inCase rest

/-- The lines of a handler, its closing brace apart. -/
def catchAt (indent : Nat) : Catch → String
  | .mk var body => catchLine indent var ++ stmtsAt (indent + 1) body

def catchesAt (indent : Nat) : List Catch → String
  | [] => ""
  | c :: rest => catchAt indent c ++ catchesAt indent rest

end

end Statements

def missingFunction (id : FuncId) : String :=
  s!"<missing function #{id}>"

/-- The text of a definition from its `function` to its closing brace, given
the text of the functions inside. -/
def definitionAt (types : TypeTable) (fn : Nat → FuncId → String) (indent : Nat) (f : Func) :
    String :=
  "function" ++ (if f.generator then "*" else "") ++ " " ++ f.name ++ "(" ++
    ", ".intercalate (f.params.map (·.name)) ++ ") \x7b\n" ++
    (if f.locals.isEmpty then ""
      else line (indent + 1) ("var " ++ ", ".intercalate (f.locals.map (·.name)) ++ ";")) ++
    stmtsAt types fn (indent + 1) f.body ++ pad indent ++ "\x7d"

/-- The text of a function, with functions nested at most `fuel` deep. -/
def functionAt (p : Program) : Nat → Nat → FuncId → String
  | 0, _, _ => ""
  | fuel + 1, indent, id =>
      match p.func? id with
      | none => missingFunction id
      | some f => definitionAt p.types (functionAt p fuel) indent f

/-- The text of a literal. Where no function contains itself, no nesting is
deeper than the number of functions. -/
def nested (p : Program) : Nat → FuncId → String :=
  functionAt p (p.size + 1)

def function (p : Program) (id : FuncId) : String :=
  nested p 0 id ++ "\n"

def program (p : Program) : String :=
  "\n".intercalate (p.roots.map (function p))

def stmts (p : Program) (body : List Stmt) : String :=
  stmtsAt p.types (nested p) 0 body

def expr (p : Program) (e : Expr) : String :=
  exprAt p.types (nested p) 0 e

end Resumable.Render
