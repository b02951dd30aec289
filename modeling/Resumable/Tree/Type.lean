/-!
# Static types

The types that annotate expressions, and the table of classes and templates
they refer to. Classes have identity: two classes may share a name and differ,
so types name a class by its place in the table.
-/

namespace Resumable

abbrev ClassId := Nat

abbrev TemplateId := Nat

inductive Ty where
  /-- No type was recorded. It reads as `void` but is not the type `void`. -/
  | absent
  | void
  | prim (name : String)
  /-- A function type; only an assignable one is the type of ordinary values,
  the others are methods. -/
  | func (result : Ty) (params : List Ty) (assignable : Bool)
  /-- Instances of a class, if one is known. -/
  | object (cls : Option ClassId)
  /-- A parameter of a template that has not been replaced. -/
  | param (name : String)
  deriving Inhabited, Repr

namespace Ty

def int : Ty := .prim "int"
def number : Ty := .prim "number"
def string : Ty := .prim "string"
def boolean : Ty := .prim "boolean"
def variant : Ty := .prim "variant"

def function (result : Ty) (params : List Ty) : Ty := .func result params true

def isVoid : Ty → Bool
  | .absent | .void => true
  | _ => false

/-- The result of calling a value of this type, if it is a function with a
recorded result. -/
def callResult? : Ty → Option Ty
  | .func .absent _ _ => none
  | .func result _ _ => some result
  | _ => none

def isMethod : Ty → Bool
  | .func _ _ assignable => !assignable
  | _ => false

mutual

/-- Identity of types: object types by class, the others by structure. -/
def same : Ty → Ty → Bool
  | .absent, .absent => true
  | .void, .void => true
  | .prim a, .prim b => a = b
  | .func r ps a, .func r' ps' a' => a = a' && same r r' && sameList ps ps'
  | .object a, .object b => a = b
  | .param a, .param b => a = b
  | _, _ => false

def sameList : List Ty → List Ty → Bool
  | [], [] => true
  | a :: as, b :: bs => same a b && sameList as bs
  | _, _ => false

end

mutual

/-- The type with template parameters replaced where `bindings` names them. -/
def substitute (bindings : List (String × Ty)) : Ty → Ty
  | .param name => (bindings.lookup name).getD (.param name)
  | .func result params assignable =>
      .func (substitute bindings result) (substituteList bindings params) assignable
  | t => t

def substituteList (bindings : List (String × Ty)) : List Ty → List Ty
  | [] => []
  | t :: ts => substitute bindings t :: substituteList bindings ts

end

mutual

/-- The name of the first template parameter in the type, looking through
function types but not into classes; `""` if there is none. -/
def unresolved : Ty → String
  | .param name => name
  | .func result params _ =>
      let inParams := unresolvedList params
      if inParams = "" then unresolved result else inParams
  | _ => ""

def unresolvedList : List Ty → String
  | [] => ""
  | t :: ts =>
      let here := unresolved t
      if here = "" then unresolvedList ts else here

end

mutual

/-- The text of a type, given the text of each class. There is none if an
object type in it has no class. -/
def text? (classText? : ClassId → Option String) : Ty → Option String
  | .absent | .void => some "void"
  | .prim name => some name
  | .func result params _ => do
      let params ← textList? classText? params
      let result ← text? classText? result
      return "function (" ++ ", ".intercalate params ++ ") : " ++ result
  | .object (some c) => classText? c
  | .object none => none
  | .param name => some name

def textList? (classText? : ClassId → Option String) : List Ty → Option (List String)
  | [] => some []
  | t :: ts => do
      let text ← text? classText? t
      return text :: (← textList? classText? ts)

end

end Ty

/-- A member variable of a class or template. -/
structure Field where
  name : String
  type : Ty
  deriving Inhabited, Repr

/-- A concrete class, declared or made from a template. -/
structure Class where
  name : String
  typeArgs : List Ty := []
  fields : List Field := []
  ctorParams : List Ty := []
  /-- Whether the class was found free of template parameters. -/
  analyzed : Bool := false
  template : Option TemplateId := none
  deriving Inhabited, Repr

def Class.field? (c : Class) (name : String) : Option Field :=
  c.fields.find? fun f => f.name = name

structure Template where
  name : String
  params : List String := []
  fields : List Field := []
  ctorParams : List Ty := []
  deriving Inhabited, Repr

structure TypeTable where
  classes : Array Class := #[]
  templates : Array Template := #[]
  deriving Inhabited, Repr

namespace TypeTable

def class? (table : TypeTable) (c : ClassId) : Option Class :=
  table.classes[c]?

def template? (table : TypeTable) (t : TemplateId) : Option Template :=
  table.templates[t]?

def addClass (table : TypeTable) (c : Class) : ClassId × TypeTable :=
  (table.classes.size, { table with classes := table.classes.push c })

def addTemplate (table : TypeTable) (t : Template) : TemplateId × TypeTable :=
  (table.templates.size, { table with templates := table.templates.push t })

def setClass (table : TypeTable) (c : ClassId) (cls : Class) : TypeTable :=
  { table with classes := table.classes.setIfInBounds c cls }

/-- The text of a class: its name, and its type arguments if it has any. Each
level of type arguments takes one unit of fuel. -/
def classTextAt? (table : TypeTable) : Nat → ClassId → Option String
  | 0, _ => none
  | fuel + 1, c => do
      let cls ← table.class? c
      if cls.typeArgs.isEmpty then return cls.name
      let args ← Ty.textList? (table.classTextAt? fuel) cls.typeArgs
      return cls.name ++ ".<" ++ ", ".intercalate args ++ ">"

/-- The text of a class. Without a class among its own type arguments, no
chain of type arguments is longer than the table. -/
def classText? (table : TypeTable) (c : ClassId) : Option String :=
  table.classTextAt? (table.classes.size + 1) c

def classText (table : TypeTable) (c : ClassId) : String :=
  (table.classText? c).getD ""

/-- The text of a class in the place of a verb of a message, which notes that
the class has none. -/
def classMention (table : TypeTable) (verb : String) (c : ClassId) : String :=
  (table.classText? c).getD
    ("%!" ++ verb ++ "(PANIC=String method: runtime error: " ++
      "invalid memory address or nil pointer dereference)")

def typeText (table : TypeTable) (t : Ty) : String :=
  (t.text? table.classText?).getD ""

/-- The type of member `name` of a value of type `t`: that of the field if the
class declares one, and `variant` otherwise. -/
def memberType (table : TypeTable) (t : Ty) (name : String) : Ty :=
  match t with
  | .object (some c) =>
      match (table.class? c).bind (·.field? name) with
      | some f => f.type
      | none => .variant
  | _ => .variant

end TypeTable

end Resumable
