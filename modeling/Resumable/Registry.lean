import Resumable.Failure
import Resumable.Machine.Interpreter

/-!
# The type registry

Names of classes and templates, and the classes made from templates so far. A
template applied to the same types again gives the same class, so a registry
never holds two instances of one template with identical arguments.
-/

namespace Resumable

/-- Classes and templates by name, and the instances of templates. -/
structure Registry where
  classes : List (String × ClassId) := []
  templates : List (String × TemplateId) := []
  /-- Instances in the order they were made. -/
  instances : List (TemplateId × ClassId) := []
  deriving Inhabited, Repr

namespace Registry

def registerClass (r : Registry) (name : String) (c : ClassId) : Registry :=
  { r with classes := (name, c) :: r.classes.filter fun entry => entry.1 ≠ name }

def registerTemplate (r : Registry) (name : String) (t : TemplateId) : Registry :=
  { r with templates := (name, t) :: r.templates.filter fun entry => entry.1 ≠ name }

def lookupClass (r : Registry) (name : String) : Except Failure ClassId :=
  match r.classes.lookup name with
  | some c => .ok c
  | none => .error (.notFound .setup "class" name)

def lookupTemplate (r : Registry) (name : String) : Except Failure TemplateId :=
  match r.templates.lookup name with
  | some t => .ok t
  | none => .error (.notFound .setup "template" name)

def stopIteration : Class :=
  { name := Generator.stopClass, analyzed := true }

def generatorTemplate : Template where
  name := Generator.templateName
  params := ["T"]
  fields := [⟨Generator.valueField, .param "T"⟩, ⟨Generator.nextField, .function .void []⟩]

def builtin (table : TypeTable) : Registry × TypeTable :=
  let (c, table) := table.addClass stopIteration
  let (t, table) := table.addTemplate generatorTemplate
  let r : Registry := {}
  ((r.registerClass Generator.stopClass c).registerTemplate Generator.templateName t, table)

def instance? (r : Registry) (table : TypeTable) (t : TemplateId) (args : List Ty) :
    Option ClassId :=
  let own := (r.instances.filter fun entry => entry.1 = t).map (·.2)
  own.find? fun c =>
    match table.class? c with
    | some cls => Ty.sameList cls.typeArgs args
    | none => false

/-- What a template with its parameters replaced looks like. -/
def instantiated (t : TemplateId) (template : Template) (args : List Ty) : Class :=
  let bindings := (template.params.zip args).reverse
  { name := template.name
    typeArgs := args
    fields := template.fields.map fun f => ⟨f.name, f.type.substitute bindings⟩
    ctorParams := template.ctorParams.map (Ty.substitute bindings)
    template := some t }

/-- The class of a template applied to types, made at the first request. -/
def instantiate (r : Registry) (table : TypeTable) (t : TemplateId) (args : List Ty) :
    Except Failure (ClassId × Registry × TypeTable) :=
  let template := (table.template? t).getD { name := "" }
  if args.length ≠ template.params.length then
    .error (.report
      { phase := .generator, kind := .typeError, subject := some template.name
        detail := s!"template {template.name} expects {template.params.length} type arguments, " ++
          s!"got {args.length}" })
  else
    match r.instance? table t args with
    | some c => .ok (c, r, table)
    | none =>
        let (c, table) := table.addClass (instantiated t template args)
        .ok (c, { r with instances := r.instances ++ [(t, c)] }, table)

/-- The first template parameter left in the fields of a class. -/
def unresolvedField? (fields : List Field) : Option (String × String) :=
  fields.findSome? fun f =>
    let name := f.type.unresolved
    if name = "" then none else some (f.name, name)

/-- The first template parameter left in constructor parameters, with the place
of its parameter. -/
def unresolvedParam? (params : List Ty) : Option (Nat × String) :=
  params.zipIdx.findSome? fun (t, i) =>
    let name := t.unresolved
    if name = "" then none else some (i, name)

/-- Checks that no template parameter is left in a class and marks it. -/
def analyze (table : TypeTable) (c : ClassId) : Except Failure TypeTable :=
  match table.class? c with
  | none => .ok table
  | some cls =>
      if cls.analyzed then .ok table
      else
        match unresolvedField? cls.fields with
        | some (field, name) =>
            let text := table.classMention "s" c
            .error (.typeError .generator
              s!"field {field} of {text} has unresolved type parameter {name}")
        | none =>
            match unresolvedParam? cls.ctorParams with
            | some (i, name) =>
                let text := table.classMention "s" c
                .error (.typeError .generator
                  s!"constructor parameter {i} of {text} has unresolved type parameter {name}")
            | none => .ok (table.setClass c { cls with analyzed := true })

def checkNew (table : TypeTable) (cls : Option ClassId) (args : Nat) : Except Failure Unit :=
  match cls with
  | none => .error (.typeError .generator "new without a class")
  | some c =>
      let text := table.classMention "s" c
      let cls := (table.class? c).getD { name := "" }
      if !cls.analyzed then
        .error (.typeError .generator ("new of unanalyzed class " ++ table.classText c))
      else if args ≠ cls.ctorParams.length then
        .error (.typeError .generator
          s!"new {text}: expected {cls.ctorParams.length} arguments, got {args}")
      else .ok ()

end Registry

end Resumable
