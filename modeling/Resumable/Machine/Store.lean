import Resumable.Failure
import Resumable.Machine.Key

/-!
# The store

What a run reads and writes: global variables, the frames of activations, the
fields of objects, the trace of native calls and the logged text.
-/

namespace Resumable

abbrev Bindings := List (Nat × Value)

namespace Bindings

def get? (bs : Bindings) (v : Variable) : Option Value :=
  bs.lookup v.id

def bind : Bindings → Variable → Value → Bindings
  | [], v, x => [(v.id, x)]
  | (id, y) :: rest, v, x =>
      if id = v.id then (id, x) :: rest else (id, y) :: bind rest v x

end Bindings

abbrev Fields := List (Key × Value)

namespace Fields

/-- The value of a field; null if the object has none of that name. -/
def get (fs : Fields) (name : Key) : Value :=
  (fs.lookup name).getD .null

def has (fs : Fields) (name : Key) : Bool :=
  (fs.lookup name).isSome

def set : Fields → Key → Value → Fields
  | [], name, x => [(name, x)]
  | (other, y) :: rest, name, x =>
      if other = name then (other, x) :: rest
      else if name.before other then (name, x) :: (other, y) :: rest
      else (other, y) :: set rest name x

def erase (fs : Fields) (name : Key) : Fields :=
  fs.filter fun f => f.1 ≠ name

/-- Fields with given names and values; the last one of a name counts. -/
def ofList (entries : List (String × Value)) : Fields :=
  entries.foldl (fun fs (name, x) => set fs (.text name) x) []

end Fields

structure Store where
  globals : Bindings := []
  frames : Array Bindings := #[]
  objects : Array Fields := #[]
  /-- How many function identities have been handed out. -/
  tags : Nat := 0
  trace : Array String := #[]
  /-- The values that recording natives were given. -/
  recorded : Array Value := #[]
  output : String := ""
  deriving Inhabited

namespace Store

def frameOf? (s : Store) (v : Variable) : Env → Option FrameId
  | [] => none
  | f :: rest =>
      if (Bindings.get? (s.frames.getD f []) v).isSome then some f else s.frameOf? v rest

/-- The value of a variable seen from `env`: that of the innermost frame that
has it, or else its global value. -/
def lookup (s : Store) (env : Env) (v : Variable) : Except Failure Value :=
  let found := match s.frameOf? v env with
    | some f => Bindings.get? (s.frames.getD f []) v
    | none => Bindings.get? s.globals v
  match found with
  | some x => .ok x
  | none => .error (.eval .notFound ("undefined variable " ++ v.name))

/-- Whether `env` or the globals have a variable. -/
def declared (s : Store) (env : Env) (v : Variable) : Bool :=
  (s.frameOf? v env).isSome || (Bindings.get? s.globals v).isSome

/-- Writes a variable where `lookup` would find it; an undeclared one is left
alone. -/
def assign (s : Store) (env : Env) (v : Variable) (x : Value) : Store :=
  match s.frameOf? v env with
  | some f => { s with frames := s.frames.modify f fun bs => Bindings.bind bs v x }
  | none =>
      if (Bindings.get? s.globals v).isSome then
        { s with globals := Bindings.bind s.globals v x }
      else s

def setGlobal (s : Store) (v : Variable) (x : Value) : Store :=
  { s with globals := Bindings.bind s.globals v x }

def newFrame (s : Store) (bs : Bindings) : FrameId × Store :=
  (s.frames.size, { s with frames := s.frames.push bs })

def newObject (s : Store) (fs : Fields) : Nat × Store :=
  (s.objects.size, { s with objects := s.objects.push fs })

def newTag (s : Store) : Nat × Store :=
  (s.tags, { s with tags := s.tags + 1 })

def fields (s : Store) (ref : Nat) : Fields :=
  s.objects.getD ref []

def modifyFields (s : Store) (ref : Nat) (change : Fields → Fields) : Store :=
  { s with objects := s.objects.modify ref change }

/-! ## Keys of values -/

/-- The name of the field that a value selects when it indexes an object. An
object stands for its class and fields as they are at the time, a function for
its definition and the frame it was made in, a native for its kind and name. -/
def key (s : Store) (p : Program) : Value → Key
  | .object ref cls =>
      let shown := match cls with
        | some c => p.types.classMention "v" c
        | none => "<nil>"
      let entries := (s.fields ref).map fun (name, x) => name ++ .text ":" ++ .ofPart x
      .compound [.text shown, .text "map[" ++ Key.spaced entries ++ .text "]"]
  | .closure _ fn env =>
      let definition := match p.func? fn with
        | some _ => Key.ofMark (.definition fn)
        | none => .text "<nil>"
      let frame := match env with
        | f :: _ => Key.ofMark (.frame f)
        | [] => .text "<nil>"
      .compound [definition, frame, .text "<nil>"]
  | .native _ name kind => .compound [.ofMark (.code kind), .text name]
  | v => .ofPart v

def logLine (s : Store) (line : String) : Store :=
  { s with output := s.output ++ line ++ "\n" }

def newNative (s : Store) (name : String) (kind : NativeKind) : Value × Store :=
  let (tag, s) := s.newTag
  (.native tag name kind, s)

def bindTracing (s : Store) (v : Variable) : Store :=
  let (f, s) := s.newNative v.name .trace
  s.setGlobal v f

end Store

end Resumable
