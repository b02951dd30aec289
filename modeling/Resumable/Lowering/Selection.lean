import Resumable.Text.Glob

/-!
# Selection of functions by name

Conditions on names: exact names, beginnings, glob patterns, and any of several
conditions.
-/

namespace Resumable

inductive Matcher where
  | names (names : List String)
  /-- Names that begin with one of the texts. -/
  | beginnings (texts : List String)
  /-- Names that fit one of the patterns; a pattern that is malformed, or uses
  no pattern characters, fits only itself. -/
  | patterns (patterns : List String)
  | anyOf (matchers : List Matcher)
  deriving Inhabited, Repr

namespace Matcher

def beginsWith (name text : String) : Bool :=
  text.toList.isPrefixOf name.toList

def fitsPattern (name pattern : String) : Bool :=
  if Text.Glob.isPattern pattern then
    match Text.Glob.parse? pattern with
    | some glob => Text.Glob.matchesName glob name
    | none => name = pattern
  else name = pattern

mutual

def accepts (name : String) : Matcher → Bool
  | .names ns => ns.contains name
  | .beginnings texts => texts.any (beginsWith name)
  | .patterns ps => ps.any (fitsPattern name)
  | .anyOf ms => acceptsAny name ms

def acceptsAny (name : String) : List Matcher → Bool
  | [] => false
  | m :: rest => accepts name m || acceptsAny name rest

end

end Matcher

end Resumable
