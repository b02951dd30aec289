import Resumable.Text.Quoted

/-!
# Texts with places for values

A template is a text in which `%d`, `%s`, `%q` and `%v` stand for an integer, a
text, a quoted text or character and any value, in order, and `%%` for a percent
sign. A value that does not fit its place, is missing or is left over shows as
a note in the text.
-/

namespace Resumable.Text

inductive TemplateArg where
  | null
  | bool (b : Bool)
  | int (n : Int)
  | text (s : String)
  deriving Repr, DecidableEq

namespace TemplateArg

def plain : TemplateArg → String
  | .null => "<nil>"
  | .bool b => if b then "true" else "false"
  | .int n => toString n
  | .text s => s

def typed : TemplateArg → String
  | .null => "<nil>"
  | .bool b => "bool=" ++ TemplateArg.plain (.bool b)
  | .int n => "int=" ++ toString n
  | .text s => "string=" ++ s

def fill (verb : Char) (arg : TemplateArg) : String :=
  match verb, arg with
  | 'v', a => a.plain
  | 'd', .int n => toString n
  | 's', .text s => s
  | 'q', .text s => quote s
  | 'q', .int n => quoteNumber n
  | c, a => "%!" ++ c.toString ++ "(" ++ a.typed ++ ")"

end TemplateArg

def leftOver (args : List TemplateArg) : String :=
  if args.isEmpty then ""
  else "%!(EXTRA " ++ ", ".intercalate (args.map (·.typed)) ++ ")"

def fillChars : List Char → List TemplateArg → String
  | [], args => leftOver args
  | ['%'], args => "%!(NOVERB)" ++ leftOver args
  | '%' :: '%' :: rest, args => "%" ++ fillChars rest args
  | '%' :: verb :: rest, [] => "%!" ++ verb.toString ++ "(MISSING)" ++ fillChars rest []
  | '%' :: verb :: rest, arg :: args => arg.fill verb ++ fillChars rest args
  | c :: rest, args => c.toString ++ fillChars rest args

def fillTemplate (template : String) (args : List TemplateArg) : String :=
  fillChars template.toList args

end Resumable.Text
