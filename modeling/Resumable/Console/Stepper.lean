import Resumable.Console.Report

/-!
# The interactive stepper

A state machine over three screens: choosing a sample, typing its arguments,
and resuming it step by step.
-/

namespace Resumable.Console

inductive Screen where
  | select
  | args
  | step
  deriving DecidableEq, Repr, Inhabited

inductive Key where
  | up | down | enter | escape | interrupt | backspace
  | resize
  /-- Typed text; some letters have a meaning of their own. -/
  | text (s : String)
  deriving DecidableEq, Repr

structure Stepper where
  options : Options
  /-- The place of the chosen sample in the list. -/
  selected : Nat := 0
  screen : Screen := .select
  prepared : Option Prepared := none
  /-- The typed arguments. -/
  input : String := ""
  /-- The store of the run under way. -/
  store : Option Store := none
  /-- The generator object being resumed. -/
  gen : Option Value := none
  result : String := ""
  /-- The texts of the values yielded so far. -/
  values : List String := []
  done : Bool := false
  failure : Option Failure := none
  deriving Inhabited

namespace Stepper

/-- The first state; a sample named in the options is chosen. -/
def initial (options : Options) : Stepper :=
  { options, selected := (Catalog.names.idxOf? options.sample).getD 0 }

def selectedName (m : Stepper) : String :=
  Catalog.names.getD m.selected ""

def program (m : Stepper) : Program :=
  match m.prepared with
  | some p => p.program
  | none => {}

def failureText? (m : Stepper) : Option String :=
  m.failure.map (·.message m.program)

/-- Lowers the chosen sample and asks for its arguments. -/
def choose (m : Stepper) : Stepper :=
  match prepare m.selectedName m.options with
  | .error f => { m with failure := some f }
  | .ok p =>
      { m with
        failure := none
        prepared := some p
        input := argsText p.program p.sample.args
        screen := .args }

def start (m : Stepper) : Stepper :=
  match m.prepared with
  | none => m
  | some p =>
      match parseArgs m.input with
      | .error f => { m with failure := some f }
      | .ok args =>
          let (result, store) := p.call args p.sample.store
          let m := { m with
            failure := none, values := [], result := "", done := false, gen := none
            store := some store, screen := .step }
          match result with
          | .error f => { m with failure := some f, done := true }
          | .ok v =>
              if p.isGenerator then { m with gen := some v }
              else { m with result := v.format p.program, done := true }

def advance (m : Stepper) : Stepper :=
  match m.prepared, m.gen, m.store with
  | some p, some gen, some store =>
      if m.done then m
      else if m.options.steps ≤ m.values.length then
        { m with
          failure := some (.plain s!"stopped after {m.options.steps} resumptions"), done := true }
      else
        match p.resume gen store with
        | (.failed f, store) => { m with failure := some f, done := true, store := some store }
        | (.done, store) => { m with done := true, store := some store }
        | (.yielded v, store) =>
            { m with values := m.values ++ [v.format p.program], store := some store }
  | _, _, _ => m

/-- What typing a character adds to the input: line ends and tabs count as
blanks, other control characters as nothing. -/
def typedChar (c : Char) : List Char :=
  if c = '\n' || c = '\r' || c = '\t' then [' ']
  else if c.toNat < 0x20 || (0x7f ≤ c.toNat && c.toNat < 0xa0) || c.toNat = 0xfffd then []
  else [c]

def typeText (m : Stepper) (text : String) : Stepper :=
  if m.screen = .args then
    { m with input := m.input ++ String.ofList (text.toList.flatMap typedChar) }
  else m

def eraseLast (m : Stepper) : Stepper :=
  if m.screen = .args then { m with input := String.ofList m.input.toList.dropLast } else m

def moveUp (m : Stepper) : Stepper :=
  if m.screen = .select && 0 < m.selected then { m with selected := m.selected - 1 } else m

def moveDown (m : Stepper) : Stepper :=
  if m.screen = .select && m.selected + 1 < Catalog.names.length then
    { m with selected := m.selected + 1 }
  else m

def confirm (m : Stepper) : Stepper :=
  match m.screen with
  | .select => m.choose
  | .args => m.start
  | .step => m.advance

def goBack (m : Stepper) : Stepper :=
  match m.screen with
  | .select => m
  | .args => { m with screen := .select, failure := none }
  | .step => { m with screen := .args }

/-- The next state after a key, and whether the key ends the stepper. -/
def update (m : Stepper) : Key → Stepper × Bool
  | .interrupt => (m, true)
  | .up => (m.moveUp, false)
  | .down => (m.moveDown, false)
  | .enter => (m.confirm, false)
  | .escape => (m.goBack, false)
  | .backspace => (m.eraseLast, false)
  | .resize => (m, false)
  | .text s =>
      if m.screen = .args then (m.typeText s, false)
      else if s = "q" then (m, true)
      else if s = "k" then (m.moveUp, false)
      else if s = "j" then (m.moveDown, false)
      else if m.screen = .step && s = "n" then (m.advance, false)
      else if m.screen = .step && s = "r" then (m.start, false)
      else (m, false)

/-! ## What is shown -/

def selectView (m : Stepper) : String :=
  let lines := Catalog.samples.zipIdx.map fun (s, i) =>
    (if i = m.selected then "> " else "  ") ++ sampleLine s ++ "\n"
  let failure := match m.failureText? with
    | some text => "\nError: " ++ text ++ "\n"
    | none => ""
  title true "Generator Lowering" ++ "\n\nSelect a sample:\n\n" ++ String.join lines ++ failure ++
    "\n↑/↓ select • enter lower • q quit"

def statsLine (m : Stepper) : String :=
  match m.prepared with
  | none => ""
  | some p =>
      " • ".intercalate (p.stats.map fun s =>
        s!"{s.func} {s.fragments} fragments, {s.yields} yields")

def progress (m : Stepper) : String :=
  let head :=
    if m.gen.isSome then
      "yielded: [" ++ ", ".intercalate m.values ++ "]" ++
        (if m.done && m.failure.isNone then "  done" else "")
    else if m.result ≠ "" then "result: " ++ m.result
    else ""
  let failure := match m.failureText? with
    | some text => "\nError: " ++ text
    | none => ""
  let (trace, output) := match m.store with
    | some store => (store.trace.toList, store.output)
    | none => ([], "")
  head ++ failure ++
    (if trace.isEmpty then "" else "\ntrace: " ++ " ".intercalate trace) ++
    (if output = "" then "" else "\noutput: " ++ Text.trim output)

end Stepper

end Resumable.Console
