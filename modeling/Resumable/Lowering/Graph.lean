import Resumable.Failure

/-!
# The graph of jump code

Jump code falls into blocks: the entry, and one for each label. A block ends at
its first terminator; what follows up to the next label can never run and is
dropped. The graph has an edge for every label that a kept statement can jump
to.
-/

namespace Resumable

structure Block where
  /-- The label that opens the block; `""` for the entry. -/
  label : String
  stmts : List Stmt
  /-- How many statements can never run. -/
  dropped : Nat

/-- The blocks of jump code, the entry first. -/
structure Graph where
  entry : Block
  labelled : List Block

def entryLabel : String := ""

namespace Block

def keep : List Stmt → List Stmt
  | [] => []
  | s :: rest => if s.isTerminator then [s] else s :: keep rest

def ofStmts (label : String) (stmts : List Stmt) : Block :=
  let kept := keep stmts
  ⟨label, kept, stmts.length - kept.length⟩

/-- Whether control cannot run off the end of the block. -/
def terminated (b : Block) : Bool :=
  match b.stmts.getLast? with
  | some s => s.isTerminator
  | none => false

/-- The labels the block can jump to, each once, in order. -/
def succs (b : Block) : List String :=
  (b.stmts.flatMap Stmt.targets).eraseDups

end Block

namespace Graph

/-- The statements before the first label, and for each label those up to the
next one. -/
def segments : List Stmt → List Stmt × List (String × List Stmt)
  | [] => ([], [])
  | .label l :: rest =>
      let (body, others) := segments rest
      ([], (l, body) :: others)
  | s :: rest =>
      let (body, others) := segments rest
      (s :: body, others)

/-- The first label that is empty or repeats an earlier one, or the first
structured statement, whichever comes first. -/
def fault? : Nat → List String → List Stmt → Option Failure
  | _, _, [] => none
  | i, seen, .label l :: rest =>
      if seen.contains l then
        some (.logicFlaw .eliminate ("duplicate label " ++ Text.quote l))
      else fault? (i + 1) (l :: seen) rest
  | i, seen, s :: rest =>
      if s.isStructured then
        some (.caused
          { phase := .eliminate, kind := .logicFlaw, path := [s!"stmt[{i}]"]
            detail := "statement survived lowering" }
          (.plain ("unexpected " ++ s.nodeName)))
      else fault? (i + 1) seen rest

def blocks (g : Graph) : List Block := g.entry :: g.labelled

def labels (g : Graph) : List String := g.labelled.map (·.label)

def block? (g : Graph) (label : String) : Option Block :=
  g.blocks.find? fun b => b.label = label

def blockName (label : String) : String :=
  if label = entryLabel then "entry" else label

def danglingJump? (g : Graph) : Option Failure :=
  g.blocks.findSome? fun b =>
    (b.succs.find? fun l => (g.block? l).isNone).map fun l =>
      .report
        { phase := .eliminate, kind := .logicFlaw, subject := some l
          detail := "jump from " ++ blockName b.label ++ " to undefined label " ++ Text.quote l }

/-- The graph of jump code. Structured statements, labels that are empty or
repeated and jumps to labels that do not exist are refused. -/
def build (stmts : List Stmt) : Except Failure Graph :=
  match fault? 0 [entryLabel] stmts with
  | some f => .error f
  | none =>
      let (entry, others) := segments stmts
      let g : Graph :=
        ⟨.ofStmts entryLabel entry, others.map fun (l, body) => .ofStmts l body⟩
      match g.danglingJump? with
      | some f => .error f
      | none => .ok g

def edges (g : Graph) (label : String) : List String :=
  match g.block? label with
  | some b => b.succs
  | none => []

def addAll (found : List String) (more : List String) : List String :=
  more.foldl (fun found l => if found.contains l then found else found ++ [l]) found

/-- Follows edges from all labels found so far until no new one appears. -/
def close (edges : String → List String) : Nat → List String → List String
  | 0, found => found
  | fuel + 1, found =>
      let more := addAll found (found.flatMap edges)
      if more.length = found.length then found else close edges fuel more

/-- Every label that a path of edges leads to from the sources, the sources
included. Each round but the last finds a new target of an edge. -/
def reachable (g : Graph) (sources : List String) : List String :=
  close g.edges ((g.blocks.flatMap Block.succs).length + 1) (addAll [] sources)

/-- The labels that no path leads to from the entry, in order. -/
def unreachable (g : Graph) : List String :=
  let live := g.reachable [entryLabel]
  g.labels.filter fun l => !live.contains l

end Graph

end Resumable
