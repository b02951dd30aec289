import Resumable.Proofs.Discipline
import Resumable.Proofs.Evaluation.Position

/-!
# The course of an evaluation

Which node of an expression a run works at, and which call nodes it has executed.
The course follows the run step by step: it knows the positions of the nodes whose
operands wait on the stack, and while a call is under way it stays where the call
was made. Main statement: the call nodes are executed in the order of the
schedule, each native call comes from the call node executed last, and in a
straight expression both follow the order of the children.
-/

namespace Resumable

open Position

namespace Task

/-- Where operand number `k` of a task stands below the node of the task. -/
def operandAt : Task → Nat → Position
  | .assign _, _ => [1]
  | .storeField .., _ => [0, 0]
  | .storeIndex .., k => [0, k]
  | _, k => [k]

end Task

def Value.isNative : Value → Bool
  | .native .. => true
  | _ => false

namespace Machine

/-- How far a run has come in the expression that it evaluates. -/
structure Course where
  /-- The node at work. -/
  here : Position := []
  /-- The nodes whose operands wait, innermost first. -/
  waiting : List Position := []
  /-- The call nodes executed so far. -/
  called : List Position := []
  /-- For each native call made so far, the call node it originates in. -/
  natives : List Position := []

def callsNative (s : State) : Bool :=
  match s.focus, s.stack with
  | .value v, .operands .call done [] _ :: _ => ((done ++ [v]).headD .null).isNative
  | _, _ => false

namespace Course

/-- A native call that originates in a node, if the next step makes one. -/
def note (c : Course) (s : State) (node : Position) : List Position :=
  bif callsNative s then c.natives ++ [node] else c.natives

def afterTask (c : Course) (s t : State) (task : Task) (first : Value) (node : Position)
    (outer : List Position) : Course :=
  match task, t.focus with
  | .call, _ =>
      { here := node, waiting := outer, called := c.called ++ [node], natives := c.note s node }
  | .logical .., .eval .. => { c with here := node ++ [1], waiting := outer }
  | .conditional .., .eval .. =>
      { c with here := node ++ [if first.truthy then 1 else 2], waiting := outer }
  | .assign _, .eval .. | .incDec .., .eval .. => { c with here := node ++ [0, 0] }
  | _, _ => { c with here := node, waiting := outer }

/-- The course after a step from `s` to `t`, above `base` frames that waited
before the evaluation began. -/
def follow (base : Nat) (c : Course) (s t : State) : Course :=
  -- What stands above the waiting nodes belongs to a call made here.
  if base + c.waiting.length < s.stack.length then { c with natives := c.note s c.here }
  else
    match s.focus, s.stack, c.waiting with
    | .eval .., _, _ =>
        match t.focus, t.stack with
        | .eval .., .operands task _ _ _ :: _ =>
            { c with here := c.here ++ task.operandAt 0, waiting := c.here :: c.waiting }
        | _, _ => c
    | .value _, .operands task done (_ :: _) _ :: _, node :: _ =>
        { c with here := node ++ task.operandAt (done.length + 1) }
    | .value v, .operands task done [] _ :: _, node :: outer =>
        c.afterTask s t task ((done ++ [v]).headD .null) node outer
    | .thrown _, _, node :: outer => { c with here := node, waiting := outer }
    | _, _, _ => c

def isOver (base : Nat) (c : Course) (s : State) : Bool :=
  c.waiting.isEmpty && s.stack.length == base &&
    match s.focus with
    | .value _ | .thrown _ => true
    | _ => false

def run (cx : Context) (base : Nat) : Nat → State → Course → State × Course
  | 0, s, c => (s, c)
  | n + 1, s, c =>
      if c.isOver base s then (s, c)
      else
        match step cx s with
        | .halt .. => (s, c)
        | .next t => run cx base n t (c.follow base s t)

/-- Where the evaluation of an expression stands after at most `n` steps. -/
def ofExpr (cx : Context) (e : Expr) (env : Env) (below : List Waiting) (depth : Nat)
    (store : Store) (n : Nat) : State × Course :=
  run cx below.length n ⟨.eval e env, below, depth, store⟩ {}

end Course

end Machine

namespace Task

def operandCalls (task : Task) : Nat → List Expr → List Position
  | _, [] => []
  | k, x :: xs => x.schedule.map (task.operandAt k ++ ·) ++ operandCalls task (k + 1) xs

def ownCalls : Task → List Position
  | .call => [[]]
  | .logical _ right => right.schedule.map (1 :: ·)
  | .conditional t e => t.schedule.map (1 :: ·) ++ e.schedule.map (2 :: ·)
  | .assign target | .incDec _ target => target.placeSchedule.map (0 :: ·)
  | _ => []

def calls (task : Task) (k : Nat) (rest : List Expr) : List Position :=
  task.operandCalls k rest ++ task.ownCalls

theorem operandCalls_eq_scheduleList {task : Task} (h : ∀ k, task.operandAt k = [k]) (k : Nat)
    (es : List Expr) : task.operandCalls k es = Expr.scheduleList k es := by
  induction es generalizing k with
  | nil => rw [operandCalls, Expr.scheduleList]
  | cons e es ih =>
      rw [operandCalls, Expr.scheduleList, ih, h]
      rfl

/-- The operands from number `k` on and what a task goes on with stand where the
task belongs to `node`. -/
def Serves (task : Task) (e : Expr) (node : Position) (k : Nat) (rest : List Expr) : Prop :=
  (∀ i x, rest[i]? = some x → e.at? (node ++ task.operandAt (k + i)) = some x) ∧
    match task with
    | .logical _ right => e.at? (node ++ [1]) = some right
    | .conditional t f => e.at? (node ++ [1]) = some t ∧ e.at? (node ++ [2]) = some f
    | .assign target | .incDec _ target => e.at? (node ++ [0]) = some target
    | _ => True

end Task

namespace Expr

theorem at?_append (e : Expr) (p q : Position) : e.at? (p ++ q) = (e.at? p).bind (·.at? q) := by
  induction p generalizing e with
  | nil => rw [List.nil_append, at?]; rfl
  | cons i p ih =>
      rw [List.cons_append, at?, at?]
      cases e.children[i]? with
      | none => rfl
      | some c => exact ih c

theorem at?_singleton (e : Expr) (i : Nat) : e.at? [i] = e.children[i]? := by
  rw [at?]
  cases e.children[i]? with
  | none => rfl
  | some c => rw [Option.bind_some, at?]

def operation? : Expr → Option (Task × List Expr)
  | .unary op x _ => some (if op.isIncDec then .incDec op x else .unary op, [x])
  | .binary op x y _ => some (if op.isLogical then (.logical op y, [x]) else (.binary op, [x, y]))
  | .conditional c t e _ => some (.conditional t e, [c])
  | .assign target value => some (.assign target, [value])
  | .call callee args _ => some (.call, callee :: args)
  | .property x name _ => some (.property name, [x])
  | .construct cls args => some (.construct cls, args)
  | _ => none

variable {e x : Expr} {task : Task} {es : List Expr}

theorem endsStmt_of_operation? (h : x.operation? = some (task, es)) : task.endsStmt = false := by
  cases x with
  | unary op x t =>
      cases hop : op.isIncDec <;> simp [operation?, hop] at h <;> obtain ⟨rfl, -⟩ := h <;> rfl
  | binary op x y t =>
      cases hop : op.isLogical <;> simp [operation?, hop] at h <;> obtain ⟨rfl, -⟩ := h <;> rfl
  | conditional | assign | call | property | construct => cases h; rfl
  | _ => cases h

/-- The schedule of a node lists the calls of its operands and then those of its
task. -/
theorem schedule_of_operation? (h : x.operation? = some (task, es)) :
    x.schedule = task.calls 0 es := by
  cases x with
  | unary op x t =>
      cases hop : op.isIncDec <;> simp [operation?, hop] at h <;> obtain ⟨rfl, rfl⟩ := h <;>
        simp [schedule, hop, Task.calls, Task.operandCalls, Task.operandAt, Task.ownCalls]
  | binary op x y t =>
      cases hop : op.isLogical <;> simp [operation?, hop] at h <;> obtain ⟨rfl, rfl⟩ := h <;>
        simp [schedule, Task.calls, Task.operandCalls, Task.operandAt, Task.ownCalls]
  | call callee args t =>
      cases h
      rw [schedule, Task.calls, Task.operandCalls, List.append_assoc,
        Task.operandCalls_eq_scheduleList fun _ => rfl]
      rfl
  | construct cls args =>
      cases h
      rw [schedule, Task.calls, Task.operandCalls_eq_scheduleList fun _ => rfl]
      exact (List.append_nil _).symm
  | conditional | assign | property =>
      cases h
      simp [schedule, Task.calls, Task.operandCalls, Task.operandAt, Task.ownCalls]
  | _ => cases h

/-- The operands of a node are found where its task says. -/
theorem serves_of_operation? (h : x.operation? = some (task, es)) {node : Position}
    (hnode : e.at? node = some x) : task.Serves e node 0 es := by
  have hat (p : Position) : e.at? (node ++ p) = x.at? p := by rw [at?_append, hnode]; rfl
  simp only [Task.Serves, hat, Nat.zero_add]
  cases x with
  | unary op x t =>
      cases hop : op.isIncDec <;> simp [operation?, hop] at h <;> obtain ⟨rfl, rfl⟩ := h <;>
        simp +contextual [List.getElem?_singleton, Task.operandAt, at?, children]
  | binary op x y t =>
      cases hop : op.isLogical <;> simp [operation?, hop] at h <;> obtain ⟨rfl, rfl⟩ := h
      · exact ⟨fun i z hz => (at?_singleton ..).trans hz, trivial⟩
      · simp +contextual [List.getElem?_singleton, Task.operandAt, at?, children]
  | call callee args t | construct cls args =>
      cases h
      exact ⟨fun i z hz => (at?_singleton ..).trans hz, trivial⟩
  | conditional | assign | property =>
      cases h
      simp +contextual [List.getElem?_singleton, Task.operandAt, at?, children]
  | _ => cases h

end Expr

namespace Machine

variable {cx : Context} {e x : Expr} {task : Task} {es : List Expr} {env : Env}
  {stack below : List Waiting} {depth : Nat} {store : Store}

theorem stepEval_of_operation? (h : x.operation? = some (task, es)) :
    stepEval cx x env stack depth store = operands cx task es env stack depth store := by
  cases x with
  | unary op x t => cases h; rfl
  | binary op x y t =>
      cases hop : op.isLogical <;> simp [Expr.operation?, hop] at h <;> obtain ⟨rfl, rfl⟩ := h <;>
        simp [stepEval, hop]
  | conditional | assign | call | property | construct => cases h; rfl
  | _ => cases h

/-- A node without operands has its value at once. -/
theorem stepEval_of_operation?_eq_none (h : x.operation? = none) {t : State}
    (ht : stepEval cx x env stack depth store = .next t) :
    ∃ v store', t = ⟨.value v, stack, depth, store'⟩ := by
  cases x with
  | missing => cases ht
  | literal | receiver =>
      cases ht
      exact ⟨_, _, rfl⟩
  | ref v =>
      simp only [stepEval] at ht
      split at ht
      · cases ht
        exact ⟨_, _, rfl⟩
      · cases ht
  | lambda fn t =>
      simp only [stepEval] at ht
      split at ht
      · cases ht
      · cases ht
        exact ⟨_, _, rfl⟩
  | _ => cases h

/-- A call leaves what waited below it alone until it ends. -/
theorem step_above_call {focus : Focus} {inner rest : List Waiting} {t : State}
    (hlast : ∃ fn, inner.getLast? = some (.call fn))
    (ht : step cx ⟨focus, inner ++ rest, depth, store⟩ = .next t) :
    (∃ inner', (∃ fn, inner'.getLast? = some (.call fn)) ∧ t.stack = inner' ++ rest) ∨
      (t.stack = rest ∧ ((∃ v, t.focus = .value v) ∨ ∃ v, t.focus = .thrown v)) := by
  obtain ⟨fn, hlast⟩ := hlast
  cases inner with
  | nil => cases hlast
  | cons w more =>
      cases more with
      | cons w' more =>
          rw [List.cons_append, step_onto] at ht
          cases hstep : step cx ⟨focus, [w], depth, store⟩ with
          | halt r σ => rw [hstep] at ht; cases ht
          | next u =>
              rw [hstep] at ht
              cases ht
              refine .inl ⟨u.stack ++ (w' :: more), ⟨fn, ?_⟩, (List.append_assoc ..).symm⟩
              rw [List.getLast?_cons_cons] at hlast
              rw [List.getLast?_append, hlast, Option.some_or]
      | nil =>
          cases hlast
          cases hfocus : Focus.starts focus with
          | true =>
              have hsplit := step_onto_of_starts cx (.call fn :: rest) hfocus [] depth store
              rw [List.nil_append] at hsplit
              rw [List.singleton_append, hsplit] at ht
              cases hstep : step cx ⟨focus, [], depth, store⟩ with
              | halt r σ => rw [hstep] at ht; cases ht
              | next u =>
                  rw [hstep] at ht
                  cases ht
                  exact .inl ⟨u.stack ++ [.call fn], ⟨fn, by simp⟩, by simp⟩
          | false =>
              refine .inr ?_
              cases focus with
              | eval | exec => cases hfocus
              | value v =>
                  cases ht
                  exact ⟨rfl, .inl ⟨v, rfl⟩⟩
              | complete c =>
                  cases c with
                  | normal | returned =>
                      cases ht
                      exact ⟨rfl, .inl ⟨_, rfl⟩⟩
                  | broke | continued => cases ht
              | thrown v =>
                  cases ht
                  exact ⟨rfl, .inr ⟨v, rfl⟩⟩

/-! ## What the course keeps -/

/-- Operands of nodes of an expression wait on a stack, and the last list holds
the calls that are left in them. -/
inductive Frames (e : Expr) : List Waiting → List Position → List Position → Prop where
  | nil : Frames e [] [] []
  | cons {task : Task} {done : List Value} {rest : List Expr} {env : Env} {frames : List Waiting}
      {node : Position} {nodes left : List Position} (hexpr : task.endsStmt = false)
      (hserves : task.Serves e node (done.length + 1) rest) (hframes : Frames e frames nodes left) :
      Frames e (.operands task done rest env :: frames) (node :: nodes)
        ((task.calls (done.length + 1) rest).map (node ++ ·) ++ left)

theorem Frames.length_eq {frames : List Waiting} {nodes left : List Position}
    (h : Frames e frames nodes left) : frames.length = nodes.length := by
  induction h with
  | nil => rfl
  | cons _ _ _ ih => rw [List.length_cons, List.length_cons, ih]

/-- The calls made and the calls left are in the order of the schedule, and the
native calls come from the calls made. -/
def Course.Keeps (c : Course) (e : Expr) (left : List Position) : Prop :=
  (c.called ++ left).Sublist e.schedule ∧ Echoes c.natives c.called

theorem Course.Keeps.drop {c : Course} {past left : List Position} (h : c.Keeps e (past ++ left)) :
    c.Keeps e left :=
  ⟨((List.Sublist.refl _).append (List.sublist_append_right _ _)).trans h.1, h.2⟩

inductive Stands (e : Expr) (below : List Waiting) : State → Course → Prop where
  | eval {c : Course} {x : Expr} {env : Env} {frames : List Waiting} {left : List Position}
      {depth : Nat} {store : Store} (hframes : Frames e frames c.waiting left)
      (hplace : e.at? c.here = some x) (hkeeps : c.Keeps e (x.schedule.map (c.here ++ ·) ++ left)) :
      Stands e below ⟨.eval x env, frames ++ below, depth, store⟩ c
  | value {c : Course} {v : Value} {frames : List Waiting} {left : List Position} {depth : Nat}
      {store : Store} (hframes : Frames e frames c.waiting left) (hkeeps : c.Keeps e left) :
      Stands e below ⟨.value v, frames ++ below, depth, store⟩ c
  | thrown {c : Course} {v : Value} {frames : List Waiting} {left : List Position} {depth : Nat}
      {store : Store} (hframes : Frames e frames c.waiting left) (hkeeps : c.Keeps e left) :
      Stands e below ⟨.thrown v, frames ++ below, depth, store⟩ c
  /-- A call made here is under way. -/
  | calling {c : Course} {focus : Focus} {inner frames : List Waiting} {left before : List Position}
      {depth : Nat} {store : Store} (hframes : Frames e frames c.waiting left)
      (hkeeps : c.Keeps e left) (hcalled : c.called = before ++ [c.here])
      (hlast : ∃ fn, inner.getLast? = some (.call fn)) :
      Stands e below ⟨focus, inner ++ (frames ++ below), depth, store⟩ c

namespace Stands

variable {c : Course} {frames : List Waiting} {left : List Position} {s t : State}

/-- Above the waiting operands there is nothing unless a call is under way. -/
theorem follow_of_frames (hframes : Frames e frames c.waiting left) :
    ¬ below.length + c.waiting.length < (frames ++ below).length := by
  have := hframes.length_eq
  simp only [List.length_append]
  omega

theorem operand {w : Waiting} (hframes : Frames e (w :: frames) c.waiting left)
    (hplace : e.at? c.here = some x) (hkeeps : c.Keeps e (x.schedule.map (c.here ++ ·) ++ left)) :
    Stands e below ⟨.eval x env, w :: (frames ++ below), depth, store⟩ c :=
  @Stands.eval e below c x env (w :: frames) left depth store hframes hplace hkeeps

theorem step_eval (hframes : Frames e frames c.waiting left) (hplace : e.at? c.here = some x)
    (hkeeps : c.Keeps e (x.schedule.map (c.here ++ ·) ++ left))
    (ht : stepEval cx x env (frames ++ below) depth store = .next t) :
    Stands e below t (c.follow below.length ⟨.eval x env, frames ++ below, depth, store⟩ t) := by
  rw [Course.follow, if_neg (follow_of_frames hframes)]
  cases hop : x.operation? with
  | none =>
      obtain ⟨v, store', rfl⟩ := stepEval_of_operation?_eq_none hop ht
      exact .value hframes hkeeps.drop
  | some operation =>
      obtain ⟨task, es⟩ := operation
      rw [stepEval_of_operation? hop] at ht
      have hserves := Expr.serves_of_operation? hop hplace
      have hcalls := Expr.schedule_of_operation? hop
      cases es with
      | nil =>
          cases x with
          | construct cls args =>
              cases hop
              cases ht
              exact .value hframes hkeeps.drop
          | unary op y ty => cases hop
          | binary op y z ty => cases hl : op.isLogical <;> simp [Expr.operation?, hl] at hop
          | _ => cases hop
      | cons y ys =>
          cases ht
          refine .operand (.cons (Expr.endsStmt_of_operation? hop)
            ⟨fun i z hz => ?_, hserves.2⟩ hframes)
            (hserves.1 0 y rfl) ?_
          · have := hserves.1 (i + 1) z hz
            rwa [show 0 + (i + 1) = ([] : List Value).length + 1 + i by simp; omega] at this
          · rw [hcalls, Task.calls, Task.operandCalls] at hkeeps
            simpa [Course.Keeps, Task.calls, Function.comp_def] using hkeeps

/-- Storing a value in a place comes to the operands of the place. -/
theorem step_storeIn {target : Expr} {value result : Value} {node : Position}
    (hframes : Frames e frames c.waiting left) (htarget : e.at? (node ++ [0]) = some target)
    (hkeeps : c.Keeps e ((target.placeSchedule.map (0 :: ·)).map (node ++ ·) ++ left))
    (ht : storeIn target value result env (frames ++ below) depth store = .next t) :
    (∃ v store', t = ⟨.value v, frames ++ below, depth, store'⟩) ∨
      ∃ x stack store', t = ⟨.eval x env, stack, depth, store'⟩ ∧
        Stands e below t { c with here := node ++ [0, 0], waiting := node :: c.waiting } := by
  have hat (p : Position) : e.at? (node ++ (0 :: p)) = target.at? p := by
    rw [List.append_cons, Expr.at?_append, htarget]
    rfl
  unfold storeIn at ht
  split at ht
  · split at ht
    · cases ht
      exact .inl ⟨_, _, rfl⟩
    · cases ht
  · next x name ty =>
      cases ht
      refine .inr ⟨x, _, _, rfl, ?_⟩
      refine .operand (.cons rfl ⟨by simp, trivial⟩ hframes) ?_ ?_
      · rw [hat, Expr.at?_singleton]
        rfl
      · simpa [Course.Keeps, Task.calls, Task.operandCalls, Task.ownCalls, Expr.placeSchedule,
          Function.comp_def] using hkeeps
  · next x y ty =>
      cases ht
      refine .inr ⟨x, _, _, rfl, ?_⟩
      refine .operand (.cons rfl ⟨fun i z hz => ?_, trivial⟩ hframes) ?_ ?_
      · obtain ⟨rfl, rfl⟩ : i = 0 ∧ y = z := by simpa [List.getElem?_singleton] using hz
        rw [Task.operandAt, hat, Expr.at?_singleton]
        rfl
      · rw [hat, Expr.at?_singleton]
        rfl
      · simpa [Course.Keeps, Task.calls, Task.operandCalls, Task.operandAt, Task.ownCalls,
          Expr.placeSchedule, Function.comp_def] using hkeeps
  · cases ht

section

variable {done : List Value} {v : Value} {node : Position} {nodes : List Position}

theorem follow_task (hwaiting : c.waiting = node :: nodes) (hframes : Frames e frames nodes left) :
    c.follow below.length ⟨.value v, .operands task done [] env :: (frames ++ below), depth, store⟩ t =
      c.afterTask ⟨.value v, .operands task done [] env :: (frames ++ below), depth, store⟩ t task
        ((done ++ [v]).headD .null) node nodes := by
  have hlength := hframes.length_eq
  rw [Course.follow, if_neg (by rw [hwaiting]; simp; omega)]
  simp only [hwaiting]

theorem follow_operand (hwaiting : c.waiting = node :: nodes) (hframes : Frames e frames nodes left)
    {rest : List Expr} :
    c.follow below.length
      ⟨.value v, .operands task done (x :: rest) env :: (frames ++ below), depth, store⟩ t =
      { c with here := node ++ task.operandAt (done.length + 1) } := by
  have hlength := hframes.length_eq
  rw [Course.follow, if_neg (by rw [hwaiting]; simp; omega)]
  simp only [hwaiting]

/-- A call node is executed once its operands have values. -/
theorem step_call (hframes : Frames e frames nodes left) (hkeeps : c.Keeps e (node :: left))
    (ht : callValue cx ((done ++ [v]).headD .null) (done ++ [v]).tail (frames ++ below) depth store =
      .next t) :
    Stands e below t
      (c.afterTask ⟨.value v, .operands .call done [] env :: (frames ++ below), depth, store⟩ t .call
        ((done ++ [v]).headD .null) node nodes) := by
  have hcalled : ((c.called ++ [node]) ++ left).Sublist e.schedule := by simpa using hkeeps.1
  simp only [Course.afterTask, Course.note, callsNative]
  cases hcallee : (done ++ [v]).headD .null with
  | native tag name kind =>
      have hafter : Course.Keeps ⟨node, nodes, c.called ++ [node], c.natives ++ [node]⟩ e left :=
        ⟨hcalled, .again (.next node hkeeps.2)⟩
      rw [hcallee] at ht
      cases kind with
      | fail => cases ht
      | throw =>
          cases ht
          exact .thrown hframes hafter
      | _ =>
          cases ht
          exact .value hframes hafter
  | closure tag fn env' =>
      rw [hcallee, callValue] at ht
      split at ht
      · cases ht
      · split at ht
        · cases ht
        · next f hf =>
            cases ht
            exact @Stands.calling e below ⟨node, nodes, c.called ++ [node], c.natives⟩ _
              [.block f.body _, .call fn] frames left c.called _ _ hframes
              ⟨hcalled, .next node hkeeps.2⟩ rfl ⟨fn, rfl⟩
  | _ => rw [hcallee] at ht; cases ht

/-- A task that has its operands goes on with another one, or has its value. -/
theorem step_perform (hwaiting : c.waiting = node :: nodes) (hframes : Frames e frames nodes left)
    (hexpr : task.endsStmt = false) (hserves : task.Serves e node (done.length + 1) [])
    (hkeeps : c.Keeps e (task.ownCalls.map (node ++ ·) ++ left))
    (ht : perform cx task (done ++ [v]) env (frames ++ below) depth store = .next t) :
    Stands e below t
      (c.afterTask ⟨.value v, .operands task done [] env :: (frames ++ below), depth, store⟩ t task
        ((done ++ [v]).headD .null) node nodes) := by
  -- The course that is left at the node with its value.
  have hvalue {v' : Value} {store' : Store} :
      Stands e below ⟨.value v', frames ++ below, depth, store'⟩
        { c with here := node, waiting := nodes } := .value hframes hkeeps.drop
  cases task with
  | call => exact step_call hframes (by simpa [Task.ownCalls] using hkeeps) ht
  | logical op right =>
      simp only [perform] at ht
      split at ht
      · cases ht
        simp only [Course.afterTask]
        refine .eval hframes hserves.2 ?_
        simpa [Course.Keeps, Task.ownCalls, Function.comp_def] using hkeeps
      · cases ht
        exact hvalue
  | conditional th el =>
      cases ht
      have hboth : c.Keeps e (th.schedule.map (fun p => node ++ (1 :: p)) ++
          (el.schedule.map (fun p => node ++ (2 :: p)) ++ left)) := by
        simpa [Task.ownCalls, Function.comp_def] using hkeeps
      simp only [Course.afterTask]
      cases htruth : ((done ++ [v]).headD .null).truthy with
      | true =>
          refine .eval hframes hserves.2.1 ?_
          have hleft := (List.Sublist.refl (th.schedule.map fun p => node ++ (1 :: p))).append
            (List.sublist_append_right (el.schedule.map fun p => node ++ (2 :: p)) left)
          have hcalled := ((List.Sublist.refl c.called).append hleft).trans hboth.1
          simpa [Course.Keeps] using And.intro hcalled hboth.2
      | false =>
          refine .eval hframes hserves.2.2 ?_
          simpa [Course.Keeps] using hboth.drop
  | assign target =>
      rcases step_storeIn (c := { c with waiting := nodes }) hframes hserves.2 hkeeps ht with
        ⟨v', store', rfl⟩ | ⟨x, stack, store', rfl, hstands⟩
      · exact hvalue
      · simp only [Course.afterTask, hwaiting]
        exact hstands
  | incDec op target =>
      simp only [perform] at ht
      split at ht
      · rcases step_storeIn (c := { c with waiting := nodes }) hframes hserves.2 hkeeps ht with
          ⟨v', store', rfl⟩ | ⟨x, stack, store', rfl, hstands⟩
        · exact hvalue
        · simp only [Course.afterTask, hwaiting]
          exact hstands
      · cases ht
  | unary | binary | storeField | storeIndex | property | construct =>
      simp only [perform] at ht
      repeat' split at ht
      all_goals cases ht
      all_goals exact hvalue
  | _ => cases hexpr

end

/-- The course keeps to the run. -/
theorem step (h : Stands e below s c) (hover : c.isOver below.length s = false)
    (ht : Machine.step cx s = .next t) : Stands e below t (c.follow below.length s t) := by
  cases h with
  | eval hframes hplace hkeeps => exact step_eval hframes hplace hkeeps ht
  | @value _ v frames left depth store hframes hkeeps =>
      generalize hnodes : c.waiting = nodes at hframes
      cases hframes with
      | nil => simp [Course.isOver, hnodes] at hover
      | @cons task done rest env frames node nodes left hexpr hserves hframes =>
          cases rest with
          | nil =>
              rw [List.cons_append, follow_task hnodes hframes]
              exact step_perform hnodes hframes hexpr hserves (by
                simpa [Task.calls, Task.operandCalls] using hkeeps) ht
          | cons x rest =>
              rw [List.cons_append, follow_operand hnodes hframes]
              cases ht
              have hserves' : task.Serves e node ((done ++ [v]).length + 1) rest := by
                refine ⟨fun i z hz => ?_, hserves.2⟩
                have hplace := hserves.1 (i + 1) z hz
                rwa [show done.length + 1 + (i + 1) = (done ++ [v]).length + 1 + i by simp; omega]
                  at hplace
              refine .operand (by rw [hnodes]; exact .cons hexpr hserves' hframes)
                (hserves.1 0 x rfl) ?_
              simpa [Course.Keeps, Task.calls, Task.operandCalls, Function.comp_def] using hkeeps
  | @thrown _ v frames left depth store hframes hkeeps =>
      generalize hnodes : c.waiting = nodes at hframes
      cases hframes with
      | nil => simp [Course.isOver, hnodes] at hover
      | @cons task done rest env frames node nodes left hexpr hserves hframes =>
          have hlength := hframes.length_eq
          rw [Course.follow, if_neg (by rw [hnodes]; simp; omega)]
          simp only [hnodes]
          cases ht
          exact .thrown hframes hkeeps.drop
  | @calling _ focus inner frames left before depth store hframes hkeeps hcalled hlast =>
      have hinner : 0 < inner.length := by
        obtain ⟨fn, hfn⟩ := hlast
        cases inner with
        | nil => cases hfn
        | cons w more => exact Nat.succ_pos _
      have hlength := hframes.length_eq
      rw [Course.follow, if_pos (by simp; omega)]
      have hkeeps' : Course.Keeps
          { c with
            natives := c.note ⟨focus, inner ++ (frames ++ below), depth, store⟩ c.here } e left := by
        refine ⟨hkeeps.1, ?_⟩
        cases hnative : callsNative ⟨focus, inner ++ (frames ++ below), depth, store⟩ with
        | false => simpa only [Course.note, hnative, cond_false] using hkeeps.2
        | true =>
            simp only [Course.note, hnative, cond_true]
            have hecho := hkeeps.2
            rw [hcalled] at hecho ⊢
            exact .again hecho
      obtain ⟨focus', stack', depth', store'⟩ := t
      rcases step_above_call hlast ht with ⟨inner', hlast', rfl⟩ | ⟨rfl, ⟨v, rfl⟩ | ⟨v, rfl⟩⟩
      · exact .calling hframes hkeeps' hcalled hlast'
      · exact .value hframes hkeeps'
      · exact .thrown hframes hkeeps'

theorem run (cx : Context) (h : Stands e below s c) (n : Nat) :
    Stands e below (Course.run cx below.length n s c).1 (Course.run cx below.length n s c).2 := by
  induction n generalizing s c with
  | zero => exact h
  | succ n ih =>
      rw [Course.run]
      split
      · exact h
      · next hover =>
          split
          · exact h
          · next t ht => exact ih (h.step (Bool.eq_false_iff.2 hover) ht)

/-- The calls made are in the order of the schedule. -/
theorem keeps (h : Stands e below s c) : ∃ left, c.Keeps e left := by
  cases h with
  | eval _ _ hkeeps => exact ⟨_, hkeeps⟩
  | value _ hkeeps | thrown _ hkeeps | calling _ hkeeps _ _ => exact ⟨_, hkeeps⟩

/-- Unless a call is under way, the work at hand is the node of the course. -/
theorem place (h : Stands e below s c) (hfocus : s.focus = .eval x env)
    (hstack : s.stack.length = below.length + c.waiting.length) : e.at? c.here = some x := by
  cases h with
  | eval _ hplace _ =>
      cases hfocus
      exact hplace
  | value | thrown => cases hfocus
  | @calling _ _ inner _ _ _ _ _ hframes _ _ hlast =>
      exfalso
      obtain ⟨fn, hfn⟩ := hlast
      have hlength := hframes.length_eq
      cases inner with
      | nil => cases hfn
      | cons w more =>
          simp only [List.length_append, List.length_cons] at hstack
          omega

end Stands

/-- At every moment of the evaluation of an expression, above whatever waits, the
course is at the node at work; the nodes executed are call nodes, in the order of
the schedule; and each native call originates in the call node executed last. In a
straight expression no call node is executed twice, and at no node a native call
that originates in a later child comes before one that originates in an earlier
child. -/
theorem called_sublist_schedule (cx : Context) (e : Expr) (env : Env) (below : List Waiting)
    (depth : Nat) (store : Store) (n : Nat) {s : State} {c : Course}
    (h : Course.ofExpr cx e env below depth store n = (s, c)) :
    (∀ x env', s.focus = .eval x env' → s.stack.length = below.length + c.waiting.length →
      e.at? c.here = some x) ∧
    (∀ p ∈ c.called, ∃ node, e.at? p = some node ∧ node.isCall = true) ∧
    c.called.Sublist e.schedule ∧ Echoes c.natives c.called ∧
    (e.straight = true → c.called.Nodup ∧ InOrder c.natives) := by
  have hstart : Stands e below ⟨.eval e env, below, depth, store⟩ {} :=
    @Stands.eval e below {} e env [] [] depth store .nil (by rw [Expr.at?]) ⟨by simp, .nil⟩
  have hstands : Stands e below s c := by
    rw [Course.ofExpr] at h
    simpa only [h] using hstart.run cx n
  obtain ⟨left, hkeeps⟩ := hstands.keeps
  have hcalled := (List.sublist_append_left _ _).trans hkeeps.1
  refine ⟨fun x env' => hstands.place, fun p hp => Expr.isCall_of_mem_schedule (hcalled.subset hp),
    hcalled, hkeeps.2, fun hstraight => ?_⟩
  have harranged := (Expr.arranged_schedule hstraight).sublist hcalled
  exact ⟨Arranged.nodup harranged, hkeeps.2.inOrder harranged⟩

/-! ## Places with calls -/

def traced (n : Int64) : Expr :=
  .mkCall (.ref ⟨0, "t", .function .int []⟩) [.int n]

/-- A field of an object that a call helps to choose. -/
def chosenField : Expr :=
  .property (.conditional (traced 1) (.ref ⟨1, "o", .variant⟩) (.ref ⟨1, "o", .variant⟩) .variant)
    "p" .int

def tracedStore : Store :=
  { globals := [(0, .native 0 "t" .trace), (1, .object 0 none)]
    objects := #[[(.text "p", .int 5)]]
    tags := 1 }

def tracedCourse (e : Expr) : Course :=
  (Course.ofExpr ⟨{}, defaultMaxDepth⟩ e [] [] 0 tracedStore 40).2

/-- A call whose arguments make calls, of which a conditional skips one. -/
theorem called_sublist_schedule_nested :
    let e := Expr.mkCall (.ref ⟨0, "t", .function .int []⟩)
      [.mkConditional (traced 1) (traced 2) (traced 3), traced 4]
    e.straight = true ∧ (tracedCourse e).called = [[1, 0], [1, 1], [2], []] ∧
      (tracedCourse e).called.Nodup ∧ InOrder (tracedCourse e).natives := by
  intro e
  have hstraight : e.straight = true := by decide +kernel
  have hcourse := called_sublist_schedule (c := tracedCourse e) ⟨{}, defaultMaxDepth⟩ e [] [] 0
    tracedStore 40 (Prod.eta _).symm
  exact ⟨hstraight, by decide +kernel, hcourse.2.2.2.2 hstraight⟩

/-- An assignment makes the calls in its value before those in its place, which
is the earlier child, and an increment makes the calls in its place twice. -/
theorem places_break_order :
    ¬ InOrder (tracedCourse (.assign chosenField (traced 2))).natives ∧
      ¬ (tracedCourse (.mkUnary .postInc chosenField)).called.Nodup := by
  have hassign : (tracedCourse (.assign chosenField (traced 2))).natives = [[1], [0, 0, 0]] := by
    decide +kernel
  have hincrement : (tracedCourse (.mkUnary .postInc chosenField)).called =
      [[0, 0, 0], [0, 0, 0]] := by
    decide +kernel
  rw [hassign, hincrement]
  refine ⟨fun horder => ?_, by decide⟩
  have hfirst := List.rel_of_pairwise_cons horder (List.mem_singleton.2 rfl)
  exact hfirst ⟨[], 0, 1, [0, 0], [], rfl, rfl, Nat.one_pos⟩

end Machine

end Resumable
