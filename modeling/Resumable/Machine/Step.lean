import Resumable.Machine.State
import Resumable.Machine.Operation

/-!
# Steps of the abstract machine

One step looks at the focus and the top of the stack only. A failure ends the
run at once, whatever waits; a thrown value passes up the stack to the nearest
handler.
-/

namespace Resumable.Machine

structure Context where
  program : Program
  /-- How many calls may be under way at once. -/
  maxDepth : Nat

def defaultMaxDepth : Nat := 10000

variable (cx : Context)

def fail (store : Store) (f : Failure) : Step :=
  .halt (.error f) store

def give (stack : List Waiting) (depth : Nat) (store : Store) (v : Value) : Step :=
  .next ⟨.value v, stack, depth, store⟩

def complete (stack : List Waiting) (depth : Nat) (store : Store) (c : Completion) : Step :=
  .next ⟨.complete c, stack, depth, store⟩

def evaluate (e : Expr) (env : Env) (stack : List Waiting) (depth : Nat)
    (store : Store) : Step :=
  .next ⟨.eval e env, stack, depth, store⟩

def enterBlock (body : List Stmt) (env : Env) (stack : List Waiting) (depth : Nat)
    (store : Store) : Step :=
  .next ⟨.complete .normal, .block body env :: stack, depth, store⟩

/-- The variables of a new activation: the parameters with the arguments, null
where there are too few, and the locals with null. -/
def activation (f : Func) (args : List Value) : Bindings :=
  let params := (f.params.zip (args ++ List.replicate f.params.length .null)).foldl
    (fun bs (v, x) => Bindings.bind bs v x) []
  f.locals.foldl (fun bs v => Bindings.bind bs v .null) params

def callNative (name : String) (kind : NativeKind) (args : List Value)
    (stack : List Waiting) (depth : Nat) (store : Store) : Step :=
  match kind with
  | .trace =>
      let note := name ++ "(" ++ ", ".intercalate (args.map (·.format cx.program)) ++ ")"
      let store := { store with trace := store.trace.push note }
      let count := Int64.ofNat store.trace.size
      give stack depth store (.int count)
  | .identity => give stack depth store (args.headD .null)
  | .throw => .next ⟨.thrown (args.headD .null), stack, depth, store⟩
  | .fail => fail store (.plain ("native " ++ name ++ " failed"))
  | .count => give stack depth store (.int (Int64.ofNat args.length))
  | .record =>
      give stack depth { store with recorded := store.recorded.push (args.headD .null) } .null

def callValue (callee : Value) (args : List Value) (stack : List Waiting) (depth : Nat)
    (store : Store) : Step :=
  match callee with
  | .native _ name kind => callNative cx name kind args stack depth store
  | .closure _ fn env =>
      if cx.maxDepth ≤ depth then
        fail store (.eval .invalidInput s!"call depth exceeds {cx.maxDepth}")
      else
        match cx.program.func? fn with
        | none => fail store (.notFound .eval "function" (toString fn))
        | some f =>
            let (frame, store) := store.newFrame (activation f args)
            enterBlock f.body (frame :: env) (.call fn :: stack) (depth + 1) store
  | v => fail store (.eval .typeError (v.format cx.program ++ " is not a function"))

/-- Stores `value` in what `target` denotes and goes on with `result`. -/
def storeIn (target : Expr) (value result : Value) (env : Env) (stack : List Waiting)
    (depth : Nat) (store : Store) : Step :=
  match target with
  | .ref v =>
      if store.declared env v then give stack depth (store.assign env v value) result
      else
        fail store (.eval .notFound ("assignment to undeclared variable " ++ v.name))
  | .property x name _ =>
      evaluate x env (.operands (.storeField name value result) [] [] env :: stack) depth store
  | .binary .index x y _ =>
      evaluate x env (.operands (.storeIndex value result) [] [y] env :: stack) depth store
  | e => fail store (.eval .typeError ("invalid assignment target " ++ e.nodeName))

def binary (op : BinaryOp) (x y : Value) (store : Store) : Except Failure Value :=
  match op with
  | .eq => .ok (.bool (x.equal y))
  | .ne => .ok (.bool !(x.equal y))
  | .lt | .le | .gt | .ge => Operation.compare cx.program op x y
  | .index =>
      match x with
      | .object ref _ => .ok (Fields.get (store.fields ref) (store.key cx.program y))
      | _ => .error (.eval .typeError ("cannot index " ++ x.format cx.program))
  | .member =>
      match y with
      | .object ref _ => .ok (.bool (Fields.has (store.fields ref) (store.key cx.program x)))
      | _ => .error (.eval .typeError ("cannot use 'in' on " ++ y.format cx.program))
  | _ => Operation.arithmetic cx.program op x y

def enterLoop (l : Loop) (env : Env) (stack : List Waiting) (depth : Nat)
    (store : Store) : Step :=
  if l.cond.isMissing then enterBlock l.body env (.loop l env :: stack) depth store
  else evaluate l.cond env (.operands (.loopTest l) [] [] env :: stack) depth store

/-- Runs the statements after a mark of a switch, further marks skipped. -/
def enterSwitch (label : String) (rest : List Stmt) (env : Env) (stack : List Waiting)
    (depth : Nat) (store : Store) : Step :=
  enterBlock (rest.filter fun s => !s.isCaseMark) env (.switch label :: stack) depth store

/-- Looks for the next case of a switch. Without a further case the last
default seen decides. -/
def scanCases (label : String) (subject : Value) (env : Env) (stack : List Waiting)
    (depth : Nat) (store : Store) : List Stmt → Option (List Stmt) → Step
  | [], none => complete stack depth store .normal
  | [], some rest => enterSwitch label rest env stack depth store
  | .caseMark x :: rest, fallback =>
      evaluate x env (.operands (.caseTest label subject rest fallback) [] [] env :: stack)
        depth store
  | .defaultMark :: rest, _ => scanCases label subject env stack depth store rest (some rest)
  | _ :: rest, fallback => scanCases label subject env stack depth store rest fallback

def newFields (cls : Option ClassId) : Fields :=
  match cls.bind cx.program.types.class? with
  | some c => c.fields.foldl (fun fs f => Fields.set fs (.text f.name) .null) []
  | none => []

def perform (task : Task) (vs : List Value) (env : Env) (stack : List Waiting)
    (depth : Nat) (store : Store) : Step :=
  let first := vs.headD .null
  let second := vs.getD 1 .null
  let finish (r : Except Failure Value) : Step :=
    match r with
    | .ok v => give stack depth store v
    | .error f => fail store f
  let shown (v : Value) := v.format cx.program
  match task with
  | .unary op => finish (Operation.unary cx.program op first)
  | .binary op => finish (binary cx op first second store)
  | .logical op right =>
      if first.truthy = (op = .and) then evaluate right env stack depth store
      else give stack depth store first
  | .conditional t e => evaluate (if first.truthy then t else e) env stack depth store
  | .assign target => storeIn target first first env stack depth store
  | .incDec op target =>
      match Operation.arithmetic cx.program .add first
          (.int (if op.isDecrement then -1 else 1)) with
      | .ok updated =>
          storeIn target updated (if op.isPostfix then first else updated) env stack depth store
      | .error f => fail store f
  | .storeField name value result =>
      match first with
      | .object ref _ =>
          let set (fs : Fields) := fs.set (.text name) value
          give stack depth (store.modifyFields ref set) result
      | v => fail store (.eval .typeError ("cannot set " ++ name ++ " of " ++ shown v))
  | .storeIndex value result =>
      match first with
      | .object ref _ =>
          let name := store.key cx.program second
          give stack depth (store.modifyFields ref fun fs => Fields.set fs name value) result
      | v => fail store (.eval .typeError ("cannot index " ++ shown v))
  | .call => callValue cx first vs.tail stack depth store
  | .property name =>
      match first with
      | .object ref _ => give stack depth store (Fields.get (store.fields ref) (.text name))
      | v => fail store (.eval .typeError ("cannot read " ++ name ++ " of " ++ shown v))
  | .construct cls =>
      let (ref, store) := store.newObject (newFields cx cls)
      give stack depth store (.object ref cls)
  | .discard => complete stack depth store .normal
  | .ret => complete stack depth store (.returned first)
  | .throw => .next ⟨.thrown first, stack, depth, store⟩
  | .assert message =>
      if first.truthy then complete stack depth store .normal
      else fail store
        (.eval .invalidInput (if message = "" then "assertion failure" else message))
  | .log =>
      let line := " ".intercalate (vs.map (·.display cx.program))
      complete stack depth (store.logLine line) .normal
  | .deleteField name =>
      match first with
      | .object ref _ =>
          let erase (fs : Fields) := fs.erase (.text name)
          complete stack depth (store.modifyFields ref erase) .normal
      | v => fail store (.eval .typeError ("cannot delete from " ++ shown v))
  | .deleteIndex =>
      match second with
      | .object ref _ =>
          let name := store.key cx.program first
          complete stack depth (store.modifyFields ref fun fs => Fields.erase fs name) .normal
      | v => fail store (.eval .typeError ("cannot delete from " ++ shown v))
  | .branch t e => enterBlock (if first.truthy then t else e) env stack depth store
  | .loopTest l =>
      if first.truthy then enterBlock l.body env (.loop l env :: stack) depth store
      else complete stack depth store .normal
  | .loopAgain l => enterLoop l env stack depth store
  | .switchOn label body => scanCases label first env stack depth store body none
  | .caseTest label subject rest fallback =>
      if subject.equal first then enterSwitch label rest env stack depth store
      else scanCases label subject env stack depth store rest fallback

/-- Evaluates operands from left to right and then performs the task. -/
def operands (task : Task) (es : List Expr) (env : Env) (stack : List Waiting) (depth : Nat)
    (store : Store) : Step :=
  match es with
  | [] => perform cx task [] env stack depth store
  | e :: rest => evaluate e env (.operands task [] rest env :: stack) depth store

def stepEval (e : Expr) (env : Env) (stack : List Waiting) (depth : Nat)
    (store : Store) : Step :=
  match e with
  | .missing => fail store (.logicFlaw .eval "unexpected expression <nil>")
  | .literal l _ => give stack depth store (.ofLiteral l)
  | .ref v =>
      match store.lookup env v with
      | .ok x => give stack depth store x
      | .error f => fail store f
  | .receiver _ => give stack depth store .null
  | .lambda fn _ =>
      match cx.program.func? fn with
      | none => fail store (.notFound .eval "function" (toString fn))
      | some _ =>
          let (tag, store) := store.newTag
          give stack depth store (.closure tag fn env)
  | .unary op x _ =>
      operands cx (if op.isIncDec then .incDec op x else .unary op) [x] env stack depth store
  | .binary op x y _ =>
      if op.isLogical then operands cx (.logical op y) [x] env stack depth store
      else operands cx (.binary op) [x, y] env stack depth store
  | .conditional c t e _ => operands cx (.conditional t e) [c] env stack depth store
  | .assign target value => operands cx (.assign target) [value] env stack depth store
  | .call callee args _ => operands cx .call (callee :: args) env stack depth store
  | .property x name _ => operands cx (.property name) [x] env stack depth store
  | .construct cls args => operands cx (.construct cls) args env stack depth store

/-- A step on a `delete` statement. -/
def stepDelete (x : Expr) (env : Env) (stack : List Waiting) (depth : Nat)
    (store : Store) : Step :=
  match x with
  | .property x name _ => operands cx (.deleteField name) [x] env stack depth store
  | .binary op x y _ =>
      if op = .index then operands cx .deleteIndex [y, x] env stack depth store
      else fail store (.eval .typeError ("cannot delete " ++ op.text ++ " expression"))
  | e => fail store (.eval .typeError ("cannot delete " ++ e.nodeName))

def stepSimple (s : Simple) (env : Env) (stack : List Waiting) (depth : Nat)
    (store : Store) : Step :=
  match s with
  | .expr x => operands cx .discard [x] env stack depth store
  | .ret x =>
      if x.isMissing then complete stack depth store (.returned .null)
      else operands cx .ret [x] env stack depth store
  | .throw x => operands cx .throw [x] env stack depth store
  | .delete x => stepDelete cx x env stack depth store
  | .assert x message => operands cx (.assert message) [x] env stack depth store
  | .log args => operands cx .log args env stack depth store
  | .debugger => complete stack depth store .normal
  | .super _ args => operands cx .discard args env stack depth store
  | .yield _ =>
      fail store (.eval .unsupported "yield in a function that was not lowered")

def stepExec (s : Stmt) (env : Env) (stack : List Waiting) (depth : Nat)
    (store : Store) : Step :=
  match s with
  | .simple s _ => stepSimple cx s env stack depth store
  | .breakTo l => complete stack depth store (.broke l)
  | .continueTo l => complete stack depth store (.continued l)
  | .ifElse c t e => operands cx (.branch t e) [c] env stack depth store
  | .whileLoop c body l => enterLoop ⟨l, c, .missing, body⟩ env stack depth store
  | .doWhile c body l =>
      let loop : Loop := ⟨l, c, .missing, body⟩
      enterBlock body env (.loop loop env :: stack) depth store
  | .forLoop init c post body l =>
      let loop : Loop := ⟨l, c, post, body⟩
      if init.isMissing then enterLoop loop env stack depth store
      else operands cx (.loopAgain loop) [init] env stack depth store
  | .switch x body l => operands cx (.switchOn l body) [x] env stack depth store
  | .tryCatch body catches => enterBlock body env (.tryCatch catches env :: stack) depth store
  | .forIn .. => fail store (.eval .unsupported "for-in")
  | .label _ | .goto _ | .condGoto .. | .dispatch .. =>
      fail store (.logicFlaw .eval
        ("pass-internal statement " ++ s.nodeName ++ " survived elimination"))
  | .caseMark _ | .defaultMark | .catchClause _ =>
      fail store (.logicFlaw .eval (s.nodeName ++ " outside its enclosing statement"))
  | .missing => fail store (.logicFlaw .eval ("unexpected statement " ++ s.nodeName))

def stepValue (v : Value) (stack : List Waiting) (depth : Nat) (store : Store) : Step :=
  match stack with
  | [] => .halt (.ok v) store
  | .operands task done rest env :: stack =>
      match rest with
      | [] => perform cx task (done ++ [v]) env stack depth store
      | e :: rest => evaluate e env (.operands task (done ++ [v]) rest env :: stack) depth store
  | _ :: stack => give stack depth store v

/-- Whether a `break` or `continue` with label `used` is meant for a construct
with label `own`. -/
def targets (used own : String) : Bool :=
  used = "" || used = own

def nextRound (l : Loop) (env : Env) (stack : List Waiting) (depth : Nat)
    (store : Store) : Step :=
  if l.post.isMissing then enterLoop l env stack depth store
  else evaluate l.post env (.operands (.loopAgain l) [] [] env :: stack) depth store

/-- Delivers the end of a statement to the work that waits for it. -/
def stepComplete (c : Completion) (stack : List Waiting) (depth : Nat) (store : Store) : Step :=
  match stack with
  | [] => .halt (.ok .null) store
  | .block rest env :: stack =>
      match c, rest with
      | .normal, s :: rest => .next ⟨.exec s env, .block rest env :: stack, depth, store⟩
      | _, _ => complete stack depth store c
  | .loop l env :: stack =>
      match c with
      | .normal => nextRound l env stack depth store
      | .continued label =>
          if targets label l.label then nextRound l env stack depth store
          else complete stack depth store c
      | .broke label =>
          complete stack depth store (if targets label l.label then .normal else c)
      | .returned _ => complete stack depth store c
  | .switch own :: stack =>
      match c with
      | .broke label => complete stack depth store (if targets label own then .normal else c)
      | _ => complete stack depth store c
  | .call fn :: stack =>
      match c with
      | .normal => give stack (depth - 1) store .null
      | .returned v => give stack (depth - 1) store v
      | _ =>
          fail store (.logicFlaw .eval ("break or continue escaped " ++ cx.program.nameOf fn))
  | _ :: stack => complete stack depth store c

/-- Passes a thrown value to a handler, or past work that has none. -/
def stepThrown (v : Value) (stack : List Waiting) (depth : Nat) (store : Store) : Step :=
  match stack with
  | [] => .halt (.error (.thrown v)) store
  | .tryCatch (handler :: _) env :: stack =>
      let bound : Bindings := match handler.var with
        | some x => [(x.id, v)]
        | none => []
      let (frame, store) := store.newFrame bound
      enterBlock handler.body (frame :: env) stack depth store
  | .call _ :: stack => .next ⟨.thrown v, stack, depth - 1, store⟩
  | _ :: stack => .next ⟨.thrown v, stack, depth, store⟩

def step : State → Step
  | ⟨focus, stack, depth, store⟩ =>
      match focus with
      | .eval e env => stepEval cx e env stack depth store
      | .exec s env => stepExec cx s env stack depth store
      | .value v => stepValue cx v stack depth store
      | .complete c => stepComplete cx c stack depth store
      | .thrown v => stepThrown v stack depth store

/-- Runs at most `fuel` steps; nothing if the run is not over by then. -/
def run : Nat → State → Option (Except Failure Value × Store)
  | 0, _ => none
  | fuel + 1, s =>
      match step cx s with
      | .halt result store => some (result, store)
      | .next s => run fuel s

end Resumable.Machine
