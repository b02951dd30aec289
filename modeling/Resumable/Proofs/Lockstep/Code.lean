import Resumable.Proofs.Pairing.Operation

/-!
# Corresponding code

When code of two programs does the same step by step. Expressions are equal, or
one of the pairs that the two sides are known to differ in; statements have the
same shape. What the code may look up is bounded by `R`, and `T` says whether
it stands under paired frames, which function values made there may need.
-/

namespace Resumable

def Expr.NodeCovered (S : Sides) (R : Nat → Prop) (T : Prop) : Expr → Prop
  | .ref v => R v.id
  | .lambda fn _ => S.known fn → (∀ x, S.free fn x → R x) ∧ (S.loose fn ∨ T)
  | _ => True

/-- An expression reads variables of `R` only, and the functions made in it do. -/
def Expr.Covered (S : Sides) (R : Nat → Prop) (T : Prop) (e : Expr) : Prop :=
  ∀ n ∈ e.nodes, n.NodeCovered S R T

def ExprPair (S : Sides) (R : Nat → Prop) (T : Prop) (e e' : Expr) : Prop :=
  e.Covered S R T ∧ (e = e' ∨ S.slot e e')

/-- Two simple statements correspond. A target of `delete` is taken apart, not
evaluated, so it is equal. -/
inductive SimplePair (S : Sides) (R : Nat → Prop) (T : Prop) : Simple → Simple → Prop where
  | expr {x x' : Expr} : ExprPair S R T x x' → SimplePair S R T (.expr x) (.expr x')
  | ret {x x' : Expr} : ExprPair S R T x x' → SimplePair S R T (.ret x) (.ret x')
  | yield {x x' : Expr} : ExprPair S R T x x' → SimplePair S R T (.yield x) (.yield x')
  | delete {x : Expr} : x.Covered S R T → SimplePair S R T (.delete x) (.delete x)
  | throw {x x' : Expr} : ExprPair S R T x x' → SimplePair S R T (.throw x) (.throw x')
  | assert {x x' : Expr} (message : String) : ExprPair S R T x x' →
      SimplePair S R T (.assert x message) (.assert x' message)
  | log {args args' : List Expr} : List.Forall₂ (ExprPair S R T) args args' →
      SimplePair S R T (.log args) (.log args')
  | debugger : SimplePair S R T .debugger .debugger
  | super {cls cls' : Option ClassId} {args args' : List Expr} :
      List.Forall₂ (ExprPair S R T) args args' →
      SimplePair S R T (.super cls args) (.super cls' args')

mutual

/-- Two statements correspond. Statements that no machine runs correspond by
their kind. -/
inductive StmtPair (S : Sides) : (Nat → Prop) → Prop → Stmt → Stmt → Prop where
  | missing {R T} : StmtPair S R T .missing .missing
  | simple {R T} {s s' : Simple} (share share' : Option Nat) : SimplePair S R T s s' →
      StmtPair S R T (.simple s share) (.simple s' share')
  | breakTo {R T} (l : String) : StmtPair S R T (.breakTo l) (.breakTo l)
  | continueTo {R T} (l : String) : StmtPair S R T (.continueTo l) (.continueTo l)
  | ifElse {R T} {c c' : Expr} {t t' e e' : List Stmt} : ExprPair S R T c c' →
      StmtsPair S R T t t' → StmtsPair S R T e e' → StmtPair S R T (.ifElse c t e) (.ifElse c' t' e')
  | whileLoop {R T} {c c' : Expr} {body body' : List Stmt} (l : String) : ExprPair S R T c c' →
      StmtsPair S R T body body' → StmtPair S R T (.whileLoop c body l) (.whileLoop c' body' l)
  | doWhile {R T} {c c' : Expr} {body body' : List Stmt} (l : String) : ExprPair S R T c c' →
      StmtsPair S R T body body' → StmtPair S R T (.doWhile c body l) (.doWhile c' body' l)
  | forLoop {R T} {i i' c c' p p' : Expr} {body body' : List Stmt} (l : String) :
      ExprPair S R T i i' → ExprPair S R T c c' → ExprPair S R T p p' →
      StmtsPair S R T body body' → StmtPair S R T (.forLoop i c p body l) (.forLoop i' c' p' body' l)
  | forIn {R T} (k k' : Option Variable) (x x' : Expr) (body body' : List Stmt) (l l' : String) :
      StmtPair S R T (.forIn k x body l) (.forIn k' x' body' l')
  | switch {R T} {x x' : Expr} {body body' : List Stmt} (l : String) : ExprPair S R T x x' →
      StmtsPair S R T body body' → StmtPair S R T (.switch x body l) (.switch x' body' l)
  | caseMark {R T} {x x' : Expr} : ExprPair S R T x x' →
      StmtPair S R T (.caseMark x) (.caseMark x')
  | defaultMark {R T} : StmtPair S R T .defaultMark .defaultMark
  | tryCatch {R T} {body body' : List Stmt} {cs cs' : List Catch} : StmtsPair S R T body body' →
      CatchesPair S R T cs cs' → StmtPair S R T (.tryCatch body cs) (.tryCatch body' cs')
  | catchClause {R T} (c c' : Catch) : StmtPair S R T (.catchClause c) (.catchClause c')
  | label {R T} (l l' : String) : StmtPair S R T (.label l) (.label l')
  | goto {R T} (l l' : String) : StmtPair S R T (.goto l) (.goto l')
  | condGoto {R T} (c c' : Expr) (t t' e e' : String) :
      StmtPair S R T (.condGoto c t e) (.condGoto c' t' e')
  | dispatch {R T} (x x' : Expr) (arms arms' : List Arm) :
      StmtPair S R T (.dispatch x arms) (.dispatch x' arms')

inductive StmtsPair (S : Sides) : (Nat → Prop) → Prop → List Stmt → List Stmt → Prop where
  | nil {R T} : StmtsPair S R T [] []
  | cons {R T} {s s' : Stmt} {rest rest' : List Stmt} : StmtPair S R T s s' →
      StmtsPair S R T rest rest' → StmtsPair S R T (s :: rest) (s' :: rest')

/-- Handlers correspond one by one. A handler runs in a frame of its own, which
has its variable. -/
inductive CatchesPair (S : Sides) : (Nat → Prop) → Prop → List Catch → List Catch → Prop where
  | nil {R T} : CatchesPair S R T [] []
  | cons {R T} {var : Option Variable} {body body' : List Stmt} {cs cs' : List Catch} :
      StmtsPair S (fun x => R x ∨ ∃ v, var = some v ∧ v.id = x) True body body' →
      CatchesPair S R T cs cs' → CatchesPair S R T (.mk var body :: cs) (.mk var body' :: cs')

end

structure LoopPair (S : Sides) (R : Nat → Prop) (T : Prop) (l l' : Loop) : Prop where
  label : l.label = l'.label
  cond : ExprPair S R T l.cond l'.cond
  post : ExprPair S R T l.post l'.post
  body : StmtsPair S R T l.body l'.body

/-- What code on either side sees: the variables of `R` mean the same, and under
`T` the innermost frames are paired. -/
structure View (S : Sides) (P : Pairing) (R : Nat → Prop) (T : Prop) (env env' : Env) : Prop where
  agrees : ∀ x, R x → P.Agrees S x env env'
  tight : T → P.Tight env env'

inductive TaskPair (S : Sides) (P : Pairing) (R : Nat → Prop) (T : Prop) : Task → Task → Prop where
  | unary (op : UnaryOp) : TaskPair S P R T (.unary op) (.unary op)
  | binary (op : BinaryOp) : TaskPair S P R T (.binary op) (.binary op)
  | logical (op : BinaryOp) {e e' : Expr} : ExprPair S R T e e' →
      TaskPair S P R T (.logical op e) (.logical op e')
  | conditional {t t' e e' : Expr} : ExprPair S R T t t' → ExprPair S R T e e' →
      TaskPair S P R T (.conditional t e) (.conditional t' e')
  | assign {target : Expr} : target.Covered S R T →
      TaskPair S P R T (.assign target) (.assign target)
  | incDec (op : UnaryOp) {target : Expr} : target.Covered S R T →
      TaskPair S P R T (.incDec op target) (.incDec op target)
  | storeField (name : String) {v v' r r' : Value} : ValuePair S P v v' → ValuePair S P r r' →
      TaskPair S P R T (.storeField name v r) (.storeField name v' r')
  | storeIndex {v v' r r' : Value} : ValuePair S P v v' → ValuePair S P r r' →
      TaskPair S P R T (.storeIndex v r) (.storeIndex v' r')
  | call : TaskPair S P R T .call .call
  | property (name : String) : TaskPair S P R T (.property name) (.property name)
  | construct (cls : Option ClassId) : TaskPair S P R T (.construct cls) (.construct cls)
  | discard : TaskPair S P R T .discard .discard
  | ret : TaskPair S P R T .ret .ret
  | throw : TaskPair S P R T .throw .throw
  | assert (message : String) : TaskPair S P R T (.assert message) (.assert message)
  | log : TaskPair S P R T .log .log
  | deleteField (name : String) : TaskPair S P R T (.deleteField name) (.deleteField name)
  | deleteIndex : TaskPair S P R T .deleteIndex .deleteIndex
  | branch {t t' e e' : List Stmt} : StmtsPair S R T t t' → StmtsPair S R T e e' →
      TaskPair S P R T (.branch t e) (.branch t' e')
  | loopTest {l l' : Loop} : LoopPair S R T l l' → TaskPair S P R T (.loopTest l) (.loopTest l')
  | loopAgain {l l' : Loop} : LoopPair S R T l l' →
      TaskPair S P R T (.loopAgain l) (.loopAgain l')
  | switchOn (label : String) {body body' : List Stmt} : StmtsPair S R T body body' →
      TaskPair S P R T (.switchOn label body) (.switchOn label body')
  | caseTest (label : String) {v v' : Value} {rest rest' : List Stmt}
      {fallback fallback' : Option (List Stmt)} : ValuePair S P v v' →
      StmtsPair S R T rest rest' → Option.Rel (StmtsPair S R T) fallback fallback' →
      TaskPair S P R T (.caseTest label v rest fallback) (.caseTest label v' rest' fallback')

inductive WaitingPair (S : Sides) (P : Pairing) : Waiting → Waiting → Prop where
  | operands {R : Nat → Prop} {T : Prop} {env env' : Env} {task task' : Task}
      {done done' : List Value} {rest rest' : List Expr} : View S P R T env env' →
      TaskPair S P R T task task' → List.Forall₂ (ValuePair S P) done done' →
      List.Forall₂ (ExprPair S R T) rest rest' →
      WaitingPair S P (.operands task done rest env) (.operands task' done' rest' env')
  | block {R : Nat → Prop} {T : Prop} {env env' : Env} {rest rest' : List Stmt} :
      View S P R T env env' → StmtsPair S R T rest rest' →
      WaitingPair S P (.block rest env) (.block rest' env')
  | loop {R : Nat → Prop} {T : Prop} {env env' : Env} {l l' : Loop} : View S P R T env env' →
      LoopPair S R T l l' → WaitingPair S P (.loop l env) (.loop l' env')
  | switch (label : String) : WaitingPair S P (.switch label) (.switch label)
  | tryCatch {R : Nat → Prop} {T : Prop} {env env' : Env} {cs cs' : List Catch} :
      View S P R T env env' → CatchesPair S R T cs cs' →
      WaitingPair S P (.tryCatch cs env) (.tryCatch cs' env')
  | call {fn : FuncId} : S.source.nameOf fn = S.target.nameOf fn → ¬ S.special fn →
      WaitingPair S P (.call fn) (.call fn)

inductive CompletionPair (S : Sides) (P : Pairing) : Completion → Completion → Prop where
  | normal : CompletionPair S P .normal .normal
  | broke (l : String) : CompletionPair S P (.broke l) (.broke l)
  | continued (l : String) : CompletionPair S P (.continued l) (.continued l)
  | returned {v v' : Value} : ValuePair S P v v' → CompletionPair S P (.returned v) (.returned v')

/-- Two pieces of work at hand correspond. -/
inductive FocusPair (S : Sides) (P : Pairing) : Focus → Focus → Prop where
  | eval {R : Nat → Prop} {T : Prop} {env env' : Env} {e e' : Expr} : View S P R T env env' →
      ExprPair S R T e e' → FocusPair S P (.eval e env) (.eval e' env')
  | exec {R : Nat → Prop} {T : Prop} {env env' : Env} {s s' : Stmt} : View S P R T env env' →
      StmtPair S R T s s' → FocusPair S P (.exec s env) (.exec s' env')
  | value {v v' : Value} : ValuePair S P v v' → FocusPair S P (.value v) (.value v')
  | complete {c c' : Completion} : CompletionPair S P c c' →
      FocusPair S P (.complete c) (.complete c')
  | thrown {v v' : Value} : ValuePair S P v v' → FocusPair S P (.thrown v) (.thrown v')

abbrev StackPair (S : Sides) (P : Pairing) : List Waiting → List Waiting → Prop :=
  List.Forall₂ (WaitingPair S P)

/-- Two outcomes of a step correspond, under a pairing that may have grown. How
many calls are under way does not matter. -/
inductive StepPair (S : Sides) (P : Pairing) : Step → Step → Prop where
  | next {Q : Pairing} {focus focus' : Focus} {stack stack' : List Waiting} {depth depth' : Nat}
      {σ σ' : Store} : P ≤ Q → StorePair S Q σ σ' → FocusPair S Q focus focus' →
      StackPair S Q stack stack' →
      StepPair S P (.next ⟨focus, stack, depth, σ⟩) (.next ⟨focus', stack', depth', σ'⟩)
  | halt {Q : Pairing} {r r' : Except Failure Value} {σ σ' : Store} : P ≤ Q →
      StorePair S Q σ σ' → ResultPair S Q r r' → StepPair S P (.halt r σ) (.halt r' σ')

def Func.vars (f : Func) : List Nat :=
  (f.params ++ f.locals).map (·.id)

def Sides.Reads (S : Sides) (fn : FuncId) (f : Func) (x : Nat) : Prop :=
  S.free fn x ∨ x ∈ f.vars

/-- The two sides correspond: known functions that are not special have
corresponding bodies. -/
structure Sides.Sound (S : Sides) : Prop extends S.Shows where
  body : ∀ {fn}, S.known fn → ¬ S.special fn → ∃ f f', S.source.func? fn = some f ∧
    S.target.func? fn = some f' ∧ f.params = f'.params ∧ f.locals = f'.locals ∧
    StmtsPair S (S.Reads fn f) True f.body f'.body
  slot : ∀ {e e'}, S.slot e e' → e.isMissing = false ∧ e'.isMissing = false

/-! ## Growth -/

section Mono

variable {S : Sides} {P Q : Pairing}

theorem View.mono (h : P ≤ Q) {R : Nat → Prop} {T : Prop} {env env' : Env}
    (hv : View S P R T env env') : View S Q R T env env' where
  agrees x hx := (hv.agrees x hx).mono h
  tight ht := (hv.tight ht).mono h

theorem TaskPair.mono (h : P ≤ Q) {R : Nat → Prop} {T : Prop} {t t' : Task}
    (ht : TaskPair S P R T t t') : TaskPair S Q R T t t' := by
  cases ht with
  | storeField name hv hr => exact .storeField name (hv.mono h) (hr.mono h)
  | storeIndex hv hr => exact .storeIndex (hv.mono h) (hr.mono h)
  | caseTest label hv hrest hfallback => exact .caseTest label (hv.mono h) hrest hfallback
  | _ => constructor <;> assumption

theorem WaitingPair.mono (h : P ≤ Q) {w w' : Waiting} (hw : WaitingPair S P w w') :
    WaitingPair S Q w w' := by
  cases hw with
  | operands hv ht hdone hrest =>
      exact .operands (hv.mono h) (ht.mono h) (valuesPair_mono h hdone) hrest
  | block hv hs => exact .block (hv.mono h) hs
  | loop hv hl => exact .loop (hv.mono h) hl
  | switch label => exact .switch label
  | tryCatch hv hc => exact .tryCatch (hv.mono h) hc
  | call hname hspecial => exact .call hname hspecial

theorem StackPair.mono (h : P ≤ Q) {stack stack' : List Waiting}
    (hs : StackPair S P stack stack') : StackPair S Q stack stack' :=
  hs.imp fun _ _ hw => hw.mono h

end Mono

end Resumable
