import Mathlib.Data.List.Basic
import Resumable.Lowering.Continuation
import Resumable.Proofs.Tree.Contents

/-!
# How a conversion treats an expression

A conversion refuses an expression, hands it on as it is, evaluates its operands
one after the other before the operation itself, or makes a choice between two
ways on. What holds of every conversion is shown for these four kinds.
-/

namespace Resumable

namespace Expr

def isLocal : Expr → Bool
  | .ref _ => true
  | _ => false

end Expr

namespace Continuation

/-! ## Kinds of expressions -/

/-- Whether a node takes a method off its object. -/
def isMethodRead : Expr → Bool
  | .property _ _ t => t.isMethod
  | _ => false

/-- Whether the conversion refuses a node: it builds an object, it writes
something else than a local variable, it calls a method, or it takes a method off
its object. -/
def isRefused : Expr → Bool
  | .construct .. => true
  | .unary op x _ => op.isIncDec && !x.isLocal
  | .assign target _ => !target.isLocal
  | .call callee _ _ => isMethodRead callee
  | .property x name t => isMethodRead (.property x name t)
  | _ => false

theorem isSome_calledMethod? (callee : Expr) :
    (calledMethod? callee).isSome = isMethodRead callee := by
  cases callee with
  | property x name t =>
      rw [calledMethod?, isMethodRead]
      cases t.isMethod <;> rfl
  | _ => rfl

def refusal : Expr → Failure
  | .construct .. => .unsupported .cps "object construction inside a transformed expression"
  | .unary .. => .unsupported .cps "increment or decrement of a non-local operand"
  | .assign target _ =>
      .unsupported .cps ("assignment to " ++ describeTarget target)
  | .call callee _ _ => .unsupported .cps ("calling method " ++ (calledMethod? callee).getD "")
  | .property _ name _ => .logicFlaw .cps ("method " ++ name ++ " referenced without a call")
  | _ => .logicFlaw .cps "unexpected expression <nil>"

inductive Whole : Expr → Prop where
  | literal (l : Literal) (t : Ty) : Whole (.literal l t)
  | ref (v : Variable) : Whole (.ref v)
  | receiver (t : Ty) : Whole (.receiver t)
  | lambda (fn : FuncId) (t : Ty) : Whole (.lambda fn t)
  | incDec {op : UnaryOp} (v : Variable) (t : Ty) : op.isIncDec = true →
      Whole (.unary op (.ref v) t)

/-- An expression that performs a task on the values of all its operands. -/
inductive Operates : Expr → Task → List Expr → Prop where
  | unary {op : UnaryOp} (x : Expr) (t : Ty) : op.isIncDec = false →
      Operates (.unary op x t) (.unary op) [x]
  | binary {op : BinaryOp} (x y : Expr) (t : Ty) : op.isLogical = false →
      Operates (.binary op x y t) (.binary op) [x, y]
  | assign (v : Variable) (x : Expr) : Operates (.assign (.ref v) x) (.assign (.ref v)) [x]
  | call (callee : Expr) (args : List Expr) (t : Ty) :
      Operates (.call callee args t) .call (callee :: args)
  | property (x : Expr) (name : String) (t : Ty) :
      Operates (.property x name t) (.property name) [x]

/-- An expression that tests its first operand and goes on with one of two ways,
the first if the test succeeds. A way that is no expression gives the value
tested. -/
inductive Chooses : Expr → Task → Expr → Option Expr → Option Expr → Prop where
  | or (x y : Expr) (t : Ty) : Chooses (.binary .or x y t) (.logical .or y) x none (some y)
  | and (x y : Expr) (t : Ty) : Chooses (.binary .and x y t) (.logical .and y) x (some y) none
  | conditional (c yes no : Expr) (t : Ty) :
      Chooses (.conditional c yes no t) (.conditional yes no) c (some yes) (some no)

def handed (k : Option Expr) : List FuncId :=
  (k.map Expr.literals).getD []

def rebuilt : Expr → List Variable → Expr
  | .unary op _ t, [q] => .unary op (.ref q) t
  | .binary op _ _ t, [q, r] => .binary op (.ref q) (.ref r) t
  | .assign target _, [q] => .assign target (.ref q)
  | .call _ _ t, q :: qs => .call (.ref q) (qs.map .ref) t
  | .property _ name t, [q] => .property (.ref q) name t
  | e, _ => e

theorem Whole.isMissing {e : Expr} (h : Whole e) : e.isMissing = false := by
  cases h <;> rfl

theorem Whole.isPlaceless {e : Expr} (h : Whole e) : e.isPlaceless = true := by
  cases h <;> rfl

section

variable {e : Expr} {task : Task} {es : List Expr}

namespace Operates

theorem isMissing (h : Operates e task es) : e.isMissing = false := by
  cases h <;> rfl

theorem exists_cons (h : Operates e task es) : ∃ x rest, es = x :: rest := by
  cases h <;> exact ⟨_, _, rfl⟩

theorem mem_children (h : Operates e task es) : es ⊆ e.children := by
  cases h <;> simp [Expr.children]

theorem literals_eq (h : Operates e task es) : e.literals = es.flatMap Expr.literals := by
  cases h <;> simp

theorem vars_subset (h : Operates e task es) : es.flatMap Expr.vars ⊆ e.vars := by
  cases h <;> simp

theorem rebuilt {qs : List Variable} (h : Operates e task es) (hlength : qs.length = es.length) :
    Operates (rebuilt e qs) task (qs.map .ref) ∧ (Continuation.rebuilt e qs).type = e.type ∧
      (Continuation.rebuilt e qs).vars ⊆ qs ++ e.vars := by
  cases h with
  | unary x t hop =>
      obtain ⟨q, rfl⟩ := List.length_eq_one_iff.1 hlength
      exact ⟨.unary _ t hop, rfl, by simp [Continuation.rebuilt]⟩
  | binary x y t hop =>
      obtain ⟨q, r, rfl⟩ := List.length_eq_two.1 hlength
      exact ⟨.binary _ _ t hop, rfl, by simp [Continuation.rebuilt]⟩
  | assign v x =>
      obtain ⟨q, rfl⟩ := List.length_eq_one_iff.1 hlength
      exact ⟨.assign v _, rfl, by simp [Continuation.rebuilt]⟩
  | call callee args t =>
      cases qs with
      | nil => cases hlength
      | cons q qs =>
          have hrefs : (qs.map Expr.ref).flatMap Expr.vars = qs := by simp [List.flatMap_map]
          exact ⟨.call .., rfl, by simp [Continuation.rebuilt, hrefs]⟩
  | property x name t =>
      obtain ⟨q, rfl⟩ := List.length_eq_one_iff.1 hlength
      exact ⟨.property _ name t, rfl, by simp [Continuation.rebuilt]⟩

theorem literals_rebuilt {qs : List Variable} (h : Operates e task es)
    (hlength : qs.length = es.length) : (Continuation.rebuilt e qs).literals = [] := by
  rw [(h.rebuilt hlength).1.literals_eq]
  simp [List.flatMap_map]

end Operates

namespace Chooses

variable {x : Expr} {yes no : Option Expr}

theorem mem_children (h : Chooses e task x yes no) :
    x ∈ e.children ∧ (∀ y ∈ yes, y ∈ e.children) ∧ ∀ y ∈ no, y ∈ e.children := by
  cases h <;> simp [Expr.children]

theorem literals_eq (h : Chooses e task x yes no) :
    e.literals = x.literals ++ (handed yes ++ handed no) := by
  cases h <;> simp [handed]

theorem vars_subset (h : Chooses e task x yes no) {y : Expr} (hy : y ∈ e.children) :
    y.vars ⊆ e.vars := by
  cases h <;> simp only [Expr.children, List.mem_cons, List.not_mem_nil, or_false] at hy <;>
    rcases hy with rfl | rfl | rfl <;> simp

end Chooses

end

/-! ## The conversion by kinds -/

def convertWay (owner : FuncId) (q : Variable) (shared : Option Expr) : Option Expr → Lowering Expr
  | none => return deliver shared (.ref q)
  | some y => convert owner y shared

def convertWays (owner : FuncId) (yes no : Option Expr) (id : FuncId) (q : Variable)
    (shared : Option Expr) : Lowering Expr := do
  let a ← convertWay owner q shared yes
  let b ← convertWay owner q shared no
  let result ← resultType id
  return .conditional (.ref q) a b result

def convertChoice (owner : FuncId) (c : Expr) (k : Option Expr) (result : Ty)
    (ways : FuncId → Variable → Option Expr → Lowering Expr) : Lowering Expr := do
  let p ← Lowering.freshVariable c.type
  let id ← begin owner p result
  let (prologue, shared) ← share id k
  let choice ← ways id p shared
  finish id (prologue ++ [.ret choice])
  let f ← Lowering.lambda id
  convert owner c (some f)

inductive Treated (owner : FuncId) (e : Expr) : Prop where
  | refused : isRefused e = true ∨ e = .missing →
      (∀ k, convert owner e k = throw (refusal e)) → Treated owner e
  | whole : Whole e → (∀ k, convert owner e k = pure (deliver k e)) → Treated owner e
  | operates {task : Task} {es : List Expr} : Operates e task es → isRefused e = false →
      (∀ k, convert owner e k = do
        let qs ← parameters es
        convertArgs owner es qs (deliver k (rebuilt e qs))) → Treated owner e
  | chooses {task : Task} {x : Expr} {yes no : Option Expr} : Chooses e task x yes no →
      (∀ k, convert owner e k =
        convertChoice owner x k (resultOf k e.type) (convertWays owner yes no)) → Treated owner e

attribute [local simp] convert

theorem treated (owner : FuncId) (e : Expr) : Treated owner e := by
  cases e with
  | literal l t => exact .whole (.literal l t) fun k => by simp only [convert]
  | ref v => exact .whole (.ref v) fun k => by simp only [convert]
  | receiver t => exact .whole (.receiver t) fun k => by simp only [convert]
  | lambda fn t => exact .whole (.lambda fn t) fun k => by simp only [convert]
  | unary op x t =>
      cases hop : op.isIncDec with
      | false =>
          refine .operates (.unary x t hop) (by simp [isRefused, hop]) fun k => ?_
          simp [parameters, convertArgs, rebuilt, hop]
      | true =>
          cases x with
          | ref v => exact .whole (.incDec v t hop) fun k => by simp [hop]
          | _ =>
              refine .refused (.inl (by simp [isRefused, hop, Expr.isLocal])) fun k => ?_
              simp only [convert, hop, if_true, refusal]
  | binary op x y t =>
      cases hop : op.isLogical with
      | false =>
          refine .operates (.binary x y t hop) rfl fun k => ?_
          simp [parameters, convertArgs, rebuilt, hop]
      | true =>
          cases op with
          | or =>
              refine .chooses (.or x y t) fun k => ?_
              simp [convertChoice, convertWays, convertWay, hop, Expr.type]
          | and =>
              refine .chooses (.and x y t) fun k => ?_
              simp [convertChoice, convertWays, convertWay, hop, Expr.type]
          | _ => cases hop
  | conditional c yes no t =>
      refine .chooses (.conditional c yes no t) fun k => ?_
      simp [convertChoice, convertWays, convertWay, Expr.type]
  | assign target value =>
      cases target with
      | ref v =>
          refine .operates (.assign v value) rfl fun k => ?_
          simp [parameters, convertArgs, rebuilt]
      | _ => exact .refused (.inl rfl) fun k => by simp [refusal, Failure.unsupported]
  | call callee args t =>
      have hmethod := isSome_calledMethod? callee
      cases hname : calledMethod? callee with
      | some name =>
          refine .refused (.inl (by simpa [isRefused, hname] using hmethod.symm)) fun k => ?_
          simp [hname, refusal]
      | none =>
          have hplain : isRefused (.call callee args t) = false := by
            simpa [isRefused, hname] using hmethod.symm
          refine .operates (.call callee args t) hplain fun k => ?_
          simp [hname, parameters, convertArgs, rebuilt]
  | property x name t =>
      cases ht : t.isMethod with
      | true => exact .refused (.inl ht) fun k => by simp [ht, refusal]
      | false =>
          refine .operates (.property x name t) ht fun k => ?_
          simp [ht, parameters, convertArgs, rebuilt]
  | construct cls args => exact .refused (.inl rfl) fun k => by simp [refusal]
  | missing => exact .refused (.inr rfl) fun k => by simp [refusal]

end Continuation

end Resumable
