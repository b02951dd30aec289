import Resumable.Proofs.Continuation.Chain
import Resumable.Proofs.Discipline
import Resumable.Proofs.Lockstep.Step

/-!
# Continuations and contexts

A continuation of the target stands for work that waits on the stack of the
source: the operands of the expressions around the one at hand. Here is what
that means for a continuation given by an expression and for one given by a
function and its frames. Calls of continuations put plain frames on top of the
frames that the source has. They hide the values of operands, in variables
drawn late enough not to get in the way of what the continuation itself needs.
-/

namespace Resumable.Continuation

open Machine

/-! ## Variables of continuations -/

/-- A variable that the source knows nothing of has a value, seen from a list of
frames of the target. -/
inductive Sees (P : Pairing) (x : Nat) (v : Value) : Env → Prop where
  | here {j : FrameId} {env : Env} : P.hidden j x v → Sees P x v (j :: env)
  | skip {j : FrameId} {env : Env} : P.plain j → ¬ P.Hides j x → Sees P x v env →
      Sees P x v (j :: env)

/-- The variables of `R` have numbers below `n` and mean the same on both sides. -/
def Clear (S : Sides) (P : Pairing) (R : Nat → Prop) (n : Nat) (env env' : Env) : Prop :=
  ∀ x, R x → x < n ∧ P.Agrees S x env env'

/-- A frame of continuations, which hides variables from `n` on only. -/
structure Veils (P : Pairing) (n : Nat) (j : FrameId) : Prop where
  plain : P.plain j
  hidden : ∀ {x v}, P.hidden j x v → n ≤ x

section

variable {S : Sides} {P Q : Pairing} {n m : Nat} {j : FrameId} {env env' : Env} {R : Nat → Prop}

theorem Veils.weaken (h : Veils P m j) (hle : n ≤ m) : Veils P n j :=
  ⟨h.plain, fun hv => Nat.le_trans hle (h.hidden hv)⟩

theorem Veils.shows (h : Veils P n j) {x : Nat} (hx : x < n) : ¬ P.Hides j x :=
  fun ⟨_, hv⟩ => Nat.not_le.2 hx (h.hidden hv)

theorem Sees.mono (hle : P ≤ Q) {x : Nat} {v : Value} (h : Sees P x v env) : Sees Q x v env := by
  induction h with
  | here hv => exact .here (hle.hidden hv)
  | skip hp hh _ ih => exact .skip (hle.plain hp) (fun hq => hh (hq.of_le hle (.inl hp))) ih

theorem Sees.push (hj : Veils P n j) {x : Nat} {v : Value} (hx : x < n) (h : Sees P x v env) :
    Sees P x v (j :: env) :=
  .skip hj.plain (hj.shows hx) h

theorem Sees.lookup {σ σ' : Store} (hσ : StorePair S P σ σ') {u : Variable} {v : Value}
    (h : Sees P u.id v env) : σ'.lookup env u = .ok v := by
  have hfind : σ'.find? env u = some v := by
    induction h with
    | here hv => simp [Store.find?, Store.frameOf?_cons, hσ.hidden hv]
    | skip hp hh _ ih => simpa [Store.find?, Store.frameOf?_cons, hσ.bare hp hh] using ih
  rw [Store.lookup_eq, hfind]

theorem Clear.mono (hle : P ≤ Q) (h : Clear S P R n env env') : Clear S Q R n env env' :=
  fun x hx => ⟨(h x hx).1, (h x hx).2.mono hle⟩

theorem Clear.push (hj : Veils P n j) (h : Clear S P R n env env') : Clear S P R n env (j :: env') :=
  fun x hx => ⟨(h x hx).1, .plain hj.plain (hj.shows (h x hx).1) (h x hx).2⟩

theorem Clear.weaken (hle : n ≤ m) (h : Clear S P R n env env') : Clear S P R m env env' :=
  fun x hx => ⟨Nat.lt_of_lt_of_le (h x hx).1 hle, (h x hx).2⟩

theorem Clear.view (h : Clear S P R n env env') : View S P R False env env' :=
  ⟨fun x hx => (h x hx).2, False.elim⟩

end

/-! ## What waits for a value -/

inductive Entry where
  | expr (k : Option Expr)
  | func (fn : FuncId)

/-- A continuation seen from frames of the target goes on like the work `ctx`
that waits in the source, on top of `below`. It needs no variables hidden from
`n` on. The continuations given at the outset are the last ones of a chain: a
literal of a function, or a variable of `pin`, which keeps its value. -/
inductive Awaits (S : Sides) (P : Pairing) (pin : Variable → Prop) (below : List Waiting) :
    Nat → Entry → Env → List Waiting → Prop where
  | none (n : Nat) (env : Env) : Awaits S P pin below n (.expr none) env []
  | lambda {n : Nat} {fn : FuncId} (t : Ty) {env : Env} {ctx : List Waiting} :
      Awaits S P pin below n (.func fn) env ctx →
      Awaits S P pin below n (.expr (some (.lambda fn t))) env ctx
  | held {n m : Nat} {s : Variable} {tag : Nat} {fn : FuncId} {base env : Env}
      {ctx : List Waiting} : s.id < n → Sees P s.id (.closure tag fn base) env →
      Awaits S P pin below m (.func fn) base ctx →
      Awaits S P pin below n (.expr (some (.ref s))) env ctx
  | pinned {n : Nat} {v : Variable} {env env' : Env} (c : Value) : pin v → below = [] → v.id < n →
      P.Agrees S v.id env env' →
      Awaits S P pin below n (.expr (some (.ref v))) env' [.operands .call [c] [] env]
  | given {n : Nat} {fn : FuncId} {env base : Env} (tag : Nat) (env₁ : Env) : S.known fn →
      Clear S P (S.free fn) n env base →
      Awaits S P pin below n (.func fn) base [.operands .call [.closure tag fn env] [] env₁]
  | operand {R : Nat → Prop} {n m l : Nat} {task : Task} {done done' : List Value}
      {es : List Expr} {env base : Env} {ps qs : List Variable} {q : Variable} {k : Option Expr}
      {f rest : Expr} {c : FuncId} {ctx : List Waiting} : Clear S P R n env base →
      TaskPair S P R False task task → List.Forall₂ (ValuePair S P) done done' →
      List.Forall₂ (fun p v => Sees P p.id v base) ps done' → (∀ e ∈ es, e.Covered S R False) →
      Operates f task ((ps ++ q :: qs).map .ref) → (∀ v ∈ ps ++ q :: qs, n ≤ v.id ∧ v.id < m) →
      ((ps ++ q :: qs).map Variable.id).Nodup → Row S.target m es qs (deliver k f) rest →
      S.target.code? c = some ⟨"", [q], [], [.ret rest]⟩ → m ≤ l →
      Awaits S P pin below n (.expr k) base ctx →
      Awaits S P pin below l (.func c) base (.operands task done es env :: ctx)
  | choice {R : Nat → Prop} {n m l : Nat} {task : Task} {e x a b : Expr} {yes no : Option Expr}
      {env base : Env} {q : Variable} {locals : List Variable} {prologue : List Stmt}
      {k shared : Option Expr} {c : FuncId} (result : Ty) {ctx : List Waiting} :
      Clear S P R n env base → Chooses e task x yes no → e.Covered S R False →
      Shares k locals prologue shared → (∀ v ∈ q :: locals, n ≤ v.id ∧ v.id < m) →
      ((q :: locals).map Variable.id).Nodup → Way S.target m q shared yes a →
      Way S.target m q shared no b → S.target.code? c =
        some ⟨"", [q], locals, prologue ++ [.ret (.conditional (.ref q) a b result)]⟩ → m ≤ l →
      Awaits S P pin below n (.expr k) base ctx →
      Awaits S P pin below l (.func c) base (.operands task [] [] env :: ctx)

namespace Awaits

variable {S : Sides} {P Q : Pairing} {pin : Variable → Prop} {below ctx : List Waiting} {n m : Nat}
  {entry : Entry} {env : Env}

theorem mono (hle : P ≤ Q) (h : Awaits S P pin below n entry env ctx) :
    Awaits S Q pin below n entry env ctx := by
  induction h with
  | none n env => exact .none n env
  | lambda t _ ih => exact .lambda t ih
  | held hs hsees _ ih => exact .held hs (hsees.mono hle) ih
  | pinned c hpin hbelow hv ha => exact .pinned c hpin hbelow hv (ha.mono hle)
  | given tag env₁ hfn hclear => exact .given tag env₁ hfn (hclear.mono hle)
  | operand hclear htask hdone hsees hes hf hbounds hnodup hrow hcode hml _ ih =>
      exact .operand (hclear.mono hle) (htask.mono hle) (valuesPair_mono hle hdone)
        (hsees.imp fun _ _ h => h.mono hle) hes hf hbounds hnodup hrow hcode hml ih
  | choice result hclear hchooses hcovered hshares hbounds hnodup hyes hno hcode hml _ ih =>
      exact .choice result (hclear.mono hle) hchooses hcovered hshares hbounds hnodup hyes hno hcode
        hml ih

theorem weaken (hle : n ≤ m) (h : Awaits S P pin below n entry env ctx) :
    Awaits S P pin below m entry env ctx := by
  induction h with
  | none n env => exact .none m env
  | lambda t _ ih => exact .lambda t (ih hle)
  | held hs hsees hfunc _ => exact .held (Nat.lt_of_lt_of_le hs hle) hsees hfunc
  | pinned c hpin hbelow hv ha => exact .pinned c hpin hbelow (Nat.lt_of_lt_of_le hv hle) ha
  | given tag env₁ hfn hclear => exact .given tag env₁ hfn (hclear.weaken hle)
  | operand hclear htask hdone hsees hes hf hbounds hnodup hrow hcode hml hk _ =>
      exact .operand hclear htask hdone hsees hes hf hbounds hnodup hrow hcode
        (Nat.le_trans hml hle) hk
  | choice result hclear hchooses hcovered hshares hbounds hnodup hyes hno hcode hml hk _ =>
      exact .choice result hclear hchooses hcovered hshares hbounds hnodup hyes hno hcode
        (Nat.le_trans hml hle) hk

/-- The frame of a later continuation does not get in the way. -/
theorem push {j : FrameId} (h : Awaits S P pin below n entry env ctx) (hj : Veils P n j) :
    Awaits S P pin below n entry (j :: env) ctx := by
  induction h with
  | none n env => exact .none n _
  | lambda t _ ih => exact .lambda t (ih hj)
  | held hs hsees hfunc _ => exact .held hs (hsees.push hj hs) hfunc
  | pinned c hpin hbelow hv ha =>
      exact .pinned c hpin hbelow hv (.plain hj.plain (hj.shows hv) ha)
  | given tag env₁ hfn hclear => exact .given tag env₁ hfn (hclear.push hj)
  | @operand R n m l task done done' es env base ps qs q k f rest c ctx hclear htask hdone hsees
      hes hf hbounds hnodup hrow hcode hml _ ih =>
      have hq := hbounds q (by simp)
      have hn : Veils P n j := hj.weaken (by omega)
      refine .operand (hclear.push hn) htask hdone ?_ hes hf hbounds hnodup hrow hcode hml (ih hn)
      have hps : ∀ p ∈ ps, p.id < l := fun p hp =>
        Nat.lt_of_lt_of_le (hbounds p (List.mem_append_left _ hp)).2 hml
      clear hf hbounds hnodup hdone
      induction hsees with
      | nil => exact .nil
      | cons hp _ ih => exact .cons (hp.push hj (hps _ (.head _))) (ih fun p h => hps p (.tail _ h))
  | @choice R n m l task e x a b yes no env base q locals prologue k shared c result ctx hclear
      hchooses hcovered hshares hbounds hnodup hyes hno hcode hml _ ih =>
      have hq := hbounds q (.head _)
      have hn : Veils P n j := hj.weaken (by omega)
      exact .choice result (hclear.push hn) hchooses hcovered hshares hbounds hnodup hyes hno hcode
        hml (ih hn)

/-- The function of a continuation exists. -/
theorem exists_func (hS : S.Sound) {c : FuncId}
    (h : Awaits S P pin below n (.func c) env ctx) : ∃ f, S.target.func? c = some f := by
  have hcode {code : Code} (h : S.target.code? c = some code) : ∃ f, S.target.func? c = some f := by
    obtain ⟨f, hf, -⟩ := Option.map_eq_some_iff.1 h
    exact ⟨f, hf⟩
  cases h with
  | given _ _ hfn =>
      obtain ⟨f, f', -, hf', -⟩ := hS.funcs hfn
      exact ⟨f', hf'⟩
  | operand _ _ _ _ _ _ _ _ _ h => exact hcode h
  | choice _ _ _ _ _ _ _ _ _ h => exact hcode h

end Awaits

def Waiting.isOperands : Waiting → Bool
  | .operands .. => true
  | _ => false

theorem Awaits.isOperands {S : Sides} {P : Pairing} {pin : Variable → Prop}
    {below ctx : List Waiting} {n : Nat} {entry : Entry} {env : Env}
    (h : Awaits S P pin below n entry env ctx) : ∀ w ∈ ctx, Waiting.isOperands w = true := by
  induction h with
  | none => simp
  | lambda _ _ ih => exact ih
  | held _ _ _ ih => exact ih
  | pinned | given => simp [Waiting.isOperands]
  | operand _ _ _ _ _ _ _ _ _ _ _ _ ih => exact List.forall_mem_cons.2 ⟨rfl, ih⟩
  | choice _ _ _ _ _ _ _ _ _ _ _ _ ih => exact List.forall_mem_cons.2 ⟨rfl, ih⟩

/-- Work waits for the value that a continuation gets. -/
theorem Awaits.exists_cons {S : Sides} {P : Pairing} {pin : Variable → Prop}
    {below ctx : List Waiting} {n : Nat} {c : FuncId} {env : Env}
    (h : Awaits S P pin below n (.func c) env ctx) :
    ∃ task done es e more, ctx = .operands task done es e :: more := by
  cases h <;> exact ⟨_, _, _, _, _, rfl⟩

/-! ## States -/

/-- Two stacks correspond. In the target a call of a continuation may wait to
return its value, and what a continuation stands for may wait in the source. -/
inductive StackRel (S : Sides) (pin : Variable → Prop) (P : Pairing) :
    List Waiting → List Waiting → Prop where
  | nil : StackRel S pin P [] []
  | cons {w w' : Waiting} {stack stack' : List Waiting} : WaitingPair S P w w' →
      StackRel S pin P stack stack' → StackRel S pin P (w :: stack) (w' :: stack')
  | tail (c : FuncId) (env : Env) {stack stack' : List Waiting} : wantsValue stack = true →
      StackRel S pin P stack stack' →
      StackRel S pin P stack (.operands .ret [] [] env :: .block [] env :: .call c :: stack')
  | kont (tag : Nat) (env : Env) {n : Nat} {c : FuncId} {base : Env}
      {ctx stack stack' : List Waiting} : Awaits S P pin stack n (.func c) base ctx →
      wantsValue stack = true → StackRel S pin P stack stack' →
      StackRel S pin P (ctx ++ stack) (.operands .call [.closure tag c base] [] env :: stack')

inductive Related (S : Sides) (pin : Variable → Prop) (P : Pairing) : State → State → Prop where
  /-- Both sides do the same. -/
  | run {focus focus' : Focus} {stack stack' : List Waiting} {depth depth' : Nat} {σ σ' : Store} :
      StorePair S P σ σ' → FocusPair S P focus focus' → StackRel S pin P stack stack' →
      Related S pin P ⟨focus, stack, depth, σ⟩ ⟨focus', stack', depth', σ'⟩
  /-- An expression has been rebuilt in the target. -/
  | convert {R : Nat → Prop} {n : Nat} {e e' : Expr} {k : Option Expr} {env env' : Env}
      {ctx stack stack' : List Waiting} {depth depth' : Nat} {σ σ' : Store} : StorePair S P σ σ' →
      Clear S P R n env env' → e.Covered S R False → Passes S.target n e k e' →
      Awaits S P pin stack n (.expr k) env' ctx → wantsValue stack = true →
      StackRel S pin P stack stack' →
      Related S pin P ⟨.eval e env, ctx ++ stack, depth, σ⟩ ⟨.eval e' env', stack', depth', σ'⟩
  /-- A thrown value has left the continuations of the target. -/
  | unwind {v v' : Value} {ctx stack stack' : List Waiting} {depth depth' : Nat} {σ σ' : Store} :
      StorePair S P σ σ' → ValuePair S P v v' → (∀ w ∈ ctx, Waiting.isOperands w = true) →
      StackRel S pin P stack stack' →
      Related S pin P ⟨.thrown v, ctx ++ stack, depth, σ⟩ ⟨.thrown v', stack', depth', σ'⟩

namespace StackRel

variable {S : Sides} {pin : Variable → Prop} {P Q : Pairing} {stack stack' : List Waiting}

theorem mono (hle : P ≤ Q) (h : StackRel S pin P stack stack') : StackRel S pin Q stack stack' := by
  induction h with
  | nil => exact .nil
  | cons hw _ ih => exact .cons (hw.mono hle) ih
  | tail c env hwants _ ih => exact .tail c env hwants ih
  | kont tag env hawaits hwants _ ih => exact .kont tag env (hawaits.mono hle) hwants ih

theorem append (h : StackRel S pin P stack stack') {tops tops' : List Waiting}
    (htops : StackPair S P tops tops') : StackRel S pin P (tops ++ stack) (tops' ++ stack') := by
  induction htops with
  | nil => exact h
  | cons hw _ ih => exact .cons hw ih

end StackRel

end Resumable.Continuation
