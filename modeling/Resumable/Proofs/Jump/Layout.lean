import Resumable.Proofs.Jump.Machine
import Resumable.Proofs.Lockstep.Step
import Resumable.Lowering.Fragment

/-!
# Jump code in fragments

How states of the jump machine correspond to states of a machine that runs the
same code in fragments. The activation of the function has a frame on both
sides; the one of the target also has the label variables, each with its
fragment. A jump is a call of a fragment there, and the calls of earlier jumps
wait for its end only to return what it returns.
-/

namespace Resumable

open Machine

structure Layout where
  id : FuncId
  code : List Stmt
  vars : LabelVars
  fragment : String → FuncId
  /-- The variables below this number are those of the source. -/
  bound : Nat

section

variable (S : Sides) (L : Layout)

abbrev Layout.Reads : Nat → Prop := (· < L.bound)

def Layout.Has (l : String) : Prop :=
  ∃ v, L.vars.lookup l = some v

inductive ArmsTurn : List Stmt → List Stmt → Prop where
  | nil : ArmsTurn [] []
  | case {x : Expr} {l : String} {rest rest' : List Stmt} : x.Covered S L.Reads False → L.Has l →
      ArmsTurn rest rest' → ArmsTurn (.caseMark x :: .goto l :: rest)
        (.caseMark x :: Elimination.tailCall L.vars l :: rest')
  | default {l : String} {rest rest' : List Stmt} : L.Has l → ArmsTurn rest rest' →
      ArmsTurn (.defaultMark :: .goto l :: rest)
        (.defaultMark :: Elimination.tailCall L.vars l :: rest')

mutual

/-- Code, and what stands in a fragment for its statements up to the end of the
block. -/
inductive Turns : List Stmt → List Stmt → Prop where
  | nil : Turns [] []
  | head {s s' : Stmt} {rest rest' : List Stmt} : TurnsAt s rest s' rest' →
      Turns (s :: rest) (s' :: rest')

inductive TurnsAt : Stmt → List Stmt → Stmt → List Stmt → Prop where
  | ret {x : Expr} (share share' : Option Nat) (rest rest' : List Stmt) :
      x.Covered S L.Reads False →
      TurnsAt (.simple (.ret x) share) rest (.simple (.ret x) share') rest'
  | throw {x : Expr} (share share' : Option Nat) (rest rest' : List Stmt) :
      x.Covered S L.Reads False →
      TurnsAt (.simple (.throw x) share) rest (.simple (.throw x) share') rest'
  | goto {l : String} (rest rest' : List Stmt) : L.Has l →
      TurnsAt (.goto l) rest (Elimination.tailCall L.vars l) rest'
  | condGoto {c : Expr} {t e : String} (rest rest' : List Stmt) : c.Covered S L.Reads False →
      L.Has t → L.Has e → TurnsAt (.condGoto c t e) rest
        (.ifElse c [Elimination.tailCall L.vars t] [Elimination.tailCall L.vars e]) rest'
  | simple {s : Simple} (share share' : Option Nat) {rest rest' : List Stmt} :
      s.isTerminator = false → SimplePair S L.Reads False s s → Turns rest rest' →
      TurnsAt (.simple s share) rest (.simple s share') rest'
  | dispatch {x : Expr} {arms : List Arm} {body' rest rest' : List Stmt} :
      x.Covered S L.Reads False → ArmsTurn S L (arms.flatMap Arm.stmts) body' → Turns rest rest' →
      TurnsAt (.dispatch x arms) rest (.switch x body' "") rest'
  | missing {rest rest' : List Stmt} : Turns rest rest' → TurnsAt .missing rest .missing rest'

end

/-- The frames of an activation on both sides. The frame of the target has the
label variables, which hold the fragments. -/
inductive Root (P : Pairing) : Env → Env → Prop where
  | mk {i j : FrameId} {env env' : Env} : P.frame i j → (∀ x, L.Reads x → ¬ P.Hides j x) →
      (∀ x, L.Reads x → P.Agrees S x env env') →
      (∀ l v, L.vars.lookup l = some v →
        ∃ tag, P.hidden j v.id (.closure tag (L.fragment l) (j :: env'))) →
      Root P (i :: env) (j :: env')

/-- The frames of an activation, in the target those of a fragment or of the
function itself. -/
inductive Rooted (P : Pairing) : Env → Env → Prop where
  | body {env env' : Env} : Root S L P env env' → Rooted P env env'
  | fragment {j : FrameId} {env env' : Env} : Root S L P env env' → P.plain j →
      (∀ x, ¬ P.Hides j x) → Rooted P env (j :: env')

def Waiting.isInert : Waiting → Bool
  | .block .. | .switch _ => true
  | _ => false

def Waiting.passesThrown : Waiting → Bool
  | .operands .. | .block .. | .switch _ => true
  | _ => false

theorem Waiting.passesThrown_of_isInert {w : Waiting} (h : w.isInert = true) :
    w.passesThrown = true := by
  cases w <;> first | rfl | cases h

/-- The calls of fragments that return what the innermost one returns. -/
inductive Pending (below : List Waiting) : List Waiting → Prop where
  | base (fn : FuncId) : Pending below (.call fn :: below)
  | call (fn : FuncId) (env : Env) {dead rest : List Waiting} : (∀ w ∈ dead, w.isInert = true) →
      Pending below rest → Pending below (.call fn :: .operands .ret [] [] env :: (dead ++ rest))

/-- Whether a task of a simple statement leaves the next statement to run. -/
def Task.isPlain : Task → Bool
  | .discard | .assert _ | .log | .deleteField _ | .deleteIndex => true
  | _ => false

inductive StartsJump : List Stmt → List Stmt → Prop where
  | mk {l : String} (rest rest' : List Stmt) : L.Has l →
      StartsJump (.goto l :: rest) (Elimination.tailCall L.vars l :: rest')

/-- What waits above the rest of a block in the activation. -/
inductive Tops (P : Pairing) (env env' : Env) :
    List Waiting → List Stmt → List Waiting → List Stmt → Prop where
  | simple {task : Task} {done done' : List Value} {es : List Expr} {rest rest' : List Stmt} :
      task.isPlain = true → List.Forall₂ (ValuePair S P) done done' →
      (∀ e ∈ es, e.Covered S L.Reads False) → Turns S L rest rest' →
      Tops P env env' [.operands task done es env] rest [.operands task done' es env'] rest'
  | ret (rest rest' : List Stmt) :
      Tops P env env' [.operands .ret [] [] env] rest [.operands .ret [] [] env'] rest'
  | throw (rest rest' : List Stmt) :
      Tops P env env' [.operands .throw [] [] env] rest [.operands .throw [] [] env'] rest'
  | branch {t t' e e' : List Stmt} (rest rest' : List Stmt) : StartsJump L t t' →
      StartsJump L e e' →
      Tops P env env' [.operands (.branch t e) [] [] env] rest
        [.operands (.branch t' e') [] [] env'] rest'
  | dispatch {body body' rest rest' : List Stmt} : ArmsTurn S L body body' →
      Turns S L rest rest' →
      Tops P env env' [.operands (.switchOn "" body) [] [] env] rest
        [.operands (.switchOn "" body') [] [] env'] rest'
  | arm {v v' : Value} {l : String} {more more' rest rest' : List Stmt}
      {fallback fallback' : Option (List Stmt)} : ValuePair S P v v' → L.Has l →
      ArmsTurn S L more more' → Option.Rel (StartsJump L) fallback fallback' →
      Turns S L rest rest' →
      Tops P env env' [.operands (.caseTest "" v (.goto l :: more) fallback) [] [] env] rest
        [.operands (.caseTest "" v' (Elimination.tailCall L.vars l :: more') fallback') [] [] env']
        rest'

inductive StackRel (P : Pairing) : List Waiting → List Waiting → Prop where
  | nil : StackRel P [] []
  | cons {w w' : Waiting} {stack stack' : List Waiting} : WaitingPair S P w w' →
      StackRel P stack stack' → StackRel P (w :: stack) (w' :: stack')
  | own {tops tops' : List Waiting} {rest rest' : List Stmt} {env env' : Env}
      {stack stack' pending : List Waiting} : Rooted S L P env env' →
      Tops S L P env env' tops rest tops' rest' → Pending stack' pending →
      StackRel P stack stack' →
      StackRel P (tops ++ .block rest env :: .call L.id :: stack)
        (tops' ++ .block rest' env' :: pending)

inductive Related (P : Pairing) : State → State → Prop where
  | run {focus focus' : Focus} {stack stack' : List Waiting} {depth depth' : Nat}
      {σ σ' : Store} : StorePair S P σ σ' → FocusPair S P focus focus' →
      StackRel S L P stack stack' →
      Related P ⟨focus, stack, depth, σ⟩ ⟨focus', stack', depth', σ'⟩
  /-- The rest of a block is to run. -/
  | block {rest rest' : List Stmt} {env env' : Env} {stack stack' pending : List Waiting}
      {depth depth' : Nat} {σ σ' : Store} : StorePair S P σ σ' → Rooted S L P env env' →
      Turns S L rest rest' → Pending stack' pending → StackRel S L P stack stack' →
      Related P ⟨.complete .normal, .block rest env :: .call L.id :: stack, depth, σ⟩
        ⟨.complete .normal, .block rest' env' :: pending, depth', σ'⟩
  /-- The first statement of a block is to run. -/
  | exec {s s' : Stmt} {rest rest' : List Stmt} {env env' : Env}
      {stack stack' pending : List Waiting} {depth depth' : Nat} {σ σ' : Store} :
      StorePair S P σ σ' → Rooted S L P env env' → TurnsAt S L s rest s' rest' →
      Pending stack' pending → StackRel S L P stack stack' →
      Related P ⟨.exec s env, .block rest env :: .call L.id :: stack, depth, σ⟩
        ⟨.exec s' env', .block rest' env' :: pending, depth', σ'⟩
  /-- A jump is to run. -/
  | jump {body body' : List Stmt} {env env' : Env} {dead dead' : List Waiting}
      {stack stack' pending : List Waiting} {depth depth' : Nat} {σ σ' : Store} :
      StorePair S P σ σ' → Rooted S L P env env' → StartsJump L body body' →
      (∀ w ∈ dead, w.isInert = true) → (∀ w ∈ dead', w.isInert = true) →
      Pending stack' pending → StackRel S L P stack stack' →
      Related P ⟨.complete .normal, .block body env :: (dead ++ .call L.id :: stack), depth, σ⟩
        ⟨.complete .normal, .block body' env' :: (dead' ++ pending), depth', σ'⟩
  | goto {l : String} {env env' : Env} {dead dead' : List Waiting}
      {stack stack' pending : List Waiting} {depth depth' : Nat} {σ σ' : Store} :
      StorePair S P σ σ' → Rooted S L P env env' → L.Has l →
      (∀ w ∈ dead, w.isInert = true) → (∀ w ∈ dead', w.isInert = true) →
      Pending stack' pending → StackRel S L P stack stack' →
      Related P ⟨.exec (.goto l) env, dead ++ .call L.id :: stack, depth, σ⟩
        ⟨.exec (Elimination.tailCall L.vars l) env', dead' ++ pending, depth', σ'⟩
  /-- The activation ends with a value; the target is already past its end. -/
  | leave {v v' : Value} {dead stack stack' : List Waiting} {depth depth' : Nat} {σ σ' : Store} :
      StorePair S P σ σ' → ValuePair S P v v' → (∀ w ∈ dead, w.isInert = true) →
      StackRel S L P stack stack' →
      Related P ⟨.complete (.returned v), dead ++ .call L.id :: stack, depth, σ⟩
        ⟨.value v', stack', depth', σ'⟩
  | fall {stack stack' : List Waiting} {depth depth' : Nat} {σ σ' : Store} :
      StorePair S P σ σ' → StackRel S L P stack stack' →
      Related P ⟨.complete .normal, .call L.id :: stack, depth, σ⟩ ⟨.value .null, stack', depth', σ'⟩
  /-- A thrown value leaves the activation; the target is already past its end. -/
  | unwind {v v' : Value} {dead stack stack' : List Waiting} {depth depth' : Nat}
      {σ σ' : Store} : StorePair S P σ σ' → ValuePair S P v v' →
      (∀ w ∈ dead, w.passesThrown = true) → StackRel S L P stack stack' →
      Related P ⟨.thrown v, dead ++ .call L.id :: stack, depth, σ⟩ ⟨.thrown v', stack', depth', σ'⟩

end

/-! ## Growth -/

section

variable {S : Sides} {L : Layout} {P Q : Pairing}

theorem Root.mono (h : P ≤ Q) {env env' : Env} (hr : Root S L P env env') : Root S L Q env env' := by
  cases hr with
  | mk hf hh ha hl =>
      refine .mk (h.frame hf) (fun x hx hq => hh x hx (hq.of_le h (.inr ⟨_, hf⟩)))
        (fun x hx => (ha x hx).mono h) fun l v hlv => ?_
      obtain ⟨tag, ht⟩ := hl l v hlv
      exact ⟨tag, h.hidden ht⟩

theorem Rooted.mono (h : P ≤ Q) {env env' : Env} (hr : Rooted S L P env env') :
    Rooted S L Q env env' := by
  cases hr with
  | body hr => exact .body (hr.mono h)
  | fragment hr hp hh =>
      exact .fragment (hr.mono h) (h.plain hp) fun x hq => hh x (hq.of_le h (.inl hp))

theorem Tops.mono (h : P ≤ Q) {env env' : Env} {tops tops' : List Waiting}
    {rest rest' : List Stmt} (ht : Tops S L P env env' tops rest tops' rest') :
    Tops S L Q env env' tops rest tops' rest' := by
  cases ht with
  | simple hplain hdone hes hrest => exact .simple hplain (valuesPair_mono h hdone) hes hrest
  | ret => exact .ret _ _
  | throw => exact .throw _ _
  | branch _ _ ht he => exact .branch _ _ ht he
  | dispatch hbody hrest => exact .dispatch hbody hrest
  | arm hv hl hmore hfallback hrest => exact .arm (hv.mono h) hl hmore hfallback hrest

theorem StackRel.mono (h : P ≤ Q) {stack stack' : List Waiting}
    (hs : StackRel S L P stack stack') : StackRel S L Q stack stack' := by
  induction hs with
  | nil => exact .nil
  | cons hw _ ih => exact .cons (hw.mono h) ih
  | own hr ht hp _ ih => exact .own (hr.mono h) (ht.mono h) hp ih

theorem StackRel.append {tops tops' stack stack' : List Waiting} (ht : StackPair S P tops tops')
    (hs : StackRel S L P stack stack') : StackRel S L P (tops ++ stack) (tops' ++ stack') := by
  induction ht with
  | nil => exact hs
  | cons hw _ ih => exact .cons hw ih

/-- What the code of an activation sees. -/
theorem Rooted.view {env env' : Env} (hr : Rooted S L P env env') :
    View S P L.Reads False env env' := by
  have hroot {env env' : Env} (hr : Root S L P env env') (x : Nat) (hx : L.Reads x) :
      P.Agrees S x env env' := by
    cases hr with
    | mk hf hh ha => exact .frame hf (hh x hx) (ha x hx)
  refine ⟨fun x hx => ?_, False.elim⟩
  cases hr with
  | body hr => exact hroot hr x hx
  | fragment hr hp hh => exact .plain hp (hh x) (hroot hr x hx)

end

end Resumable
