import Mathlib.Data.List.Forall2
import Resumable.Machine.Store

/-!
# Pairings

Two runs that do the same seldom have equal stores: one of them may make frames
and function values that the other does not. A pairing says which frames,
function identities and objects of a first store stand for which of a second
one. Beyond that the second store may have plain frames, which stand for
nothing, and hidden variables in any of its frames. Pairings grow with the runs.
-/

namespace Resumable

/-- Which things of a first store stand for which of a second one. -/
structure Pairing where
  frame : FrameId → FrameId → Prop
  /-- A variable is bound in a frame of the first store. -/
  bound : FrameId → Nat → Prop
  /-- A frame of the second store that stands for none of the first. -/
  plain : FrameId → Prop
  /-- The value of a variable in a frame of the second store that the first
  store knows nothing of. -/
  hidden : FrameId → Nat → Value → Prop
  tag : Nat → Nat → Prop
  object : Nat → Nat → Prop

namespace Pairing

/-- A frame of the second store has a part in the pairing. -/
def Knows (P : Pairing) (j : FrameId) : Prop :=
  P.plain j ∨ ∃ i, P.frame i j

def Hides (P : Pairing) (j : FrameId) (x : Nat) : Prop :=
  ∃ v, P.hidden j x v

/-- A pairing grows: nothing is lost, and nothing more is hidden in a frame
that already has a part in it. -/
structure Grows (P Q : Pairing) : Prop where
  frame : ∀ {i j}, P.frame i j → Q.frame i j
  bound : ∀ {i x}, P.bound i x → Q.bound i x
  plain : ∀ {j}, P.plain j → Q.plain j
  hidden : ∀ {j x v}, P.hidden j x v → Q.hidden j x v
  tag : ∀ {t t'}, P.tag t t' → Q.tag t t'
  object : ∀ {r r'}, P.object r r' → Q.object r r'
  settled : ∀ {j x v}, P.Knows j → Q.hidden j x v → P.hidden j x v

instance : LE Pairing := ⟨Grows⟩

protected theorem le_refl (P : Pairing) : P ≤ P where
  frame h := h
  bound h := h
  plain h := h
  hidden h := h
  tag h := h
  object h := h
  settled _ h := h

theorem Knows.mono {P Q : Pairing} (h : P ≤ Q) {j : FrameId} (hj : P.Knows j) : Q.Knows j :=
  hj.imp h.plain fun ⟨i, hi⟩ => ⟨i, h.frame hi⟩

protected theorem le_trans {P Q R : Pairing} (first : P ≤ Q) (second : Q ≤ R) : P ≤ R where
  frame h := second.frame (first.frame h)
  bound h := second.bound (first.bound h)
  plain h := second.plain (first.plain h)
  hidden h := second.hidden (first.hidden h)
  tag h := second.tag (first.tag h)
  object h := second.object (first.object h)
  settled hj h := first.settled hj (second.settled (hj.mono first) h)

theorem Hides.of_le {P Q : Pairing} (h : P ≤ Q) {j : FrameId} {x : Nat} (hj : P.Knows j) :
    Q.Hides j x → P.Hides j x :=
  fun ⟨v, hv⟩ => ⟨v, h.settled hj hv⟩

def Tight (P : Pairing) : Env → Env → Prop
  | [], [] => True
  | i :: _, j :: _ => P.frame i j
  | _, _ => False

theorem Tight.mono {P Q : Pairing} (h : P ≤ Q) {env env' : Env} (ht : P.Tight env env') :
    Q.Tight env env' := by
  match env, env', ht with
  | [], [], _ => trivial
  | _ :: _, _ :: _, ht => exact h.frame ht

end Pairing

/-- Numbers below two bounds are paired one to one and in order. -/
structure Embeds (rel : Nat → Nat → Prop) (n n' : Nat) : Prop where
  left : ∀ {i j}, rel i j → i < n
  right : ∀ {i j}, rel i j → j < n'
  order : ∀ {i j a b}, rel i j → rel a b → (i < a ↔ j < b)

namespace Embeds

variable {rel : Nat → Nat → Prop} {n n' : Nat}

theorem eq_iff (h : Embeds rel n n') {i j a b : Nat} (hij : rel i j) (hab : rel a b) :
    i = a ↔ j = b := by
  have h₁ := h.order hij hab
  have h₂ := h.order hab hij
  omega

theorem widen (h : Embeds rel n n') {m m' : Nat} (hm : n ≤ m) (hm' : n' ≤ m') :
    Embeds rel m m' where
  left hr := Nat.lt_of_lt_of_le (h.left hr) hm
  right hr := Nat.lt_of_lt_of_le (h.right hr) hm'
  order := h.order

/-- Two numbers above those paired so far can be paired. -/
theorem extend (h : Embeds rel n n') {m k : Nat} (hm : m < n) (hk : k < n')
    (hlast : ∀ {i j}, rel i j → i < m ∧ j < k) :
    Embeds (fun i j => rel i j ∨ (i = m ∧ j = k)) n n' where
  left hr := by
    rcases hr with hr | ⟨rfl, -⟩
    · exact h.left hr
    · exact hm
  right hr := by
    rcases hr with hr | ⟨-, rfl⟩
    · exact h.right hr
    · exact hk
  order h₁ h₂ := by
    rcases h₁ with h₁ | ⟨rfl, rfl⟩ <;> rcases h₂ with h₂ | ⟨rfl, rfl⟩
    · exact h.order h₁ h₂
    · exact ⟨fun _ => (hlast h₁).2, fun _ => (hlast h₁).1⟩
    · have hlt := hlast h₂
      omega
    · omega

end Embeds

/-- Things of a second store that a run is to leave alone. -/
structure Aside where
  frame : FrameId → Prop
  object : Nat → Prop
  /-- A variable without a global value. -/
  unbound : Nat → Prop
  /-- The store that has them. -/
  store : Store

def Aside.nothing : Aside where
  frame _ := False
  object _ := False
  unbound _ := False
  store := {}

structure Sides where
  source : Program
  target : Program
  /-- Values of a function may be matched. -/
  known : FuncId → Prop
  /-- A function may look up a variable from outside of its own. -/
  free : FuncId → Nat → Prop
  /-- The values of a function may be made under other frames in the target
  than in the source. -/
  loose : FuncId → Prop
  /-- Calls of a function are not matched step by step. -/
  special : FuncId → Prop
  /-- A variable has corresponding global values. -/
  common : Nat → Prop
  /-- An expression of the source stands in the target as another one. -/
  slot : Expr → Expr → Prop
  /-- The runs are to call the same natives and log the same lines. Otherwise no
  natives are matched. -/
  heard : Prop
  aside : Aside

namespace Pairing

/-- A variable means the same seen from two lists of frames: the frames in which
it is looked for are paired one by one, plain ones passed over, until one is
known to bind it or its global values correspond. -/
inductive Agrees (P : Pairing) (S : Sides) (x : Nat) : Env → Env → Prop where
  | nil : S.common x → Agrees P S x [] []
  | found {i j : FrameId} {env env' : Env} :
      P.frame i j → ¬ P.Hides j x → P.bound i x → Agrees P S x (i :: env) (j :: env')
  | frame {i j : FrameId} {env env' : Env} :
      P.frame i j → ¬ P.Hides j x → Agrees P S x env env' → Agrees P S x (i :: env) (j :: env')
  | plain {j : FrameId} {env env' : Env} :
      P.plain j → ¬ P.Hides j x → Agrees P S x env env' → Agrees P S x env (j :: env')

theorem Agrees.mono {P Q : Pairing} {S : Sides} (h : P ≤ Q) {x : Nat} {env env' : Env}
    (ha : P.Agrees S x env env') : Q.Agrees S x env env' := by
  induction ha with
  | nil hc => exact .nil hc
  | found hf hh hb =>
      exact .found (h.frame hf) (fun hq => hh (hq.of_le h (.inr ⟨_, hf⟩))) (h.bound hb)
  | frame hf hh _ ih =>
      exact .frame (h.frame hf) (fun hq => hh (hq.of_le h (.inr ⟨_, hf⟩))) ih
  | plain hp hh _ ih => exact .plain (h.plain hp) (fun hq => hh (hq.of_le h (.inl hp))) ih

end Pairing

/-- Two values correspond: data are equal, functions have the same definition
and see the same variables, objects are paired. -/
inductive ValuePair (S : Sides) (P : Pairing) : Value → Value → Prop where
  | null : ValuePair S P .null .null
  | bool (b : Bool) : ValuePair S P (.bool b) (.bool b)
  | int (n : Int64) : ValuePair S P (.int n) (.int n)
  | num (x : Float) : ValuePair S P (.num x) (.num x)
  | str (s : String) : ValuePair S P (.str s) (.str s)
  | closure {tag tag' : Nat} {fn : FuncId} {env env' : Env} :
      P.tag tag tag' → S.known fn →
      (∀ x, S.free fn x → P.Agrees S x env env') → (S.loose fn ∨ P.Tight env env') →
      ValuePair S P (.closure tag fn env) (.closure tag' fn env')
  | native {tag tag' : Nat} (name : String) (kind : NativeKind) :
      S.heard → P.tag tag tag' → ValuePair S P (.native tag name kind) (.native tag' name kind)
  | object {ref ref' : Nat} (cls : Option ClassId) :
      P.object ref ref' → ValuePair S P (.object ref cls) (.object ref' cls)

inductive OptionPair (S : Sides) (P : Pairing) : Option Value → Option Value → Prop where
  | none : OptionPair S P none none
  | some {v v' : Value} : ValuePair S P v v' → OptionPair S P (some v) (some v')

theorem OptionPair.isSome_eq {S : Sides} {P : Pairing} {o o' : Option Value}
    (h : OptionPair S P o o') : o.isSome = o'.isSome := by
  cases h <;> rfl

inductive MarkPair (P : Pairing) : Mark → Mark → Prop where
  | definition (id : FuncId) : MarkPair P (.definition id) (.definition id)
  | frame {i j : FrameId} : P.frame i j → MarkPair P (.frame i) (.frame j)
  | code (kind : NativeKind) : MarkPair P (.code kind) (.code kind)
  | function {t t' : Nat} : P.tag t t' → MarkPair P (.function t) (.function t')
  | object {r r' : Nat} : P.object r r' → MarkPair P (.object r) (.object r')

inductive KeyPair (P : Pairing) : Key → Key → Prop where
  | text (s : String) : KeyPair P (.text s) (.text s)
  | marked (s : String) {m m' : Mark} {rest rest' : Key} :
      MarkPair P m m' → KeyPair P rest rest' → KeyPair P (.marked s m rest) (.marked s m' rest')

def FieldsPair (S : Sides) (P : Pairing) : Fields → Fields → Prop :=
  List.Forall₂ fun f g => KeyPair P f.1 g.1 ∧ ValuePair S P f.2 g.2

section Mono

variable {S : Sides} {P Q : Pairing}

theorem ValuePair.mono (h : P ≤ Q) {v v' : Value} (hv : ValuePair S P v v') :
    ValuePair S Q v v' := by
  cases hv with
  | null => exact .null
  | bool b => exact .bool b
  | int n => exact .int n
  | num x => exact .num x
  | str s => exact .str s
  | closure ht hfn ha hl =>
      exact .closure (h.tag ht) hfn (fun x hx => (ha x hx).mono h) (hl.imp_right (·.mono h))
  | native name kind hheard ht => exact .native name kind hheard (h.tag ht)
  | object cls hr => exact .object cls (h.object hr)

theorem OptionPair.mono (h : P ≤ Q) {o o' : Option Value} (ho : OptionPair S P o o') :
    OptionPair S Q o o' := by
  cases ho with
  | none => exact .none
  | some hv => exact .some (hv.mono h)

theorem MarkPair.mono (h : P ≤ Q) {m m' : Mark} (hm : MarkPair P m m') : MarkPair Q m m' := by
  cases hm with
  | definition id => exact .definition id
  | frame hf => exact .frame (h.frame hf)
  | code kind => exact .code kind
  | function ht => exact .function (h.tag ht)
  | object hr => exact .object (h.object hr)

theorem KeyPair.mono (h : P ≤ Q) {k k' : Key} (hk : KeyPair P k k') : KeyPair Q k k' := by
  induction hk with
  | text s => exact .text s
  | marked s hm _ ih => exact .marked s (hm.mono h) ih

theorem FieldsPair.mono (h : P ≤ Q) {fs fs' : Fields} (hf : FieldsPair S P fs fs') :
    FieldsPair S Q fs fs' :=
  hf.imp fun _ _ ⟨hk, hv⟩ => ⟨hk.mono h, hv.mono h⟩

theorem valuesPair_mono (h : P ≤ Q) {vs vs' : List Value}
    (hvs : List.Forall₂ (ValuePair S P) vs vs') : List.Forall₂ (ValuePair S Q) vs vs' :=
  hvs.imp fun _ _ hv => hv.mono h

end Mono

end Resumable
