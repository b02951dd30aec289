import Resumable.Proofs.Pairing.Operation

/-!
# Runs that end alike

What an observer compares of two runs that start from the same store: the calls
of natives and the lines of the log are equal, and results, global values,
variables and objects are equal up to a choice of identities. The choice keeps
the identities of everything that existed before.
-/

namespace Resumable

/-- Which frames, functions and objects of a store stand for which of another. -/
structure Likeness where
  frame : FrameId → FrameId → Prop
  tag : Nat → Nat → Prop
  object : Nat → Nat → Prop

namespace Likeness

/-- Two values are alike: data are equal, functions have the same definition,
objects stand for each other. -/
inductive Values (L : Likeness) : Value → Value → Prop where
  | null : Values L .null .null
  | bool (b : Bool) : Values L (.bool b) (.bool b)
  | int (n : Int64) : Values L (.int n) (.int n)
  | num (x : Float) : Values L (.num x) (.num x)
  | str (s : String) : Values L (.str s) (.str s)
  | closure {tag tag' : Nat} (fn : FuncId) (env env' : Env) : L.tag tag tag' →
      Values L (.closure tag fn env) (.closure tag' fn env')
  | native {tag tag' : Nat} (name : String) (kind : NativeKind) : L.tag tag tag' →
      Values L (.native tag name kind) (.native tag' name kind)
  | object {ref ref' : Nat} (cls : Option ClassId) : L.object ref ref' →
      Values L (.object ref cls) (.object ref' cls)

inductive Options (L : Likeness) : Option Value → Option Value → Prop where
  | none : Options L none none
  | some {v v' : Value} : L.Values v v' → Options L (some v) (some v')

inductive Marks (L : Likeness) : Mark → Mark → Prop where
  | definition (id : FuncId) : Marks L (.definition id) (.definition id)
  | frame {i j : FrameId} : L.frame i j → Marks L (.frame i) (.frame j)
  | code (kind : NativeKind) : Marks L (.code kind) (.code kind)
  | function {t t' : Nat} : L.tag t t' → Marks L (.function t) (.function t')
  | object {r r' : Nat} : L.object r r' → Marks L (.object r) (.object r')

inductive Keys (L : Likeness) : Key → Key → Prop where
  | text (s : String) : Keys L (.text s) (.text s)
  | marked (s : String) {m m' : Mark} {rest rest' : Key} : L.Marks m m' → Keys L rest rest' →
      Keys L (.marked s m rest) (.marked s m' rest')

def Objects (L : Likeness) : Fields → Fields → Prop :=
  List.Forall₂ fun f g => L.Keys f.1 g.1 ∧ L.Values f.2 g.2

/-- Two runs end alike: with a value, a thrown value or the same failure. -/
inductive Results (L : Likeness) : Except Failure Value → Except Failure Value → Prop where
  | ok {v v' : Value} : L.Values v v' → Results L (.ok v) (.ok v')
  | thrown {v v' : Value} : L.Values v v' →
      Results L (.error (.thrown v)) (.error (.thrown v'))
  | failure {f : Failure} : (∀ v, f ≠ .thrown v) → Results L (.error f) (.error f)

/-- Identities are chosen one to one, and those of a store stay as they are. -/
structure Extends (L : Likeness) (before σ σ' : Store) : Prop where
  frames : Embeds L.frame σ.frames.size σ'.frames.size
  tags : Embeds L.tag σ.tags σ'.tags
  objects : Embeds L.object σ.objects.size σ'.objects.size
  sameFrame : ∀ i, i < before.frames.size → L.frame i i
  sameTag : ∀ t, t < before.tags → L.tag t t
  sameObject : ∀ r, r < before.objects.size → L.object r r

/-- Two stores that runs from the same store lead to are alike. -/
structure Stores (L : Likeness) (before σ σ' : Store) : Prop extends L.Extends before σ σ' where
  trace : σ.trace = σ'.trace
  output : σ.output = σ'.output
  globals : ∀ x, L.Options (σ.globals.lookup x) (σ'.globals.lookup x)
  bindings : ∀ i, i < before.frames.size → ∀ x, L.Options (σ.binding i x) (σ'.binding i x)
  fields : ∀ r r', L.object r r' → L.Objects (σ.fields r) (σ'.fields r')
  recorded : List.Forall₂ L.Values σ.recorded.toList σ'.recorded.toList

end Likeness

def EndAlike (before : Store) (r : Except Failure Value) (σ : Store) (r' : Except Failure Value)
    (σ' : Store) : Prop :=
  ∃ L : Likeness, L.Stores before σ σ' ∧ L.Results r r'

/-- What can be seen of the end of a run without comparing values: the report it
failed with, the calls of natives and the log. -/
def observed (answer : Except Failure Value × Store) : Option Report × Array String × String :=
  ((match answer.1 with
    | .ok _ => none
    | .error f => f.report?), answer.2.trace, answer.2.output)

theorem EndAlike.observed_eq {before σ σ' : Store} {r r' : Except Failure Value}
    (h : EndAlike before r σ r' σ') : observed (r, σ) = observed (r', σ') := by
  obtain ⟨L, hstores, hresults⟩ := h
  simp only [observed, hstores.trace, hstores.output, Prod.mk.injEq, and_true]
  cases hresults <;> rfl

/-! ## From pairings -/

def Pairing.same (σ : Store) : Pairing where
  frame i j := i = j ∧ i < σ.frames.size
  bound _ _ := False
  plain _ := False
  hidden _ _ _ := False
  tag t t' := t = t' ∧ t < σ.tags
  object r r' := r = r' ∧ r < σ.objects.size

def Pairing.likeness (P : Pairing) : Likeness :=
  ⟨P.frame, P.tag, P.object⟩

section

variable {S : Sides} {P : Pairing}

theorem ValuePair.alike {v v' : Value} (h : ValuePair S P v v') : P.likeness.Values v v' := by
  cases h with
  | closure ht => exact .closure _ _ _ ht
  | native name kind _ ht => exact .native name kind ht
  | object cls hr => exact .object cls hr
  | _ => constructor

theorem OptionPair.alike {o o' : Option Value} (h : OptionPair S P o o') :
    P.likeness.Options o o' := by
  cases h with
  | none => exact .none
  | some hv => exact .some hv.alike

theorem KeyPair.alike {k k' : Key} (h : KeyPair P k k') : P.likeness.Keys k k' := by
  induction h with
  | text s => exact .text s
  | marked s hm _ ih =>
      refine .marked s ?_ ih
      cases hm with
      | definition id => exact .definition id
      | frame hf => exact .frame hf
      | code kind => exact .code kind
      | function ht => exact .function ht
      | object hr => exact .object hr

theorem FieldsPair.alike {fs fs' : Fields} (h : FieldsPair S P fs fs') :
    P.likeness.Objects fs fs' :=
  h.imp fun _ _ ⟨hk, hv⟩ => ⟨hk.alike, hv.alike⟩

theorem ResultPair.alike {r r' : Except Failure Value} (h : ResultPair S P r r') :
    P.likeness.Results r r' := by
  cases h with
  | ok hv => exact .ok hv.alike
  | thrown hv => exact .thrown hv.alike
  | failure hf => exact .failure hf

variable {before σ σ' : Store}

theorem StorePair.extends (hσ : StorePair S P σ σ') (hle : Pairing.same before ≤ P) :
    P.likeness.Extends before σ σ' where
  frames := hσ.frames
  tags := hσ.tags
  objects := hσ.objects
  sameFrame _ hi := hle.frame ⟨rfl, hi⟩
  sameTag _ ht := hle.tag ⟨rfl, ht⟩
  sameObject _ hr := hle.object ⟨rfl, hr⟩

/-- Frames that existed before hide nothing. -/
theorem StorePair.binding_before (hσ : StorePair S P σ σ') (hle : Pairing.same before ≤ P)
    {i : FrameId} (hi : i < before.frames.size) (x : Nat) :
    P.likeness.Options (σ.binding i x) (σ'.binding i x) := by
  have hframe : (Pairing.same before).frame i i := ⟨rfl, hi⟩
  refine (hσ.binding (hle.frame hframe) ?_).alike
  rintro ⟨v, hv⟩
  exact hle.settled (.inr ⟨i, hframe⟩) hv

/-- Paired stores are alike, up to global values. -/
theorem StorePair.alike (hσ : StorePair S P σ σ') (hle : Pairing.same before ≤ P) (hheard : S.heard)
    {gs gs' : Bindings}
    (hglobals : ∀ x, P.likeness.Options (gs.lookup x) (gs'.lookup x)) :
    P.likeness.Stores before { σ with globals := gs } { σ' with globals := gs' } :=
    { hσ.extends hle with
      trace := hσ.trace hheard
      output := hσ.output hheard
      globals := hglobals
      bindings := fun _ hi x => hσ.binding_before hle hi x
      fields := fun _ _ hr => (hσ.fields hr).alike
      recorded := (hσ.recorded hheard).imp fun _ _ hv => hv.alike }

theorem EndAlike.of_pair (hσ : StorePair S P σ σ') (hle : Pairing.same before ≤ P)
    (hcommon : ∀ x, S.common x) (hheard : S.heard) {r r' : Except Failure Value}
    (hr : ResultPair S P r r') : EndAlike before r σ r' σ' :=
  ⟨P.likeness, hσ.alike hle hheard fun x => (hσ.globals x (hcommon x)).alike, hr.alike⟩

end

end Resumable
