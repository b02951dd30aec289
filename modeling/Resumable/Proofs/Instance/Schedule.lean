import Mathlib.Logic.Function.Basic
import Resumable.Proofs.Generator.Outcomes
import Resumable.Proofs.Instance.Closed
import Resumable.Proofs.Pass.WellFormed

/-!
# Instances that do not interfere

Calls of one function make instances, and resumptions of the instances may take
turns in any order. If the function finds all its variables in its own frames, or
nowhere, an instance gives the same answers as it would by itself: its frames and
objects are out of reach of the others.
-/

namespace Resumable

open Machine

/-! ## Putting things aside -/

section

variable {p : Program} {globals : Bindings} {A B : Aside} {P : Pairing}

theorem Pairing.Agrees.putAside {x : Nat} {env env' : Env}
    (h : P.Agrees (.twin p globals A) x env env') : P.Agrees (.twin p globals B) x env env' := by
  induction h with
  | nil hc => exact .nil hc
  | found hf hh hb => exact .found hf hh hb
  | frame hf hh _ ih => exact .frame hf hh ih
  | plain hp hh _ ih => exact .plain hp hh ih

/-- What is put aside has no part in which values correspond. -/
theorem ValuePair.putAside {v v' : Value} (h : ValuePair (.twin p globals A) P v v') :
    ValuePair (.twin p globals B) P v v' := by
  cases h with
  | closure ht hfn ha hl => exact .closure ht hfn (fun x hx => (ha x hx).putAside) hl
  | native name kind hheard ht => exact hheard.elim
  | object cls hr => exact .object cls hr
  | _ => constructor

theorem OptionPair.putAside {o o' : Option Value} (h : OptionPair (.twin p globals A) P o o') :
    OptionPair (.twin p globals B) P o o' := by
  cases h with
  | none => exact .none
  | some hv => exact .some hv.putAside

theorem FieldsPair.putAside {fs fs' : Fields} (h : FieldsPair (.twin p globals A) P fs fs') :
    FieldsPair (.twin p globals B) P fs fs' :=
  h.imp fun _ _ hf => ⟨hf.1, hf.2.putAside⟩

theorem ResultPair.putAside {r r' : Except Failure Value}
    (h : ResultPair (.twin p globals A) P r r') : ResultPair (.twin p globals B) P r r' := by
  cases h with
  | ok hv => exact .ok hv.putAside
  | thrown hv => exact .thrown hv.putAside
  | failure hf => exact .failure hf

theorem StorePair.putAside {σ σ' : Store} (h : StorePair (.twin p globals A) P σ σ')
    (hkept : B.Kept P σ') : StorePair (.twin p globals B) P σ σ' where
  globals x hx := (h.globals x hx).putAside
  frames := h.frames
  binding hf hh := (h.binding hf hh).putAside
  bound := h.bound
  plain := h.plain
  apart := h.apart
  bare := h.bare
  hidden := h.hidden
  placed := h.placed
  objects := h.objects
  fields hr := (h.fields hr).putAside
  tags := h.tags
  trace := False.elim
  output := False.elim
  recorded := False.elim
  aside := hkept

/-- A store that was put aside corresponds to what it did before. -/
theorem StorePair.of_kept {σ σ' τ : Store} {Q : Pairing}
    (h : StorePair (.twin p globals .nothing) P σ σ') (hA : A.Kept Q τ) (hstore : A.store = σ')
    (hframe : ∀ j, P.Knows j → A.frame j) (hobject : ∀ a r, P.object a r → A.object r)
    (hunbound : ∀ x, globals.lookup x = none → A.unbound x ∧ σ'.globals.lookup x = none) :
    StorePair (.twin p globals .nothing) P σ τ where
  globals x hx := by
    have hpair := h.globals x hx
    rw [(hunbound x hx).2] at hpair
    rw [hA.unbound (hunbound x hx).1]
    exact hpair
  frames :=
    { h.frames with right := fun hij => (hA.frame (hframe _ (.inr ⟨_, hij⟩))).1 }
  binding hf hh := by
    rw [hA.binding (hframe _ (.inr ⟨_, hf⟩)), hstore]
    exact h.binding hf hh
  bound := h.bound
  plain hp := (hA.frame (hframe _ (.inl hp))).1
  apart := h.apart
  bare hp hh := by
    rw [hA.binding (hframe _ (.inl hp)), hstore]
    exact h.bare hp hh
  hidden hv := by
    rw [hA.binding (hframe _ (h.placed hv)), hstore]
    exact h.hidden hv
  placed := h.placed
  objects :=
    { h.objects with right := fun hr => (hA.object (hobject _ _ hr)).1 }
  fields hr := by
    rw [hA.fields (hobject _ _ hr), hstore]
    exact h.fields hr
  tags := h.tags.widen (Nat.le_refl _) (hstore ▸ hA.tags)
  trace := False.elim
  output := False.elim
  recorded := False.elim
  aside := Aside.nothing_kept P τ

end

/-! ## Instances -/

inductive Event where
  | create (args : List Value)
  | resume

inductive Answer where
  | created (result : Except Failure Value)
  | resumed (outcome : Resumption)

def Event.run (cx : Context) (fuel : Nat) (id : FuncId) (gen : Value) (σ : Store) :
    Event → Option ((Answer × Value) × Store)
  | .create args => do
      let (result, σ) ← callFunc cx fuel id args σ
      return ((.created result, result.toOption.getD .null), σ)
  | .resume => do
      let (outcome, σ) ← Machine.resume cx fuel gen σ
      return ((.resumed outcome, gen), σ)

def playAlone (cx : Context) (fuel : Nat) (id : FuncId) :
    List Event → Value → Store → Option (List Answer × Store)
  | [], _, σ => some ([], σ)
  | e :: rest, gen, σ => do
      let ((answer, gen), σ) ← e.run cx fuel id gen σ
      let (answers, σ) ← playAlone cx fuel id rest gen σ
      return (answer :: answers, σ)

def play (cx : Context) (fuel : Nat) (id : FuncId) :
    List (Nat × Event) → (Nat → Value) → Store → Option (List (Nat × Answer) × Store)
  | [], _, σ => some ([], σ)
  | (k, e) :: rest, gens, σ => do
      let ((answer, gen), σ) ← e.run cx fuel id (gens k) σ
      let (answers, σ) ← play cx fuel id rest (Function.update gens k gen) σ
      return ((k, answer) :: answers, σ)

section

variable {cx : Context} {fuel k : Nat} {id : FuncId} {e : Event} {gen gen' : Value}
  {gens : Nat → Value} {σ τ : Store} {a : Answer}

theorem playAlone_cons (h : e.run cx fuel id gen σ = some ((a, gen'), τ)) (rest : List Event) :
    playAlone cx fuel id (e :: rest) gen σ =
      (playAlone cx fuel id rest gen' τ).map fun answers => (a :: answers.1, answers.2) := by
  simp only [playAlone, h, Option.bind_eq_bind, Option.bind_some]
  cases playAlone cx fuel id rest gen' τ <;> rfl

theorem playAlone_none (h : e.run cx fuel id gen σ = none) (rest : List Event) :
    playAlone cx fuel id (e :: rest) gen σ = none := by
  simp [playAlone, h]

theorem play_cons (h : e.run cx fuel id (gens k) σ = some ((a, gen'), τ))
    (rest : List (Nat × Event)) :
    play cx fuel id ((k, e) :: rest) gens σ =
      (play cx fuel id rest (Function.update gens k gen') τ).map
        fun answers => ((k, a) :: answers.1, answers.2) := by
  simp only [play, h, Option.bind_eq_bind, Option.bind_some]
  cases play cx fuel id rest (Function.update gens k gen') τ <;> rfl

theorem play_none (h : e.run cx fuel id (gens k) σ = none) (rest : List (Nat × Event)) :
    play cx fuel id ((k, e) :: rest) gens σ = none := by
  simp [play, h]

end

def partOf {α : Type} (k : Nat) (entries : List (Nat × α)) : List α :=
  (entries.filter (·.1 = k)).map (·.2)

@[simp] theorem partOf_nil {α : Type} (k : Nat) : partOf k ([] : List (Nat × α)) = [] := rfl

@[simp] theorem partOf_cons {α : Type} (k l : Nat) (a : α) (rest : List (Nat × α)) :
    partOf k ((l, a) :: rest) = if l = k then a :: partOf k rest else partOf k rest := by
  by_cases h : l = k <;> simp [partOf, h]

def Value.isPrimitive : Value → Bool
  | .closure .. | .native .. | .object .. => false
  | _ => true

inductive AnswerPair (S : Sides) (P : Pairing) : Answer → Answer → Prop where
  | created {r r' : Except Failure Value} : ResultPair S P r r' →
      AnswerPair S P (.created r) (.created r')
  | resumed {a a' : Resumption} : ResumptionPair S P a a' →
      AnswerPair S P (.resumed a) (.resumed a')

section

variable {p : Program} {globals : Bindings} {A : Aside} {P : Pairing}

theorem AnswerPair.mono {S : Sides} {P Q : Pairing} (h : P ≤ Q) {a a' : Answer}
    (ha : AnswerPair S P a a') : AnswerPair S Q a a' := by
  cases ha with
  | created hr => exact .created (hr.mono h)
  | resumed hr => exact .resumed (hr.mono h)

theorem AnswerPair.putAside {B : Aside} {a a' : Answer}
    (h : AnswerPair (.twin p globals A) P a a') : AnswerPair (.twin p globals B) P a a' := by
  cases h with
  | created hr => exact .created hr.putAside
  | resumed hr =>
      refine .resumed ?_
      cases hr with
      | yielded hv => exact .yielded hv.putAside
      | done => exact .done
      | failed hf => exact .failed hf.putAside

theorem ValuePair.of_isPrimitive {S : Sides} {v : Value} (h : v.isPrimitive = true) :
    ValuePair S P v v := by
  cases v with
  | closure | native | object => cases h
  | _ => constructor

/-- An event of corresponding instances. -/
theorem Event.outcomes {id : FuncId} (hclosed : ∀ x, p.Looks x id → globals.lookup x = none)
    {σ σ' : Store} (hσ : StorePair (.twin p globals A) P σ σ') {gen gen' : Value}
    (hgen : ValuePair (.twin p globals A) P gen gen') (e : Event)
    (hargs : ∀ args, e = .create args → ∀ v ∈ args, v.isPrimitive = true) (limit fuel : Nat) :
    Outcomes (.twin p globals A) P (fun Q a a' => AnswerPair (.twin p globals A) Q a.1 a'.1 ∧
        ValuePair (.twin p globals A) Q a.2 a'.2)
      (e.run ⟨p, limit⟩ fuel id gen σ) (e.run ⟨p, limit⟩ fuel id gen' σ') := by
  cases e with
  | create args =>
      have hcall : Outcomes (.twin p globals A) P (ResultPair (.twin p globals A))
          (callFunc ⟨p, limit⟩ fuel id args σ) (callFunc ⟨p, limit⟩ fuel id args σ') := by
        unfold callFunc
        cases hid : p.func? id with
        | none => exact .some (Pairing.le_refl P) hσ (.failure (Failure.report_ne_thrown _))
        | some f =>
            exact call_closure hσ (Option.isSome_of_eq_some hid) (fun x hx => .nil (hclosed x hx))
              (List.forall₂_same.2 fun v hv => .of_isPrimitive (hargs args rfl v hv)) ..
      simp only [Event.run]
      generalize callFunc ⟨p, limit⟩ fuel id args σ = o at hcall ⊢
      generalize callFunc ⟨p, limit⟩ fuel id args σ' = o' at hcall ⊢
      cases hcall with
      | none => exact .none
      | some hle hσ hr =>
          refine .some hle hσ ⟨.created hr, ?_⟩
          cases hr with
          | ok hv => exact hv
          | _ => exact .null
  | resume =>
      have hresume := resume_value hσ hgen limit fuel
      simp only [Event.run]
      generalize Machine.resume ⟨p, limit⟩ fuel gen σ = o at hresume ⊢
      generalize Machine.resume ⟨p, limit⟩ fuel gen' σ' = o' at hresume ⊢
      cases hresume with
      | none => exact .none
      | some hle hσ ha => exact .some hle hσ ⟨.resumed ha, hgen.mono hle⟩

end

/-! ## Instances side by side -/

/-- Instances that each correspond to one by itself: `alone` has what they hold
and their stores there, `gens` what they hold where they take turns. No two have
a frame or an object in common. -/
structure Apart (p : Program) (globals : Bindings) (P : Nat → Pairing) (alone : Nat → Value × Store)
    (gens : Nat → Value) (σ : Store) : Prop where
  store : ∀ k, StorePair (.twin p globals .nothing) (P k) (alone k).2 σ
  gen : ∀ k, ValuePair (.twin p globals .nothing) (P k) (alone k).1 (gens k)
  frame : ∀ {k l j}, k ≠ l → (P k).Knows j → ¬ (P l).Knows j
  object : ∀ {k l a b r}, k ≠ l → (P k).object a r → ¬ (P l).object b r
  unbound : ∀ x, globals.lookup x = none → σ.globals.lookup x = none

def Pairing.empty : Pairing where
  frame _ _ := False
  bound _ _ := False
  plain _ := False
  hidden _ _ _ := False
  tag _ _ := False
  object _ _ := False

def othersOf (k : Nat) (P : Nat → Pairing) (globals : Bindings) (σ : Store) : Aside where
  frame j := ∃ l, l ≠ k ∧ (P l).Knows j
  object r := ∃ l a, l ≠ k ∧ (P l).object a r
  unbound x := globals.lookup x = none
  store := σ

namespace Apart

variable {p : Program} {globals : Bindings} {P : Nat → Pairing} {alone : Nat → Value × Store}
  {gens : Nat → Value} {σ : Store}

theorem kept (h : Apart p globals P alone gens σ) (k : Nat) :
    (othersOf k P globals σ).Kept (P k) σ where
  frame := by
    rintro j ⟨l, hl, hj⟩
    exact ⟨(h.store l).knows_lt hj, h.frame hl hj⟩
  binding _ _ := rfl
  object := by
    rintro r ⟨l, a, hl, hr⟩
    exact ⟨(h.store l).objects.right hr, fun b => h.object hl hr⟩
  fields _ := rfl
  unbound hx := h.unbound _ hx
  tags := Nat.le_refl _

/-- One instance goes on while the others wait. -/
theorem next (h : Apart p globals P alone gens σ) (k : Nat) {Q : Pairing} {gen gen' : Value}
    {τ τ' : Store} (hle : P k ≤ Q)
    (hτ : StorePair (.twin p globals (othersOf k P globals σ)) Q τ' τ)
    (hgen : ValuePair (.twin p globals (othersOf k P globals σ)) Q gen' gen) :
    Apart p globals (Function.update P k Q) (Function.update alone k (gen', τ'))
      (Function.update gens k gen) τ := by
  have hknown {l : Nat} (hl : l ≠ k) {j : FrameId} (hj : (P l).Knows j) : ¬ Q.Knows j :=
    (hτ.aside.frame ⟨l, hl, hj⟩).2
  have howned {l : Nat} (hl : l ≠ k) {a b r : Nat} (hr : (P l).object a r) : ¬ Q.object b r :=
    (hτ.aside.object ⟨l, a, hl, hr⟩).2 b
  refine ⟨fun l => ?_, fun l => ?_, ?_, ?_, fun x hx => hτ.aside.unbound hx⟩
  · by_cases hl : l = k
    · subst hl
      simp only [Function.update_self]
      exact hτ.putAside (Aside.nothing_kept _ _)
    · simp only [Function.update_of_ne hl]
      exact (h.store l).of_kept hτ.aside rfl (fun j hj => ⟨l, hl, hj⟩) (fun a r hr => ⟨l, a, hl, hr⟩)
        fun x hx => ⟨hx, h.unbound x hx⟩
  · by_cases hl : l = k
    · subst hl
      simp only [Function.update_self]
      exact hgen.putAside
    · simp only [Function.update_of_ne hl]
      exact h.gen l
  · intro l m j hne hj
    by_cases hl : l = k
    · subst hl
      rw [Function.update_self] at hj
      rw [Function.update_of_ne hne.symm]
      exact fun hm => hknown hne.symm hm hj
    · rw [Function.update_of_ne hl] at hj
      by_cases hm : m = k
      · subst hm
        rw [Function.update_self]
        exact hknown hl hj
      · rw [Function.update_of_ne hm]
        exact h.frame hne hj
  · intro l m a b r hne hr
    by_cases hl : l = k
    · subst hl
      rw [Function.update_self] at hr
      rw [Function.update_of_ne hne.symm]
      exact fun hm => howned hne.symm hm hr
    · rw [Function.update_of_ne hl] at hr
      by_cases hm : m = k
      · subst hm
        rw [Function.update_self]
        exact howned hl hr
      · rw [Function.update_of_ne hm]
        exact h.object hne hr

/-- No instance has been made yet. -/
theorem start (p : Program) (σ : Store) :
    Apart p σ.globals (fun _ => .empty) (fun _ => (.null, σ)) (fun _ => .null) σ where
  store _ :=
    { globals := fun x hx => by
        rw [show σ.globals.lookup x = none from hx]
        exact .none
      frames := ⟨False.elim, False.elim, False.elim⟩
      binding := False.elim
      bound := False.elim
      plain := False.elim
      apart := False.elim
      bare := False.elim
      hidden := False.elim
      placed := False.elim
      objects := ⟨False.elim, False.elim, False.elim⟩
      fields := False.elim
      tags := ⟨False.elim, False.elim, False.elim⟩
      trace := False.elim
      output := False.elim
      recorded := False.elim
      aside := Aside.nothing_kept _ _ }
  gen _ := .null
  frame _ h := absurd h (by rintro (h | ⟨_, h⟩) <;> exact h)
  object _ h := h.elim
  unbound _ hx := hx

/-- However the instances take turns, each gives the answers that it gives by
itself; and where they do not come to an end, one of them does not by itself. -/
theorem play (h : Apart p globals P alone gens σ) {id : FuncId}
    (hclosed : ∀ x, p.Looks x id → globals.lookup x = none) (schedule : List (Nat × Event))
    (hargs : ∀ k args, (k, Event.create args) ∈ schedule → ∀ v ∈ args, v.isPrimitive = true)
    (limit fuel : Nat) :
    (∃ answers τ, play ⟨p, limit⟩ fuel id schedule gens σ = some (answers, τ) ∧ ∀ k,
      ∃ answers' τ' Q,
        playAlone ⟨p, limit⟩ fuel id (partOf k schedule) (alone k).1 (alone k).2 =
          some (answers', τ') ∧
        StorePair (.twin p globals .nothing) Q τ' τ ∧ P k ≤ Q ∧
        List.Forall₂ (AnswerPair (.twin p globals .nothing) Q) answers' (partOf k answers)) ∨
    (play ⟨p, limit⟩ fuel id schedule gens σ = none ∧
      ∃ k, playAlone ⟨p, limit⟩ fuel id (partOf k schedule) (alone k).1 (alone k).2 = none) := by
  induction schedule generalizing P alone gens σ with
  | nil =>
      exact .inl ⟨[], σ, rfl, fun k => ⟨[], (alone k).2, P k, rfl, h.store k, Pairing.le_refl _, .nil⟩⟩
  | cons entry rest ih =>
      obtain ⟨k, e⟩ := entry
      have hrest : ∀ k args, (k, Event.create args) ∈ rest → ∀ v ∈ args, v.isPrimitive = true :=
        fun k args hmem => hargs k args (.tail _ hmem)
      have hevent := e.outcomes hclosed ((h.store k).putAside (h.kept k)) (h.gen k).putAside
        (fun args he => hargs k args (he ▸ .head _)) limit fuel
      generalize hrun : e.run ⟨p, limit⟩ fuel id (gens k) σ = o at hevent
      generalize halone : e.run ⟨p, limit⟩ fuel id (alone k).1 (alone k).2 = o' at hevent
      cases hevent with
      | none =>
          refine .inr ⟨play_none hrun rest, k, ?_⟩
          rw [partOf_cons, if_pos rfl, playAlone_none halone]
      | @some Q a' a τ' τ hle hτ hpairs =>
          obtain ⟨a, gen⟩ := a
          obtain ⟨a', gen'⟩ := a'
          rcases ih (h.next k hle hτ hpairs.2) hrest with ⟨answers, υ, hplay, hparts⟩ | ⟨hplay, l, hl⟩
          · refine .inl ⟨(k, a) :: answers, υ, by rw [play_cons hrun, hplay]; rfl, fun l => ?_⟩
            obtain ⟨answers', υ', R, hpart, hυ, hmore, hanswers⟩ := hparts l
            by_cases hl : l = k
            · subst hl
              rw [Function.update_self] at hpart hmore
              refine ⟨a' :: answers', υ', R, ?_, hυ, Pairing.le_trans hle hmore, ?_⟩
              · rw [partOf_cons, if_pos rfl, playAlone_cons halone, hpart]
                rfl
              · rw [partOf_cons, if_pos rfl]
                exact .cons (hpairs.1.putAside.mono hmore) hanswers
            · rw [Function.update_of_ne hl] at hpart hmore
              refine ⟨answers', υ', R, ?_, hυ, hmore, ?_⟩
              · rw [partOf_cons, if_neg (Ne.symm hl), hpart]
              · rwa [partOf_cons, if_neg (Ne.symm hl)]
          · refine .inr ⟨by rw [play_cons hrun, hplay]; rfl, l, ?_⟩
            by_cases hk : l = k
            · subst hk
              rw [Function.update_self] at hl
              rw [partOf_cons, if_pos rfl, playAlone_cons halone, hl]
              rfl
            · rw [Function.update_of_ne hk] at hl
              rw [partOf_cons, if_neg (Ne.symm hk), hl]

end Apart

/-! ## The result -/

inductive Likeness.Answers (L : Likeness) : Answer → Answer → Prop where
  | created {r r' : Except Failure Value} : L.Results r r' → Answers L (.created r) (.created r')
  | yielded {v v' : Value} : L.Values v v' →
      Answers L (.resumed (.yielded v)) (.resumed (.yielded v'))
  | done : Answers L (.resumed .done) (.resumed .done)
  | failed {f f' : Failure} : L.Results (.error f) (.error f') →
      Answers L (.resumed (.failed f)) (.resumed (.failed f'))

/-- Identities are chosen one to one, and objects that stand for each other have
the same fields. -/
structure Likeness.Matches (L : Likeness) (σ σ' : Store) : Prop where
  frames : Embeds L.frame σ.frames.size σ'.frames.size
  tags : Embeds L.tag σ.tags σ'.tags
  objects : Embeds L.object σ.objects.size σ'.objects.size
  fields : ∀ r r', L.object r r' → L.Objects (σ.fields r) (σ'.fields r')

theorem AnswerPair.alike {S : Sides} {P : Pairing} {a a' : Answer} (h : AnswerPair S P a a') :
    P.likeness.Answers a a' := by
  cases h with
  | created hr => exact .created hr.alike
  | resumed hr =>
      cases hr with
      | yielded hv => exact .yielded hv.alike
      | done => exact .done
      | failed hf => exact .failed hf.alike

/-- Instances of a lowered function do not interfere. Let a function find all
variables that it and the functions made in it mention in their own frames, or else
nowhere. Then for any number of calls of what it is lowered to, with primitive
arguments, and for any order of resumptions of the objects they return, each object
gives the same answers as if it alone were made and resumed, up to a choice of
identities. If all of them come to an end alone, they do so together. -/
theorem instances_apart {config : Pass.Config} {builtins : Option Generator.Builtins} {id : FuncId}
    {w w' : Workspace} {stats : Pass.Stats} (howned : w.program.Owned) (happart : w.program.Apart id)
    (h : Pass.transform config builtins id w = .ok stats w') {σ : Store}
    (hclosed : ∀ x, w.program.Looks x id → σ.globals.lookup x = none) (schedule : List (Nat × Event))
    (hargs : ∀ k args, (k, Event.create args) ∈ schedule → ∀ v ∈ args, v.isPrimitive = true)
    (limit fuel : Nat) :
    (∀ answers τ, play ⟨w'.program, limit⟩ fuel id schedule (fun _ => .null) σ = some (answers, τ) →
      ∀ k, ∃ answers' τ' L,
        playAlone ⟨w'.program, limit⟩ fuel id (partOf k schedule) .null σ = some (answers', τ') ∧
        Likeness.Matches L τ' τ ∧ List.Forall₂ L.Answers answers' (partOf k answers)) ∧
    ((∀ k, (playAlone ⟨w'.program, limit⟩ fuel id (partOf k schedule) .null σ).isSome) →
      (play ⟨w'.program, limit⟩ fuel id schedule (fun _ => .null) σ).isSome) := by
  have hlowered (x : Nat) (hx : w'.program.Looks x id) : σ.globals.lookup x = none :=
    hclosed x (Pass.looks_of_transform howned happart h hx)
  rcases (Apart.start w'.program σ).play hlowered schedule hargs limit fuel with
    ⟨answers, τ, hplay, hparts⟩ | ⟨hplay, k, hnone⟩
  · refine ⟨fun _ _ heq k => ?_, fun _ => Option.isSome_of_eq_some hplay⟩
    cases hplay.symm.trans heq
    obtain ⟨answers', τ', Q, halone, hτ, -, hanswers⟩ := hparts k
    exact ⟨answers', τ', Q.likeness, halone,
      ⟨hτ.frames, hτ.tags, hτ.objects, fun r r' hr => (hτ.fields hr).alike⟩,
      hanswers.imp fun _ _ ha => ha.alike⟩
  · refine ⟨fun answers τ heq => ?_, fun hall => ?_⟩
    · cases hplay.symm.trans heq
    · have hsome := hall k
      rw [hnone] at hsome
      cases hsome

/-- A generator that yields its argument, and once more through a closure. -/
def echo : Workspace :=
  let x : Variable := ⟨0, "x", .variant⟩
  let w := Generator.nestedGenerator [.yield (.ref x), .yield (.mkCall (.lambda 2 .variant) [])]
  { w with
    program := (w.program.modifyFunc 1 fun f => { f with params := [x] }).modifyFunc 2 fun f =>
      { f with body := [.ret (.ref x)] } }

def turns : List (Nat × Event) :=
  [(0, .create [.int 1]), (1, .create [.int 2]), (0, .resume), (1, .resume), (1, .resume),
    (0, .resume), (0, .resume)]

def Answer.int? : Answer → Option Int64
  | .resumed (.yielded (.int n)) => some n
  | _ => none

/-- There is a global variable with the number of the parameter. -/
def shadowed : Store :=
  { globals := [(0, .int 9)] }

theorem not_looks_echo (x : Nat) : ¬ echo.program.Looks x 1 := by
  have hinner : ¬ (x ≠ 0 ∧ echo.program.Looks x 2) := by
    rintro ⟨hx, ⟨hf, hmem, -⟩ | ⟨hf, hg, -⟩⟩
    · cases hf
      exact hx (List.mem_singleton.1 hmem)
    · cases hf
      cases hg
  rintro (⟨hf, hmem, hown⟩ | ⟨hf, hg, hx, hown⟩)
  · cases hf
    exact hown hmem
  · cases hf
    cases List.mem_singleton.1 hg
    exact hinner ⟨fun h => hown (h ▸ .head _), hx⟩

theorem instances_apart_echo : ∃ stats w' answers τ,
    Pass.transform {} (some Pass.singleBuiltins) 1 echo = .ok stats w' ∧
    play ⟨w'.program, 10⟩ 1000 1 turns (fun _ => .null) shadowed = some (answers, τ) ∧
    (partOf 0 answers).filterMap Answer.int? = [1, 1] ∧
    (partOf 1 answers).filterMap Answer.int? = [2, 2] ∧
    ∀ k, ∃ answers' τ' L,
      playAlone ⟨w'.program, 10⟩ 1000 1 (partOf k turns) .null shadowed = some (answers', τ') ∧
      Likeness.Matches L τ' τ ∧ List.Forall₂ L.Answers answers' (partOf k answers) := by
  have howned : echo.program.Owned :=
    (Program.wellFormed_of_ids (((Generator.forest_nestedGenerator _).modifyFunc (by intro f; rfl)
      (by intro f; rfl) 1).modifyFunc (by intro f; rfl) (by intro f; rfl) 2)
      (by decide +kernel)).toOwned
  have hseparate : echo.program.Separate := Program.separate_of_ids (by decide +kernel)
  obtain ⟨stats, w', hok, hruns⟩ := Lowering.ok_of_succeeds
    (show Lowering.succeeds (Pass.transform {} (some Pass.singleBuiltins) 1) echo (fun w' =>
      (play ⟨w'.program, 10⟩ 1000 1 turns (fun _ => .null) shadowed).any fun played =>
        (partOf 0 played.1).filterMap Answer.int? = [1, 1] &&
          (partOf 1 played.1).filterMap Answer.int? = [2, 2]) = true by decide +kernel)
  obtain ⟨⟨answers, τ⟩, hplay, hyields⟩ := (Option.any_eq_true _ _).1 hruns
  simp only [Bool.and_eq_true, decide_eq_true_eq] at hyields
  refine ⟨stats, w', answers, τ, hok, hplay, hyields.1, hyields.2, ?_⟩
  refine (instances_apart howned (hseparate.apart 1) hok
    (fun x hx => absurd hx (not_looks_echo x)) turns ?_ 10 1000).1 answers τ hplay
  intro k args hmem v hv
  simp only [turns, List.mem_cons, Prod.mk.injEq, Event.create.injEq, reduceCtorEq, and_false,
    or_false, List.not_mem_nil] at hmem
  rcases hmem with ⟨-, rfl⟩ | ⟨-, rfl⟩
  · rw [List.mem_singleton.1 hv]
    rfl
  · rw [List.mem_singleton.1 hv]
    rfl

end Resumable
