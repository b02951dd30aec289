import Resumable.Proofs.Pairing.Basic

/-!
# Paired stores

What a pairing says of the contents of two stores, and how reading and writing
variables keep it.
-/

namespace Resumable

/-! ## Bindings -/

def Store.binding (σ : Store) (f : FrameId) (x : Nat) : Option Value :=
  (σ.frames.getD f []).lookup x

theorem Bindings.lookup_bind (bs : Bindings) (v : Variable) (x : Value) (y : Nat) :
    (bs.bind v x).lookup y = if y = v.id then some x else bs.lookup y := by
  induction bs with
  | nil =>
      by_cases hy : y = v.id
      · simp [bind, hy]
      · simp [bind, List.lookup_cons, beq_false_of_ne hy, hy]
  | cons b rest ih =>
      obtain ⟨id, z⟩ := b
      by_cases hid : id = v.id
      · by_cases hy : y = v.id
        · simp [bind, hid, hy]
        · simp [bind, hid, List.lookup_cons, hy, beq_false_of_ne hy]
      · by_cases hy : y = id
        · subst hy
          simp [bind, hid]
        · simp [bind, hid, List.lookup_cons, beq_false_of_ne hy, ih]

theorem Store.frameOf?_cons (σ : Store) (v : Variable) (f : FrameId) (rest : Env) :
    σ.frameOf? v (f :: rest) =
      if (σ.binding f v.id).isSome then some f else σ.frameOf? v rest := rfl

/-- The value of a variable in the innermost frame that has it, or else its
global value. -/
def Store.find? (σ : Store) (env : Env) (v : Variable) : Option Value :=
  match σ.frameOf? v env with
  | some f => σ.binding f v.id
  | none => σ.globals.lookup v.id

theorem Store.lookup_eq (σ : Store) (env : Env) (v : Variable) :
    σ.lookup env v =
      match σ.find? env v with
      | some x => .ok x
      | none => .error (.eval .notFound ("undefined variable " ++ v.name)) := rfl

theorem Store.binding_newFrame (σ : Store) (bs : Bindings) (f : FrameId) (x : Nat) :
    (σ.newFrame bs).2.binding f x = if f = σ.frames.size then bs.lookup x else σ.binding f x := by
  unfold binding newFrame
  by_cases h : f = σ.frames.size
  · simp [h, Array.getD_eq_getD_getElem?]
  · simp [h, Array.getD_eq_getD_getElem?, Array.getElem?_push]

theorem Store.binding_of_size_le {σ : Store} {f : FrameId} (h : σ.frames.size ≤ f) (x : Nat) :
    σ.binding f x = none := by
  simp [binding, Array.getD_eq_getD_getElem?, Array.getElem?_eq_none h]

def Store.setBinding (σ : Store) (f : FrameId) (v : Variable) (x : Value) : Store :=
  { σ with frames := σ.frames.modify f fun bs => Bindings.bind bs v x }

theorem Store.binding_setBinding {σ : Store} {f : FrameId} (hf : f < σ.frames.size) (v : Variable)
    (x : Value) (g : FrameId) (y : Nat) :
    (σ.setBinding f v x).binding g y =
      if g = f ∧ y = v.id then some x else σ.binding g y := by
  unfold binding setBinding
  by_cases hg : g = f
  · subst hg
    have hget : σ.frames[g]? = some (σ.frames.getD g []) := by
      simp [Array.getD_eq_getD_getElem?, hf]
    rw [Array.getD_eq_getD_getElem?, Array.getElem?_modify, if_pos rfl, hget]
    simp [Bindings.lookup_bind]
  · simp [Array.getD_eq_getD_getElem?, Array.getElem?_modify, hg, Ne.symm hg]

/-- A setting leaves all but the variable of the frame alone. -/
theorem Store.binding_setBinding_of_ne (σ : Store) {f g : FrameId} {v : Variable} {y : Nat}
    (h : ¬ (g = f ∧ y = v.id)) (x : Value) : (σ.setBinding f v x).binding g y = σ.binding g y := by
  by_cases hf : f < σ.frames.size
  · rw [binding_setBinding hf, if_neg h]
  · have hsame : σ.frames.modify f (fun bs => Bindings.bind bs v x) = σ.frames := by
      apply Array.ext_getElem?
      intro i
      rw [Array.getElem?_modify]
      split
      · next h => simp [← h, Array.getElem?_eq_none (Nat.not_lt.1 hf)]
      · rfl
    simp only [binding, setBinding, hsame]

/-! ## Fields -/

theorem Store.fields_newObject (σ : Store) (fs : Fields) (r : Nat) :
    (σ.newObject fs).2.fields r = if r = σ.objects.size then fs else σ.fields r := by
  unfold fields newObject
  by_cases h : r = σ.objects.size
  · simp [h, Array.getD_eq_getD_getElem?]
  · simp [h, Array.getD_eq_getD_getElem?, Array.getElem?_push]

theorem Store.fields_modifyFields {σ : Store} {r : Nat} (hr : r < σ.objects.size)
    (change : Fields → Fields) (a : Nat) :
    (σ.modifyFields r change).fields a = if a = r then change (σ.fields r) else σ.fields a := by
  unfold fields modifyFields
  by_cases ha : a = r
  · subst ha
    have hget : σ.objects[a]? = some (σ.objects.getD a []) := by
      simp [Array.getD_eq_getD_getElem?, hr]
    rw [Array.getD_eq_getD_getElem?, Array.getElem?_modify, if_pos rfl, hget]
    simp
  · simp [Array.getD_eq_getD_getElem?, Array.getElem?_modify, ha, Ne.symm ha]

/-! ## Paired stores -/

structure Aside.Kept (A : Aside) (P : Pairing) (σ : Store) : Prop where
  frame : ∀ {j}, A.frame j → j < σ.frames.size ∧ ¬ P.Knows j
  binding : ∀ {j}, A.frame j → ∀ x, σ.binding j x = A.store.binding j x
  object : ∀ {r}, A.object r → r < σ.objects.size ∧ ∀ a, ¬ P.object a r
  fields : ∀ {r}, A.object r → σ.fields r = A.store.fields r
  unbound : ∀ {x}, A.unbound x → σ.globals.lookup x = none
  tags : A.store.tags ≤ σ.tags

namespace Aside

theorem nothing_kept (P : Pairing) (σ : Store) : nothing.Kept P σ where
  frame := False.elim
  binding := False.elim
  object := False.elim
  fields := False.elim
  unbound := False.elim
  tags := Nat.zero_le _

namespace Kept

variable {A : Aside} {P : Pairing} {σ : Store}

theorem setTrace (h : A.Kept P σ) (notes : Array String) :
    A.Kept P { σ with trace := notes } :=
  ⟨h.frame, h.binding, h.object, h.fields, h.unbound, h.tags⟩

theorem logLine (h : A.Kept P σ) (line : String) : A.Kept P (σ.logLine line) :=
  ⟨h.frame, h.binding, h.object, h.fields, h.unbound, h.tags⟩

theorem record (h : A.Kept P σ) (vs : Array Value) : A.Kept P { σ with recorded := vs } :=
  ⟨h.frame, h.binding, h.object, h.fields, h.unbound, h.tags⟩

/-- What is aside stays so as a pairing takes in other things. -/
theorem grow (h : A.Kept P σ) {Q : Pairing} (hframe : ∀ j, Q.Knows j → P.Knows j ∨ ¬ A.frame j)
    (hobject : ∀ a r, Q.object a r → P.object a r ∨ ¬ A.object r) : A.Kept Q σ :=
  { h with
    frame := fun {j} hj => ⟨(h.frame hj).1, fun hk =>
      (hframe j hk).elim (h.frame hj).2 fun hnot => hnot hj⟩
    object := fun {r} hr => ⟨(h.object hr).1, fun a ha =>
      (hobject a r ha).elim ((h.object hr).2 a) fun hnot => hnot hr⟩ }

theorem newTag (h : A.Kept P σ) : A.Kept P σ.newTag.2 :=
  { h with tags := Nat.le_succ_of_le h.tags }

theorem newFrame (h : A.Kept P σ) (bs : Bindings) : A.Kept P (σ.newFrame bs).2 :=
  { h with
    frame := fun hj => by
      have hlt := (h.frame hj).1
      simp only [Store.newFrame, Array.size_push]
      exact ⟨Nat.lt_succ_of_lt hlt, (h.frame hj).2⟩
    binding := fun hj x => by
      rw [Store.binding_newFrame, if_neg (Nat.ne_of_lt (h.frame hj).1)]
      exact h.binding hj x }

theorem newObject (h : A.Kept P σ) (fs : Fields) : A.Kept P (σ.newObject fs).2 :=
  { h with
    object := fun hr => by
      have hlt := (h.object hr).1
      simp only [Store.newObject, Array.size_push]
      exact ⟨Nat.lt_succ_of_lt hlt, (h.object hr).2⟩
    fields := fun hr => by
      rw [Store.fields_newObject, if_neg (Nat.ne_of_lt (h.object hr).1)]
      exact h.fields hr }

/-- A frame that is not aside may be written. -/
theorem setBinding_away (h : A.Kept P σ) {j : FrameId} (haway : ¬ A.frame j) (hj : j < σ.frames.size)
    (v : Variable) (x : Value) : A.Kept P (σ.setBinding j v x) :=
  { h with
    frame := fun ha => by simpa [Store.setBinding] using h.frame ha
    binding := fun ha y => by
      rw [Store.binding_setBinding hj, if_neg]
      · exact h.binding ha y
      · rintro ⟨rfl, -⟩
        exact haway ha }

theorem setBinding (h : A.Kept P σ) {i j : FrameId} (hf : P.frame i j) (hj : j < σ.frames.size)
    (v : Variable) (x : Value) : A.Kept P (σ.setBinding j v x) :=
  h.setBinding_away (fun ha => (h.frame ha).2 (.inr ⟨i, hf⟩)) hj v x

/-- An object that is not to be left alone may be changed. -/
theorem modifyFields_away (h : A.Kept P σ) {r : Nat} (haway : ¬ A.object r) (hr : r < σ.objects.size)
    (change : Fields → Fields) : A.Kept P (σ.modifyFields r change) :=
  { h with
    object := fun ha => by simpa [Store.modifyFields] using h.object ha
    fields := fun ha => by
      rw [Store.fields_modifyFields hr, if_neg]
      · exact h.fields ha
      · rintro rfl
        exact haway ha }

theorem modifyFields (h : A.Kept P σ) {r r' : Nat} (hr : P.object r r') (hlt : r' < σ.objects.size)
    (change : Fields → Fields) : A.Kept P (σ.modifyFields r' change) :=
  h.modifyFields_away (fun ha => (h.object ha).2 r hr) hlt change

end Kept

end Aside

structure StorePair (S : Sides) (P : Pairing) (σ σ' : Store) : Prop where
  globals : ∀ x, S.common x → OptionPair S P (σ.globals.lookup x) (σ'.globals.lookup x)
  frames : Embeds P.frame σ.frames.size σ'.frames.size
  binding : ∀ {i j x}, P.frame i j → ¬ P.Hides j x → OptionPair S P (σ.binding i x) (σ'.binding j x)
  bound : ∀ {i x}, P.bound i x → (σ.binding i x).isSome
  plain : ∀ {j}, P.plain j → j < σ'.frames.size
  apart : ∀ {i j}, P.frame i j → ¬ P.plain j
  bare : ∀ {j x}, P.plain j → ¬ P.Hides j x → σ'.binding j x = none
  hidden : ∀ {j x v}, P.hidden j x v → σ'.binding j x = some v
  placed : ∀ {j x v}, P.hidden j x v → P.Knows j
  objects : Embeds P.object σ.objects.size σ'.objects.size
  fields : ∀ {r r'}, P.object r r' → FieldsPair S P (σ.fields r) (σ'.fields r')
  tags : Embeds P.tag σ.tags σ'.tags
  trace : S.heard → σ.trace = σ'.trace
  output : S.heard → σ.output = σ'.output
  recorded : S.heard → List.Forall₂ (ValuePair S P) σ.recorded.toList σ'.recorded.toList
  aside : S.aside.Kept P σ'

namespace StorePair

variable {S : Sides} {P : Pairing} {σ σ' : Store}

theorem knows_lt (h : StorePair S P σ σ') {j : FrameId} (hj : P.Knows j) : j < σ'.frames.size := by
  rcases hj with hj | ⟨i, hj⟩
  · exact h.plain hj
  · exact h.frames.right hj

/-- A new frame is not aside. -/
theorem away_frame (h : StorePair S P σ σ') : ¬ S.aside.frame σ'.frames.size :=
  fun hj => Nat.lt_irrefl _ (h.aside.frame hj).1

/-- A new object is not aside. -/
theorem away_object (h : StorePair S P σ σ') : ¬ S.aside.object σ'.objects.size :=
  fun hr => Nat.lt_irrefl _ (h.aside.object hr).1

/-! ## Reading and writing variables -/

/-- Frames that agree on a variable find it in paired frames, or not at all. -/
theorem frameOf (h : StorePair S P σ σ') {v : Variable} {env env' : Env}
    (ha : P.Agrees S v.id env env') :
    (σ.frameOf? v env = none ∧ σ'.frameOf? v env' = none ∧ S.common v.id) ∨
    ∃ i j, σ.frameOf? v env = some i ∧ σ'.frameOf? v env' = some j ∧ P.frame i j ∧
      ¬ P.Hides j v.id := by
  induction ha with
  | nil hc => exact .inl ⟨rfl, rfl, hc⟩
  | @found i j env env' hf hh hb =>
      have hi := h.bound hb
      have hj := (h.binding hf hh).isSome_eq ▸ hi
      exact .inr ⟨i, j, by rw [Store.frameOf?_cons, if_pos hi],
        by rw [Store.frameOf?_cons, if_pos hj], hf, hh⟩
  | @frame i j env env' hf hh _ ih =>
      rw [Store.frameOf?_cons, Store.frameOf?_cons, (h.binding hf hh).isSome_eq]
      split
      · exact .inr ⟨i, j, rfl, rfl, hf, hh⟩
      · exact ih
  | @plain j env env' hp hh _ ih =>
      rw [Store.frameOf?_cons, h.bare hp hh]
      exact ih

theorem find (h : StorePair S P σ σ') {v : Variable} {env env' : Env}
    (ha : P.Agrees S v.id env env') : OptionPair S P (σ.find? env v) (σ'.find? env' v) := by
  unfold Store.find?
  rcases h.frameOf ha with ⟨h₁, h₂, hc⟩ | ⟨i, j, h₁, h₂, hf, hh⟩
  · rw [h₁, h₂]
    exact h.globals _ hc
  · rw [h₁, h₂]
    exact h.binding hf hh

/-- A variable has corresponding values, or is undefined on both sides. -/
theorem lookup (h : StorePair S P σ σ') {v : Variable} {env env' : Env}
    (ha : P.Agrees S v.id env env') :
    (∃ x x', σ.lookup env v = .ok x ∧ σ'.lookup env' v = .ok x' ∧ ValuePair S P x x') ∨
    ∃ f, σ.lookup env v = .error f ∧ σ'.lookup env' v = .error f ∧ ∀ x, f ≠ .thrown x := by
  have hfound := h.find ha
  rw [Store.lookup_eq, Store.lookup_eq]
  generalize σ.find? env v = o at hfound ⊢
  generalize σ'.find? env' v = o' at hfound ⊢
  cases hfound with
  | none => exact .inr ⟨_, rfl, rfl, nofun⟩
  | some hv => exact .inl ⟨_, _, rfl, rfl, hv⟩

theorem declared (h : StorePair S P σ σ') {v : Variable} {env env' : Env}
    (ha : P.Agrees S v.id env env') : σ.declared env v = σ'.declared env' v := by
  unfold Store.declared
  rcases h.frameOf ha with ⟨h₁, h₂, hc⟩ | ⟨i, j, h₁, h₂, -⟩
  · simp only [h₁, h₂, Bindings.get?, (h.globals _ hc).isSome_eq]
  · simp [h₁, h₂]

/-- Paired frames stay paired when a variable that is not hidden is written in
both. -/
theorem setBinding (h : StorePair S P σ σ') {i j : FrameId} {v : Variable} {x x' : Value}
    (hf : P.frame i j) (hh : ¬ P.Hides j v.id) (hx : ValuePair S P x x') :
    StorePair S P (σ.setBinding i v x) (σ'.setBinding j v x') where
  globals := h.globals
  frames := by simpa [Store.setBinding] using h.frames
  binding {a b y} hab hy := by
    rw [Store.binding_setBinding (h.frames.left hf), Store.binding_setBinding (h.frames.right hf)]
    have heq : a = i ↔ b = j := h.frames.eq_iff hab hf
    by_cases hcase : b = j ∧ y = v.id
    · rw [if_pos hcase, if_pos ⟨heq.2 hcase.1, hcase.2⟩]
      exact .some hx
    · rw [if_neg hcase, if_neg fun hc => hcase ⟨heq.1 hc.1, hc.2⟩]
      exact h.binding hab hy
  bound {a y} hb := by
    rw [Store.binding_setBinding (h.frames.left hf)]
    split
    · rfl
    · exact h.bound hb
  plain hp := by simpa [Store.setBinding] using h.plain hp
  apart := h.apart
  bare {b y} hp hy := by
    rw [Store.binding_setBinding (h.frames.right hf), if_neg]
    · exact h.bare hp hy
    · rintro ⟨rfl, -⟩
      exact h.apart hf hp
  hidden {b y z} hz := by
    rw [Store.binding_setBinding (h.frames.right hf), if_neg]
    · exact h.hidden hz
    · rintro ⟨rfl, rfl⟩
      exact hh ⟨z, hz⟩
  placed := h.placed
  objects := h.objects
  fields := h.fields
  tags := h.tags
  trace := h.trace
  output := h.output
  recorded := h.recorded
  aside := h.aside.setBinding hf (h.frames.right hf) v x'

theorem setGlobals (h : StorePair S P σ σ') {gs gs' : Bindings}
    (hg : ∀ x, S.common x → OptionPair S P (gs.lookup x) (gs'.lookup x))
    (hunbound : ∀ x, S.aside.unbound x → gs'.lookup x = none) :
    StorePair S P { σ with globals := gs } { σ' with globals := gs' } :=
  { h with
    globals := hg
    aside := { h.aside with unbound := hunbound _ } }

theorem setTrace (h : StorePair S P σ σ') (notes : Array String) :
    StorePair S P { σ with trace := notes } { σ' with trace := notes } :=
  { h with
    trace := fun _ => rfl
    aside := h.aside.setTrace notes }

theorem logLine (h : StorePair S P σ σ') (line : String) :
    StorePair S P (σ.logLine line) (σ'.logLine line) :=
  { h with
    output := fun hheard => by simp only [Store.logLine, h.output hheard]
    aside := h.aside.logLine line }

theorem assign (h : StorePair S P σ σ') {v : Variable} {env env' : Env} {x x' : Value}
    (ha : P.Agrees S v.id env env') (hx : ValuePair S P x x') :
    StorePair S P (σ.assign env v x) (σ'.assign env' v x') := by
  unfold Store.assign
  rcases h.frameOf ha with ⟨h₁, h₂, hc⟩ | ⟨i, j, h₁, h₂, hf, hh⟩
  · have hsome : (Bindings.get? σ.globals v).isSome = (Bindings.get? σ'.globals v).isSome :=
      (h.globals _ hc).isSome_eq
    simp only [h₁, h₂, hsome]
    split
    · next hbound =>
        refine h.setGlobals (fun y hy => ?_) (fun y hy => ?_)
        · rw [Bindings.lookup_bind, Bindings.lookup_bind]
          split
          · exact .some hx
          · exact h.globals y hy
        · rw [Bindings.lookup_bind, if_neg]
          · exact h.aside.unbound hy
          · rintro rfl
            rw [Bindings.get?, h.aside.unbound hy] at hbound
            cases hbound
    · exact h
  · rw [h₁, h₂]
    exact h.setBinding hf hh hx

/-! ## Changes of the second store alone -/

end StorePair

/-- The second of two stores differs from the first only in what a pairing says
nothing of. -/
structure Beyond (P : Pairing) (σ τ : Store) : Prop where
  globals : τ.globals = σ.globals
  frames : σ.frames.size ≤ τ.frames.size
  binding : ∀ {j}, P.Knows j → ∀ x, τ.binding j x = σ.binding j x
  objects : σ.objects.size ≤ τ.objects.size
  fields : ∀ {r r'}, P.object r r' → τ.fields r' = σ.fields r'
  tags : σ.tags ≤ τ.tags
  trace : τ.trace = σ.trace
  output : τ.output = σ.output
  recorded : τ.recorded = σ.recorded

namespace Beyond

variable {P : Pairing} {σ τ υ : Store}

protected theorem refl (P : Pairing) (σ : Store) : Beyond P σ σ :=
  ⟨rfl, Nat.le_refl _, fun _ _ => rfl, Nat.le_refl _, fun _ => rfl, Nat.le_refl _, rfl, rfl, rfl⟩

theorem trans (first : Beyond P σ τ) (second : Beyond P τ υ) : Beyond P σ υ where
  globals := second.globals.trans first.globals
  frames := Nat.le_trans first.frames second.frames
  binding hj x := (second.binding hj x).trans (first.binding hj x)
  objects := Nat.le_trans first.objects second.objects
  fields hr := (second.fields hr).trans (first.fields hr)
  tags := Nat.le_trans first.tags second.tags
  trace := second.trace.trans first.trace
  output := second.output.trans first.output
  recorded := second.recorded.trans first.recorded

theorem newTag (P : Pairing) (σ : Store) : Beyond P σ σ.newTag.2 :=
  { Beyond.refl P σ with tags := Nat.le_succ _ }

theorem newFrame (bs : Bindings) (hlt : ∀ {j}, P.Knows j → j < σ.frames.size) :
    Beyond P σ (σ.newFrame bs).2 :=
  { Beyond.refl P σ with
    frames := by simp [Store.newFrame]
    binding := fun hj x => by rw [Store.binding_newFrame, if_neg (Nat.ne_of_lt (hlt hj))] }

theorem setBinding {f : FrameId} (hf : ¬ P.Knows f) (v : Variable) (x : Value) :
    Beyond P σ (σ.setBinding f v x) :=
  { Beyond.refl P σ with
    frames := by simp [Store.setBinding]
    binding := fun {j} hj y => by
      refine Store.binding_setBinding_of_ne σ ?_ x
      rintro ⟨rfl, -⟩
      exact hf hj }

theorem newObject (fs : Fields) (hlt : ∀ {r r'}, P.object r r' → r' < σ.objects.size) :
    Beyond P σ (σ.newObject fs).2 :=
  { Beyond.refl P σ with
    objects := by simp [Store.newObject]
    fields := fun hr => by rw [Store.fields_newObject, if_neg (Nat.ne_of_lt (hlt hr))] }

end Beyond

namespace StorePair

variable {S : Sides} {P : Pairing} {σ σ' : Store}

theorem beyond (h : StorePair S P σ σ') {τ : Store} (hb : Beyond P σ' τ)
    (haside : S.aside.Kept P τ) : StorePair S P σ τ where
  globals x hx := by rw [hb.globals]; exact h.globals x hx
  frames := h.frames.widen (Nat.le_refl _) hb.frames
  binding hf hh := by rw [hb.binding (.inr ⟨_, hf⟩)]; exact h.binding hf hh
  bound := h.bound
  plain hp := Nat.lt_of_lt_of_le (h.plain hp) hb.frames
  apart := h.apart
  bare hp hh := by rw [hb.binding (.inl hp)]; exact h.bare hp hh
  hidden hv := by rw [hb.binding (h.placed hv)]; exact h.hidden hv
  placed := h.placed
  objects := h.objects.widen (Nat.le_refl _) hb.objects
  fields hr := by rw [hb.fields hr]; exact h.fields hr
  tags := h.tags.widen (Nat.le_refl _) hb.tags
  trace hheard := (h.trace hheard).trans hb.trace.symm
  output hheard := (h.output hheard).trans hb.output.symm
  recorded hheard := by rw [hb.recorded]; exact h.recorded hheard
  aside := haside

end StorePair

end Resumable
