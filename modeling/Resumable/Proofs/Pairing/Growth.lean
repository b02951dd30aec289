import Resumable.Proofs.Pairing.Store
import Resumable.Machine.Step

/-!
# Growing pairings

How a pairing takes in what a run makes: frames, function identities and
objects of both stores, and frames of the second store alone.
-/

namespace Resumable

namespace Pairing

/-- Pairs two frames; the first binds the variables `names`, and `hid` is hidden
in the second. -/
def addFrame (P : Pairing) (i j : FrameId) (names : Nat → Prop) (hid : Nat → Value → Prop) :
    Pairing :=
  { P with
    frame := fun a b => P.frame a b ∨ (a = i ∧ b = j)
    bound := fun a x => P.bound a x ∨ (a = i ∧ names x)
    hidden := fun b x v => P.hidden b x v ∨ (b = j ∧ hid x v) }

def addPlain (P : Pairing) (j : FrameId) (hid : Nat → Value → Prop) : Pairing :=
  { P with
    plain := fun b => P.plain b ∨ b = j
    hidden := fun b x v => P.hidden b x v ∨ (b = j ∧ hid x v) }

def addTag (P : Pairing) (t t' : Nat) : Pairing :=
  { P with tag := fun a b => P.tag a b ∨ (a = t ∧ b = t') }

def addObject (P : Pairing) (r r' : Nat) : Pairing :=
  { P with object := fun a b => P.object a b ∨ (a = r ∧ b = r') }

variable {P : Pairing}

theorem le_addFrame (i : FrameId) {j : FrameId} (names : Nat → Prop) (hid : Nat → Value → Prop)
    (hj : ¬ P.Knows j) : P ≤ P.addFrame i j names hid where
  frame := .inl
  bound := .inl
  plain h := h
  hidden := .inl
  tag h := h
  object h := h
  settled hb h := by
    rcases h with h | ⟨rfl, -⟩
    · exact h
    · exact absurd hb hj

theorem le_addPlain {j : FrameId} (hid : Nat → Value → Prop) (hj : ¬ P.Knows j) :
    P ≤ P.addPlain j hid where
  frame h := h
  bound h := h
  plain := .inl
  hidden := .inl
  tag h := h
  object h := h
  settled hb h := by
    rcases h with h | ⟨rfl, -⟩
    · exact h
    · exact absurd hb hj

theorem le_addTag (t t' : Nat) : P ≤ P.addTag t t' where
  frame h := h
  bound h := h
  plain h := h
  hidden h := h
  tag := .inl
  object h := h
  settled _ h := h

theorem le_addObject (r r' : Nat) : P ≤ P.addObject r r' where
  frame h := h
  bound h := h
  plain h := h
  hidden h := h
  tag h := h
  object := .inl
  settled _ h := h

end Pairing

namespace StorePair

variable {S : Sides} {P : Pairing} {σ σ' : Store}

theorem bound_lt (h : StorePair S P σ σ') {i : FrameId} {x : Nat} (hb : P.bound i x) :
    i < σ.frames.size := by
  by_contra hlt
  have hsome := h.bound hb
  rw [Store.binding_of_size_le (Nat.not_lt.1 hlt)] at hsome
  cases hsome

theorem recorded_mono (h : StorePair S P σ σ') {Q : Pairing} (hle : P ≤ Q) (hheard : S.heard) :
    List.Forall₂ (ValuePair S Q) σ.recorded.toList σ'.recorded.toList :=
  valuesPair_mono hle (h.recorded hheard)

/-- A new frame of the first store need not be paired. -/
theorem newFrame_left (h : StorePair S P σ σ') (bs : Bindings) :
    StorePair S P (σ.newFrame bs).2 σ' where
  globals := h.globals
  frames := h.frames.widen (by simp [Store.newFrame]) (Nat.le_refl _)
  binding hf hh := by
    rw [Store.binding_newFrame, if_neg (Nat.ne_of_lt (h.frames.left hf))]
    exact h.binding hf hh
  bound hb := by
    rw [Store.binding_newFrame, if_neg (Nat.ne_of_lt (h.bound_lt hb))]
    exact h.bound hb
  plain := h.plain
  apart := h.apart
  bare := h.bare
  hidden := h.hidden
  placed := h.placed
  objects := h.objects
  fields := h.fields
  tags := h.tags
  trace := h.trace
  output := h.output
  recorded := h.recorded
  aside := h.aside

/-- Two frames above those in the pairing are paired. -/
theorem pairFrames (h : StorePair S P σ σ') {i j : FrameId} (names : Nat → Prop)
    (hid : Nat → Value → Prop) (hi : i < σ.frames.size) (hj : j < σ'.frames.size)
    (hfresh : ¬ P.Knows j) (haway : ¬ S.aside.frame j)
    (hlast : ∀ {a b}, P.frame a b → a < i ∧ b < j)
    (hnames : ∀ x, names x → (σ.binding i x).isSome)
    (hvalues : ∀ x, (¬ ∃ v, hid x v) → OptionPair S P (σ.binding i x) (σ'.binding j x))
    (hhid : ∀ x v, hid x v → σ'.binding j x = some v) :
    StorePair S (P.addFrame i j names hid) σ σ' := by
  have hle : P ≤ P.addFrame i j names hid := Pairing.le_addFrame _ _ _ hfresh
  have hshown {b : FrameId} {x : Nat} (hh : ¬ (P.addFrame i j names hid).Hides b x) :
      ¬ P.Hides b x := by
    rintro ⟨v, hv⟩
    exact hh ⟨v, hle.hidden hv⟩
  refine
    { globals := fun x hx => (h.globals x hx).mono hle
      frames := h.frames.extend hi hj hlast
      binding := ?_
      bound := ?_
      plain := h.plain
      apart := ?_
      bare := fun hp hh => h.bare hp (hshown hh)
      hidden := ?_
      placed := ?_
      objects := h.objects
      fields := fun hr => (h.fields hr).mono hle
      tags := h.tags
      trace := h.trace
      output := h.output
      recorded := h.recorded_mono hle
      aside := ?_ }
  · rintro a b x (hab | ⟨rfl, rfl⟩) hh
    · exact (h.binding hab (hshown hh)).mono hle
    · refine (hvalues x ?_).mono hle
      rintro ⟨v, hv⟩
      exact hh ⟨v, .inr ⟨rfl, hv⟩⟩
  · rintro a x (hb | ⟨rfl, hb⟩)
    · exact h.bound hb
    · exact hnames x hb
  · rintro a b (hab | ⟨-, rfl⟩) hp
    · exact h.apart hab hp
    · exact hfresh (.inl hp)
  · rintro b x v (hv | ⟨rfl, hv⟩)
    · exact h.hidden hv
    · exact hhid x v hv
  · rintro b x v (hv | ⟨rfl, -⟩)
    · exact (h.placed hv).mono hle
    · exact .inr ⟨_, .inr ⟨rfl, rfl⟩⟩
  · refine h.aside.grow (fun b hb => ?_) fun _ _ hr => .inl hr
    rcases hb with hp | ⟨a, hab | ⟨-, rfl⟩⟩
    · exact .inl (.inl hp)
    · exact .inl (.inr ⟨a, hab⟩)
    · exact .inr haway

/-- A new frame of the first store is paired with one of the second that has no
part in the pairing yet. -/
theorem pairFrame (h : StorePair S P σ σ') (bs : Bindings) {j : FrameId} (names : Nat → Prop)
    (hid : Nat → Value → Prop) (hj : j < σ'.frames.size) (hfresh : ¬ P.Knows j)
    (haway : ¬ S.aside.frame j) (hlast : ∀ {a b}, P.frame a b → b < j)
    (hnames : ∀ x, names x → (bs.lookup x).isSome)
    (hvalues : ∀ x, (¬ ∃ v, hid x v) → OptionPair S P (bs.lookup x) (σ'.binding j x))
    (hhid : ∀ x v, hid x v → σ'.binding j x = some v) :
    StorePair S (P.addFrame σ.frames.size j names hid) (σ.newFrame bs).2 σ' := by
  have hnew (x : Nat) : (σ.newFrame bs).2.binding σ.frames.size x = bs.lookup x := by
    rw [Store.binding_newFrame, if_pos rfl]
  refine (h.newFrame_left bs).pairFrames names hid (by simp [Store.newFrame]) hj hfresh haway
    (fun hab => ⟨h.frames.left hab, hlast hab⟩) (fun x hx => ?_) (fun x hx => ?_) hhid
  · rw [hnew]
    exact hnames x hx
  · rw [hnew]
    exact hvalues x hx

/-- A frame of the second store that has no part in the pairing is taken in. -/
theorem addPlain (h : StorePair S P σ σ') {j : FrameId} (hid : Nat → Value → Prop)
    (hj : j < σ'.frames.size) (hfresh : ¬ P.Knows j) (haway : ¬ S.aside.frame j)
    (hbare : ∀ x, (¬ ∃ v, hid x v) → σ'.binding j x = none)
    (hhid : ∀ x v, hid x v → σ'.binding j x = some v) :
    StorePair S (P.addPlain j hid) σ σ' := by
  have hle : P ≤ P.addPlain j hid := Pairing.le_addPlain _ hfresh
  have hshown {b : FrameId} {x : Nat} (hh : ¬ (P.addPlain j hid).Hides b x) : ¬ P.Hides b x :=
    fun ⟨v, hv⟩ => hh ⟨v, hle.hidden hv⟩
  refine
    { globals := fun x hx => (h.globals x hx).mono hle
      frames := h.frames
      binding := fun hab hh => (h.binding hab (hshown hh)).mono hle
      bound := h.bound
      plain := ?_
      apart := ?_
      bare := ?_
      hidden := ?_
      placed := ?_
      objects := h.objects
      fields := fun hr => (h.fields hr).mono hle
      tags := h.tags
      trace := h.trace
      output := h.output
      recorded := h.recorded_mono hle
      aside := ?_ }
  · rintro b (hp | rfl)
    · exact h.plain hp
    · exact hj
  · rintro a b hab (hp | rfl)
    · exact h.apart hab hp
    · exact hfresh (.inr ⟨a, hab⟩)
  · rintro b x (hp | rfl) hh
    · exact h.bare hp (hshown hh)
    · exact hbare x fun ⟨v, hv⟩ => hh ⟨v, .inr ⟨rfl, hv⟩⟩
  · rintro b x v (hv | ⟨rfl, hv⟩)
    · exact h.hidden hv
    · exact hhid x v hv
  · rintro b x v (hv | ⟨rfl, -⟩)
    · exact (h.placed hv).mono hle
    · exact .inl (.inr rfl)
  · refine h.aside.grow (fun b hb => ?_) fun _ _ hr => .inl hr
    rcases hb with (hp | rfl) | hf
    · exact .inl (.inl hp)
    · exact .inr haway
    · exact .inl (.inr hf)

/-- A new frame of the second store without variables is taken in. -/
theorem newPlain (h : StorePair S P σ σ') : ∃ Q, P ≤ Q ∧ StorePair S Q σ (σ'.newFrame []).2 ∧
    Q.plain σ'.frames.size ∧ ∀ x, ¬ Q.Hides σ'.frames.size x := by
  have hfresh : ¬ P.Knows σ'.frames.size := fun hk => Nat.lt_irrefl _ (h.knows_lt hk)
  have hplain := (h.beyond (Beyond.newFrame [] fun hk => h.knows_lt hk)
    (h.aside.newFrame _)).addPlain (fun _ _ => False)
    (by simp [Store.newFrame] : σ'.frames.size < (σ'.newFrame []).2.frames.size)
    hfresh h.away_frame (fun x _ => by rw [Store.binding_newFrame, if_pos rfl]; rfl)
    (fun _ _ h => h.elim)
  refine ⟨_, Pairing.le_addPlain (fun _ _ => False) hfresh, hplain, .inr rfl, ?_⟩
  rintro x ⟨y, hy | ⟨-, hy⟩⟩
  · exact hfresh (h.placed hy)
  · exact hy

/-- A new function identity of the first store is paired with a free one of the
second. -/
theorem pairTag (h : StorePair S P σ σ') {t : Nat} (ht : t < σ'.tags)
    (hlast : ∀ {a b}, P.tag a b → b < t) : StorePair S (P.addTag σ.tags t) σ.newTag.2 σ' := by
  have hle : P ≤ P.addTag σ.tags t := Pairing.le_addTag _ _
  exact
    { globals := fun x hx => (h.globals x hx).mono hle
      frames := h.frames
      binding := fun hab hh => (h.binding hab hh).mono hle
      bound := h.bound
      plain := h.plain
      apart := h.apart
      bare := h.bare
      hidden := h.hidden
      placed := h.placed
      objects := h.objects
      fields := fun hr => (h.fields hr).mono hle
      tags := (h.tags.widen (Nat.le_succ _) (Nat.le_refl _)).extend (Nat.lt_succ_self _) ht
        fun hab => ⟨h.tags.left hab, hlast hab⟩
      trace := h.trace
      output := h.output
      recorded := h.recorded_mono hle
      aside := h.aside.grow (fun _ hb => .inl hb) fun _ _ hr => .inl hr }

/-- A new object of the first store is paired with one of the second that has no
part in the pairing yet. -/
theorem pairObject (h : StorePair S P σ σ') {fs : Fields} {r : Nat} (hr : r < σ'.objects.size)
    (haway : ¬ S.aside.object r)
    (hlast : ∀ {a b}, P.object a b → b < r) (hfs : FieldsPair S P fs (σ'.fields r)) :
    StorePair S (P.addObject σ.objects.size r) (σ.newObject fs).2 σ' := by
  have hle : P ≤ P.addObject σ.objects.size r := Pairing.le_addObject _ _
  refine
    { globals := fun x hx => (h.globals x hx).mono hle
      frames := h.frames
      binding := fun hab hh => (h.binding hab hh).mono hle
      bound := h.bound
      plain := h.plain
      apart := h.apart
      bare := h.bare
      hidden := h.hidden
      placed := h.placed
      objects := (h.objects.widen (by simp [Store.newObject]) (Nat.le_refl _)).extend
        (by simp [Store.newObject]) hr fun hab => ⟨h.objects.left hab, hlast hab⟩
      fields := ?_
      tags := h.tags
      trace := h.trace
      output := h.output
      recorded := h.recorded_mono hle
      aside := ?_ }
  · rintro a b (hab | ⟨rfl, rfl⟩)
    · rw [Store.fields_newObject, if_neg (Nat.ne_of_lt (h.objects.left hab))]
      exact (h.fields hab).mono hle
    · rw [Store.fields_newObject, if_pos rfl]
      exact hfs.mono hle
  · refine h.aside.grow (fun _ hb => .inl hb) fun a b hab => ?_
    rcases hab with hab | ⟨-, rfl⟩
    · exact .inl hab
    · exact .inr haway

end StorePair

end Resumable
