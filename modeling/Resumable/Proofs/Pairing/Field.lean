import Resumable.Proofs.Pairing.Growth

/-!
# Paired fields

Paired keys compare alike, so fields of paired objects are found, set and
erased alike. A value is paired with another one as a key unless it is a
function whose values need not be made under paired frames.
-/

namespace Resumable

variable {S : Sides} {P : Pairing} {σ σ' : Store}

/-! ## Keys -/

theorem MarkPair.eq_iff (h : StorePair S P σ σ') {m m' n n' : Mark} (hm : MarkPair P m m')
    (hn : MarkPair P n n') : m = n ↔ m' = n' := by
  cases hm <;> cases hn <;> simp only [Mark.definition.injEq, Mark.frame.injEq, Mark.code.injEq,
    Mark.function.injEq, Mark.object.injEq, reduceCtorEq]
  case frame.frame h₁ _ _ h₂ => exact h.frames.eq_iff h₁ h₂
  case function.function h₁ _ _ h₂ => exact h.tags.eq_iff h₁ h₂
  case object.object h₁ _ _ h₂ => exact h.objects.eq_iff h₁ h₂

/-- Marks of one kind are ordered by their numbers. -/
theorem Mark.before_congr {m m' n n' : Mark} {kind a a' b b' : Nat} (hm : m.place = (kind, a))
    (hm' : m'.place = (kind, a')) (hn : n.place = (kind, b)) (hn' : n'.place = (kind, b'))
    (h : a < b ↔ a' < b') : m.before n = m'.before n' := by
  simp [before, hm, hm', hn, hn', h]

theorem MarkPair.before_eq (h : StorePair S P σ σ') {m m' n n' : Mark} (hm : MarkPair P m m')
    (hn : MarkPair P n n') : m.before n = m'.before n' := by
  cases hm <;> cases hn <;> try rfl
  case frame.frame h₁ _ _ h₂ => exact Mark.before_congr rfl rfl rfl rfl (h.frames.order h₁ h₂)
  case function.function h₁ _ _ h₂ => exact Mark.before_congr rfl rfl rfl rfl (h.tags.order h₁ h₂)
  case object.object h₁ _ _ h₂ => exact Mark.before_congr rfl rfl rfl rfl (h.objects.order h₁ h₂)

namespace KeyPair

theorem eq_iff (h : StorePair S P σ σ') {k k' l l' : Key} (hk : KeyPair P k k')
    (hl : KeyPair P l l') : k = l ↔ k' = l' := by
  induction hk generalizing l l' with
  | text s =>
      cases hl with
      | text t => rfl
      | marked t hm hrest => simp
  | marked s hm hrest ih =>
      cases hl with
      | text t => simp
      | marked t hn hothers => simp [hm.eq_iff h hn, ih hothers]

theorem before_eq (h : StorePair S P σ σ') {k k' l l' : Key} (hk : KeyPair P k k')
    (hl : KeyPair P l l') : k.before l = k'.before l' := by
  induction hk generalizing l l' with
  | text s =>
      cases hl with
      | text t => rfl
      | marked t hm hrest => rfl
  | marked s hm hrest ih =>
      cases hl with
      | text t => rfl
      | @marked t n n' _ _ hn hothers =>
          have hbeq : (_ == n) = (_ == n') := Bool.eq_iff_iff.2 <| by
            rw [beq_iff_eq, beq_iff_eq]
            exact hm.eq_iff h hn
          simp only [Key.before, hm.before_eq h hn, ih hothers, hbeq]

theorem append {k k' l l' : Key} (hk : KeyPair P k k') (hl : KeyPair P l l') :
    KeyPair P (k ++ l) (k' ++ l') := by
  induction hk with
  | text s =>
      cases hl with
      | text t => exact .text _
      | marked t hm hrest => exact .marked _ hm hrest
  | marked s hm _ ih => exact .marked s hm ih

theorem ofMark {m m' : Mark} (hm : MarkPair P m m') : KeyPair P (.ofMark m) (.ofMark m') :=
  .marked "" hm (.text "")

theorem spaced {ks ks' : List Key} (h : List.Forall₂ (KeyPair P) ks ks') :
    KeyPair P (Key.spaced ks) (Key.spaced ks') := by
  induction h with
  | nil => exact .text ""
  | cons hk hks ih =>
      cases hks with
      | nil => exact hk
      | cons hl hls => exact (hk.append (.text " ")).append ih

theorem compound {ks ks' : List Key} (h : List.Forall₂ (KeyPair P) ks ks') :
    KeyPair P (Key.compound ks) (Key.compound ks') :=
  ((KeyPair.text _).append (spaced h)).append (.text _)

theorem ofPart {v v' : Value} (hv : ValuePair S P v v') :
    KeyPair P (Key.ofPart v) (Key.ofPart v') := by
  cases hv with
  | closure ht => exact ofMark (.function ht)
  | native name kind _ ht => exact ofMark (.function ht)
  | object cls hr => exact ofMark (.object hr)
  | _ => exact .text _

end KeyPair

/-- The values of the functions that are not loose select paired fields. -/
theorem StorePair.key (h : StorePair S P σ σ') (htypes : S.source.types = S.target.types)
    (hfuncs : ∀ fn, S.known fn → (S.source.func? fn).isSome ∧ (S.target.func? fn).isSome)
    {v v' : Value} (hv : ValuePair S P v v')
    (htight : ∀ tag fn env, v = .closure tag fn env → ¬ S.loose fn) :
    KeyPair P (σ.key S.source v) (σ'.key S.target v') := by
  cases hv with
  | @closure tag tag' fn env env' ht hfn ha hl =>
      have htight : P.Tight env env' := hl.resolve_left (htight tag fn env rfl)
      obtain ⟨f, hf⟩ := Option.isSome_iff_exists.1 (hfuncs fn hfn).1
      obtain ⟨f', hf'⟩ := Option.isSome_iff_exists.1 (hfuncs fn hfn).2
      simp only [Store.key, hf, hf']
      refine .compound (.cons (.ofMark (.definition fn)) (.cons ?_ (.cons (.text _) .nil)))
      match env, env', htight with
      | [], [], _ => exact .text _
      | _ :: _, _ :: _, hij => exact .ofMark (.frame hij)
  | native name kind ht =>
      exact .compound (.cons (.ofMark (.code kind)) (.cons (.text name) .nil))
  | object cls hr =>
      simp only [Store.key, htypes]
      refine .compound (.cons (.text _) (.cons ?_ .nil))
      refine ((KeyPair.text _).append (.spaced ?_)).append (.text _)
      refine List.forall₂_map_left_iff.2 (List.forall₂_map_right_iff.2 ?_)
      exact (h.fields hr).imp fun _ _ ⟨hk, hv⟩ => (hk.append (.text ":")).append (.ofPart hv)
  | _ => exact .text _

/-! ## Fields -/

namespace FieldsPair

variable {fs fs' : Fields} {k k' : Key}

theorem lookup (h : StorePair S P σ σ') (hfs : FieldsPair S P fs fs') (hk : KeyPair P k k') :
    OptionPair S P (fs.lookup k) (fs'.lookup k') := by
  induction hfs with
  | nil => exact .none
  | @cons f g rest rest' hfg _ ih =>
      obtain ⟨l, x⟩ := f
      obtain ⟨l', x'⟩ := g
      obtain ⟨hl, hx⟩ := hfg
      have hiff := hk.eq_iff h hl
      by_cases heq : k = l
      · have heq' := hiff.1 heq
        subst heq heq'
        simpa using OptionPair.some hx
      · have heq' : k' ≠ l' := fun hc => heq (hiff.2 hc)
        simpa [List.lookup_cons, beq_false_of_ne heq, beq_false_of_ne heq'] using ih

theorem get (h : StorePair S P σ σ') (hfs : FieldsPair S P fs fs') (hk : KeyPair P k k') :
    ValuePair S P (fs.get k) (fs'.get k') := by
  have hlookup := hfs.lookup h hk
  unfold Fields.get
  generalize List.lookup k fs = o at hlookup ⊢
  generalize List.lookup k' fs' = o' at hlookup ⊢
  cases hlookup with
  | none => exact .null
  | some hv => exact hv

theorem has_eq (h : StorePair S P σ σ') (hfs : FieldsPair S P fs fs') (hk : KeyPair P k k') :
    fs.has k = fs'.has k' :=
  (hfs.lookup h hk).isSome_eq

theorem set (h : StorePair S P σ σ') (hfs : FieldsPair S P fs fs') (hk : KeyPair P k k')
    {x x' : Value} (hx : ValuePair S P x x') : FieldsPair S P (fs.set k x) (fs'.set k' x') := by
  induction hfs with
  | nil => exact .cons ⟨hk, hx⟩ .nil
  | @cons f g rest rest' hfg hrest ih =>
      obtain ⟨l, y⟩ := f
      obtain ⟨l', y'⟩ := g
      have hiff := hfg.1.eq_iff h hk
      simp only [Fields.set, ← hk.before_eq h hfg.1]
      by_cases heq : l = k
      · rw [if_pos heq, if_pos (hiff.1 heq)]
        exact .cons ⟨hfg.1, hx⟩ hrest
      · rw [if_neg heq, if_neg fun hc => heq (hiff.2 hc)]
        split
        · exact .cons ⟨hk, hx⟩ (.cons hfg hrest)
        · exact .cons hfg ih

theorem erase (h : StorePair S P σ σ') (hfs : FieldsPair S P fs fs') (hk : KeyPair P k k') :
    FieldsPair S P (fs.erase k) (fs'.erase k') := by
  induction hfs with
  | nil => exact .nil
  | @cons f g rest rest' hfg hrest ih =>
      have hiff := hfg.1.eq_iff h hk
      by_cases heq : f.1 = k
      · have heq' := hiff.1 heq
        simpa [Fields.erase, heq, heq'] using ih
      · have heq' : g.1 ≠ k' := fun hc => heq (hiff.2 hc)
        have hboth : FieldsPair S P (f :: Fields.erase rest k) (g :: Fields.erase rest' k') :=
          .cons hfg ih
        simpa [Fields.erase, heq, heq'] using hboth

end FieldsPair

theorem StorePair.modifyFields (h : StorePair S P σ σ') {r r' : Nat} (hr : P.object r r')
    {change change' : Fields → Fields}
    (hchange : FieldsPair S P (change (σ.fields r)) (change' (σ'.fields r'))) :
    StorePair S P (σ.modifyFields r change) (σ'.modifyFields r' change') := by
  refine { h with
    objects := by simpa [Store.modifyFields] using h.objects
    fields := fun {a b} hab => ?_
    aside := h.aside.modifyFields hr (h.objects.right hr) change' }
  rw [Store.fields_modifyFields (h.objects.left hr), Store.fields_modifyFields (h.objects.right hr)]
  have heq := h.objects.eq_iff hab hr
  by_cases hcase : a = r
  · rw [if_pos hcase, if_pos (heq.1 hcase)]
    exact hchange
  · rw [if_neg hcase, if_neg fun hc => hcase (heq.2 hc)]
    exact h.fields hab

end Resumable
