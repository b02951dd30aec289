import Resumable.Proofs.Arena.Forest
import Resumable.Proofs.Tree.Contents

/-!
# What stays when one function is lowered

Work on one function leaves all that existed before as it was, up to closures
that the new definitions have taken over. The new definitions are inserted below
the function: whoever owned a definition before is still above it, and the
definitions in between are new.
-/

namespace Resumable

/-- Everything about a definition but who owns it and what it owns. -/
structure Content extends Code where
  result : Ty
  generator : Bool

def Func.content (f : Func) : Content :=
  { f.code with result := f.result, generator := f.generator }

namespace Program

def content? (p : Program) (fn : FuncId) : Option Content :=
  (p.func? fn).map Func.content

variable {p p₀ : Program} {id : FuncId}

theorem content?_eq_some {fn : FuncId} {f : Func} (h : p.func? fn = some f) :
    p.content? fn = some f.content := by
  rw [content?, h, Option.map_some]

def isGenerator (p : Program) (fn : FuncId) : Bool :=
  ((p.content? fn).map Content.generator).getD false

theorem isGenerator_eq {fn : FuncId} {f : Func} (h : p.func? fn = some f) :
    p.isGenerator fn = f.generator := by
  rw [isGenerator, content?_eq_some h]
  rfl

theorem bodyOf_eq_content? (p : Program) (fn : FuncId) :
    p.bodyOf fn = ((p.content? fn).map (·.body)).getD [] := by
  rw [bodyOf, content?, Option.map_map]
  rfl

theorem content?_modifyFunc {change : Func → Func} (effect : Content → Content)
    (h : ∀ f, (change f).content = effect f.content) (p : Program) (id fn : FuncId) :
    (p.modifyFunc id change).content? fn =
      if fn = id then (p.content? fn).map effect else p.content? fn := by
  unfold content?
  rw [func?_modifyFunc]
  split
  · rw [Option.map_map, Option.map_map]
    congr 1
    exact funext h
  · rfl

theorem content?_modifyFunc_of_content {change : Func → Func}
    (h : ∀ f, (change f).content = f.content) (p : Program) (id fn : FuncId) :
    (p.modifyFunc id change).content? fn = p.content? fn := by
  rw [content?_modifyFunc (fun c => c) h]
  simp

theorem content?_moveTo (p : Program) (child newParent fn : FuncId) :
    (p.moveTo child newParent).content? fn = p.content? fn := by
  unfold moveTo
  split
  · rfl
  · simp only
    rw [content?_modifyFunc_of_content (by intro f; rfl),
      content?_modifyFunc_of_content (by intro f; rfl),
      content?_modifyFunc_of_content (by intro f; rfl)]

theorem content?_newFunc (p : Program) (parent : FuncId) (name : String) (params : List Variable)
    (result : Ty) (fn : FuncId) : ∃ t, (p.newFunc parent name params result).2.content? fn =
      if fn = p.size + 1 then some ⟨⟨name, params, [], []⟩, t, false⟩ else p.content? fn := by
  simp only [newFunc]
  rw [content?_modifyFunc_of_content (by intro f; rfl), content?, func?_push]
  split
  · exact ⟨_, rfl⟩
  · exact ⟨result, rfl⟩

/-! ## The frame -/

/-- What work on the function `id` leaves of a program. -/
structure Frame (p₀ : Program) (id : FuncId) (p : Program) : Prop where
  forest : p.Forest
  size : p₀.size ≤ p.size
  others : ∀ fn, fn ≤ p₀.size → fn ≠ id → p.content? fn = p₀.content? fn
  own : ∃ more body, p.content? id =
    (p₀.content? id).map fun c => { c with locals := c.locals ++ more, body }
  plain : ∀ fn c, p₀.size < fn → p.content? fn = some c → c.generator = false
  old : ∀ fn, fn ≤ p₀.size →
    p.parent fn = p₀.parent fn ∨ p₀.parent fn = id ∧ p₀.size < p.parent fn
  new : ∀ fn, p₀.size < fn → fn ≤ p.size → p.parent fn = id ∨ p₀.size < p.parent fn

namespace Frame

theorem start (hp : p₀.Forest) (id : FuncId) : Frame p₀ id p₀ where
  forest := hp
  size := Nat.le_refl _
  others _ _ _ := rfl
  own := by
    cases h : p₀.content? id with
    | none => exact ⟨[], [], rfl⟩
    | some c => exact ⟨[], c.body, by simp⟩
  plain fn c hfn hc := by
    obtain ⟨f, hf, -⟩ := Option.map_eq_some_iff.1 hc
    have := (isSome_func?.1 (Option.isSome_of_eq_some hf)).2
    omega
  old _ _ := .inl rfl
  new fn hfn hle := absurd hle (by omega)

theorem known (h : Frame p₀ id p) {fn : FuncId} (hfn : (p₀.func? fn).isSome) :
    (p.func? fn).isSome := by
  have hsize := h.size
  rw [isSome_func?] at hfn ⊢
  omega

/-- Only the definitions matter. -/
theorem of_funcs (h : Frame p₀ id p) {q : Program} (hq : q.funcs = p.funcs) : Frame p₀ id q := by
  have hfunc (fn : FuncId) : q.func? fn = p.func? fn := by rw [func?, func?, hq]
  have hsize : q.size = p.size := by rw [Program.size, Program.size, hq]
  have hcontent (fn : FuncId) : q.content? fn = p.content? fn := by rw [content?, content?, hfunc]
  have hparent (fn : FuncId) : q.parent fn = p.parent fn := by
    rw [parent_eq_getD, parent_eq_getD, hfunc]
  have howns (owner fn : FuncId) : q.owns owner fn = p.owns owner fn := by
    rw [owns_eq_any, owns_eq_any, hfunc]
  refine ⟨h.forest.congr (fun fn => by rw [hfunc]) hparent howns, ?_, ?_, ?_, ?_, ?_, ?_⟩
  · rw [hsize]
    exact h.size
  · simpa only [hcontent] using h.others
  · simpa only [hcontent] using h.own
  · simpa only [hcontent] using h.plain
  · simpa only [hparent] using h.old
  · simpa only [hparent, hsize] using h.new

/-- A new definition below the function. -/
theorem newFunc (h : Frame p₀ id p) (hid : (p₀.func? id).isSome) (name : String)
    (params : List Variable) (result : Ty) :
    Frame p₀ id (p.newFunc id name params result).2 := by
  have hsize := h.size
  have hle := (isSome_func?.1 hid).2
  have hold {fn : FuncId} (hfn : fn ≤ p₀.size) : fn ≠ p.size + 1 := by
    rintro rfl
    exact absurd hfn (Nat.not_le_of_lt (Nat.lt_succ_of_le hsize))
  obtain ⟨t, ht⟩ : ∃ t, ∀ fn, (p.newFunc id name params result).2.content? fn =
      if fn = p.size + 1 then some ⟨⟨name, params, [], []⟩, t, false⟩ else p.content? fn := by
    obtain ⟨t, ht⟩ := content?_newFunc p id name params result (p.size + 1)
    refine ⟨t, fun fn => ?_⟩
    by_cases hfn : fn = p.size + 1
    · rw [hfn, ht]
    · obtain ⟨t', ht'⟩ := content?_newFunc p id name params result fn
      rw [ht', if_neg hfn, if_neg hfn]
  refine ⟨h.forest.newFunc (.inr (h.known hid)) name params result, ?_, ?_, ?_, ?_, ?_, ?_⟩
  · rw [newFunc_size]
    omega
  · intro fn hfn hne
    rw [ht, if_neg (hold hfn)]
    exact h.others fn hfn hne
  · rw [ht, if_neg (hold hle)]
    exact h.own
  · intro fn c hfn hc
    rw [ht] at hc
    split at hc
    · cases hc
      rfl
    · exact h.plain fn c hfn hc
  · intro fn hfn
    rw [parent_newFunc, if_neg (hold hfn)]
    exact h.old fn hfn
  · intro fn hfn hle'
    rw [parent_newFunc]
    split
    · exact .inl rfl
    · next hne =>
        refine h.new fn hfn ?_
        rw [newFunc_size] at hle'
        exact Nat.le_of_lt_succ (Nat.lt_of_le_of_ne hle' hne)

/-- A change of a new definition that has nothing to do with ownership. -/
theorem modifyNew (h : Frame p₀ id p) (hid : (p₀.func? id).isSome) {fn : FuncId}
    (hfn : p₀.size < fn) {change : Func → Func} (hparent : ∀ f, (change f).parent = f.parent)
    (hclosures : ∀ f, (change f).closures = f.closures)
    (hgenerator : ∀ f, (change f).generator = f.generator) : Frame p₀ id (p.modifyFunc fn change) := by
  have hle := (isSome_func?.1 hid).2
  have hcontent {a : FuncId} (ha : a ≤ p₀.size) :
      (p.modifyFunc fn change).content? a = p.content? a := by
    rw [content?, func?_modifyFunc, if_neg]
    · rfl
    · rintro rfl
      exact absurd ha (Nat.not_le_of_lt hfn)
  refine ⟨h.forest.modifyFunc hparent hclosures fn, ?_, ?_, ?_, ?_, ?_, ?_⟩
  · rw [modifyFunc_size]
    exact h.size
  · intro a ha hne
    rw [hcontent ha]
    exact h.others a ha hne
  · rw [hcontent hle]
    exact h.own
  · intro a c ha hc
    rw [content?, func?_modifyFunc] at hc
    split at hc
    · rw [Option.map_map] at hc
      obtain ⟨f, hf, rfl⟩ := Option.map_eq_some_iff.1 hc
      exact (hgenerator f).trans (h.plain a f.content ha (content?_eq_some hf))
    · exact h.plain a c ha hc
  · intro a ha
    rw [parent_modifyFunc hparent]
    exact h.old a ha
  · intro a ha hle'
    rw [parent_modifyFunc hparent]
    exact h.new a ha (by rwa [modifyFunc_size] at hle')

/-- A change of the locals or the body of the function. -/
theorem modifyOwn (h : Frame p₀ id p) {change : Func → Func}
    (hparent : ∀ f, (change f).parent = f.parent)
    (hclosures : ∀ f, (change f).closures = f.closures)
    (hcontent : ∃ (locals : List Variable) (body : List Stmt → List Stmt), ∀ f, (change f).content =
      { f.content with locals := f.locals ++ locals, body := body f.body })
    (hid : id ≤ p₀.size) : Frame p₀ id (p.modifyFunc id change) := by
  obtain ⟨locals, body, hchange⟩ := hcontent
  have hothers {a : FuncId} (ha : a ≠ id) : (p.modifyFunc id change).content? a = p.content? a := by
    rw [content?, func?_modifyFunc, if_neg ha]
    rfl
  have hown : (p.modifyFunc id change).content? id = (p.content? id).map fun c =>
      { c with locals := c.locals ++ locals, body := body c.body } := by
    rw [content?_modifyFunc (fun c => { c with locals := c.locals ++ locals, body := body c.body })
      hchange, if_pos rfl]
  refine ⟨h.forest.modifyFunc hparent hclosures id, ?_, ?_, ?_, ?_, ?_, ?_⟩
  · rw [modifyFunc_size]
    exact h.size
  · intro a ha hne
    rw [hothers hne]
    exact h.others a ha hne
  · obtain ⟨more, old, heq⟩ := h.own
    refine ⟨more ++ locals, body old, ?_⟩
    rw [hown, heq, Option.map_map]
    simp [Function.comp_def]
  · intro a c ha hc
    rw [hothers (Nat.ne_of_gt (Nat.lt_of_le_of_lt hid ha))] at hc
    exact h.plain a c ha hc
  · intro a ha
    rw [parent_modifyFunc hparent]
    exact h.old a ha
  · intro a ha hle
    rw [parent_modifyFunc hparent]
    exact h.new a ha (by rwa [modifyFunc_size] at hle)

/-- A new definition takes over a closure of the function or another new one. -/
theorem reparent (h : Frame p₀ id p) {q : Program} {child parent : FuncId}
    (hparent : p₀.size < parent) (hchild : p₀.size < child ∨ p₀.parent child = id)
    (hq : p.reparent child parent = .ok q) : Frame p₀ id q := by
  have hforest := h.forest.reparent hq
  obtain ⟨hsome, -, -, rfl⟩ := reparent_eq_ok hq
  have hsize : (p.moveTo child parent).size = p.size := (SameCode.moveTo p child parent).size
  refine ⟨hforest, ?_, ?_, ?_, ?_, ?_, ?_⟩
  · rw [hsize]
    exact h.size
  · simpa only [content?_moveTo] using h.others
  · simpa only [content?_moveTo] using h.own
  · simpa only [content?_moveTo] using h.plain
  · intro fn hfn
    rw [parent_moveTo hsome]
    split
    · next heq =>
        rw [heq] at hfn ⊢
        exact .inr ⟨hchild.resolve_left (Nat.not_lt.2 hfn), hparent⟩
    · exact h.old fn hfn
  · intro fn hfn hle
    rw [parent_moveTo hsome]
    split
    · exact .inr hparent
    · exact h.new fn hfn (by rwa [hsize] at hle)

/-! ## Owners that existed before -/

/-- On the chain of a definition the owners that existed before stand in the same
order; the chain of a new definition passes through the function. -/
theorem filter_chain (h : Frame p₀ id p) (hp : p₀.Forest) (hid : id ≤ p₀.size) (fn : FuncId)
    (hfn : fn ≤ p.size) : (p.chain fn).filter (fun a => decide (a ≤ p₀.size)) =
      p₀.chain (if fn ≤ p₀.size then fn else id) := by
  revert hfn
  refine h.forest.induction (motive := fun fn => fn ≤ p.size →
    (p.chain fn).filter (fun a => decide (a ≤ p₀.size)) =
      p₀.chain (if fn ≤ p₀.size then fn else id)) (fun _ => ?_) (fun fn hne ih hfn => ?_) fn
  · have hzero : noFunc ≤ p₀.size := Nat.zero_le _
    rw [chain_noFunc, if_pos hzero, chain_noFunc]
    rfl
  · have hparent : p.parent fn ≤ p.size := by
      rcases h.forest.known fn with hroot | hsome
      · rw [hroot]
        exact Nat.zero_le _
      · exact (isSome_func?.1 hsome).2
    have hrest := ih hparent
    rw [h.forest.chain_eq hne, List.filter_cons, hrest]
    by_cases hold : fn ≤ p₀.size
    · -- a parent that is new has taken the place of the function
      rw [if_pos (decide_eq_true hold), if_pos hold, hp.chain_eq hne]
      rcases h.old fn hold with hsame | ⟨hown, hnew⟩
      · have hle : p₀.parent fn ≤ p₀.size := by
          rcases hp.known fn with hroot | hsome
          · rw [hroot]
            exact Nat.zero_le _
          · exact (isSome_func?.1 hsome).2
        rw [hsame, if_pos hle]
      · rw [if_neg (Nat.not_le_of_lt hnew), hown]
    · rw [if_neg (by simpa using hold), if_neg hold]
      rcases h.new fn (Nat.lt_of_not_le hold) hfn with hown | hnew
      · rw [hown, if_pos hid]
      · rw [if_neg (Nat.not_le_of_lt hnew)]

/-- The owners of a definition that existed before are those it had. -/
theorem owners (h : Frame p₀ id p) (hp : p₀.Forest) (hid : id ≤ p₀.size) {fn : FuncId}
    (hfn : (p₀.func? fn).isSome) :
    (p.chain (p.parent fn)).filter (fun a => decide (a ≤ p₀.size)) = p₀.chain (p₀.parent fn) := by
  obtain ⟨hpos, hle⟩ := isSome_func?.1 hfn
  have hne : fn ≠ noFunc := Nat.ne_of_gt hpos
  have hchain := h.filter_chain hp hid fn (Nat.le_trans hle h.size)
  rw [h.forest.chain_eq hne, if_pos hle, hp.chain_eq hne, List.filter_cons,
    if_pos (decide_eq_true hle)] at hchain
  exact (List.cons.inj hchain).2

theorem chain_le (hp : p₀.Forest) {fn a : FuncId} (ha : a ∈ p₀.chain (p₀.parent fn)) :
    a ≤ p₀.size := by
  obtain ⟨hne, k, rfl⟩ := hp.mem_chain.1 ha
  exact (isSome_func?.1 ((hp.iterate_known (hp.known fn) k).resolve_left hne)).2

/-- The nearest owner that existed before is the owner before. -/
theorem nearest (h : Frame p₀ id p) (hp : p₀.Forest) (hid : id ≤ p₀.size) {fn : FuncId}
    (hfn : (p₀.func? fn).isSome) :
    (p.chain (p.parent fn)).find? (fun a => decide (a ≤ p₀.size)) =
      (p₀.chain (p₀.parent fn)).head? := by
  rw [← List.head?_filter, h.owners hp hid hfn]

theorem isGenerator (h : Frame p₀ id p) (fn : FuncId) :
    p.isGenerator fn = if fn ≤ p₀.size then p₀.isGenerator fn else false := by
  unfold Program.isGenerator
  split
  · next hle =>
      by_cases hfn : fn = id
      · obtain ⟨more, body, hown⟩ := h.own
        rw [hfn, hown, Option.map_map]
        rfl
      · rw [h.others fn hle hfn]
  · next hlt =>
      cases hc : p.content? fn with
      | none => rfl
      | some c => exact h.plain fn c (Nat.lt_of_not_le hlt) hc

theorem generatorDepth_eq (q : Program) (fn : FuncId) : q.generatorDepth fn =
    ((q.chain (q.parent fn)).filter fun a => q.isGenerator a).length := by
  unfold generatorDepth
  congr 2
  funext a
  rw [Program.isGenerator, content?]
  cases q.func? a <;> rfl

/-- No generator comes to enclose a definition that existed before. -/
theorem generatorDepth (h : Frame p₀ id p) (hp : p₀.Forest) (hid : id ≤ p₀.size) {fn : FuncId}
    (hfn : (p₀.func? fn).isSome) : p.generatorDepth fn = p₀.generatorDepth fn := by
  have hgenerators : (fun a => p.isGenerator a) = fun a =>
      decide (a ≤ p₀.size) && p₀.isGenerator a := by
    funext a
    rw [h.isGenerator a]
    by_cases ha : a ≤ p₀.size <;> simp [ha]
  rw [generatorDepth_eq, generatorDepth_eq, hgenerators, ← h.owners hp hid hfn, List.filter_filter]
  simp only [Bool.and_comm]

end Frame

end Program

end Resumable
