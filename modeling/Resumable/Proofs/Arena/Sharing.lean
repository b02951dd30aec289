import Resumable.Proofs.Arena.Frame

/-!
# Statements in common

New expressions in a body go into the other bodies that hold statements in
common with it, and into no others.
-/

namespace Resumable

theorem number?_eq_map (s : Stmt) : (s.shared?).map Prod.fst = s.number? := by
  cases s with
  | simple s share => cases share <;> rfl
  | _ => rfl

/-- The numbers of the statements in a row. -/
theorem map_fst_filterMap_shared? (stmts : List Stmt) :
    (stmts.filterMap Stmt.shared?).map Prod.fst = stmts.filterMap Stmt.number? := by
  rw [List.map_filterMap]
  exact congrArg (stmts.filterMap ·) (funext number?_eq_map)

theorem map_refresh_eq_self {common : List (Nat × Simple)} {body : List Stmt}
    (h : ∀ n ∈ body.filterMap Stmt.number?, n ∉ common.map Prod.fst) :
    body.map (Stmt.refresh common) = body := by
  induction body with
  | nil => rfl
  | cons s rest ih =>
      have hrest : rest.map (Stmt.refresh common) = rest := by
        refine ih fun n hn => h n ?_
        obtain ⟨t, ht, hnumber⟩ := List.mem_filterMap.1 hn
        exact List.mem_filterMap.2 ⟨t, .tail _ ht, hnumber⟩
      rw [List.map_cons, hrest]
      cases s with
      | simple s share =>
          cases share with
          | none => rfl
          | some n =>
              have hnone : common.lookup n = none := by
                refine List.lookup_eq_none_iff.2 fun entry hentry => bne_iff_ne.2 fun heq => ?_
                refine h n (List.mem_filterMap.2 ⟨_, .head _, rfl⟩) ?_
                exact List.mem_map.2 ⟨entry, hentry, heq.symm⟩
              rw [Stmt.refresh, hnone]
              rfl
      | _ => rfl

namespace Program

variable {p p₀ : Program} {id : FuncId}

theorem func?_refresh (p : Program) (stmts : List Stmt) (fn : FuncId) :
    (p.refresh stmts).func? fn = (p.func? fn).map fun f =>
      { f with body := f.body.map (Stmt.refresh (stmts.filterMap Stmt.shared?)) } := by
  unfold refresh
  simp only
  split
  · next hempty =>
      rw [List.isEmpty_iff.1 hempty]
      cases hf : p.func? fn with
      | none => rfl
      | some f =>
          have hbody : f.body.map (Stmt.refresh []) = f.body := map_refresh_eq_self (by simp)
          rw [Option.map_some, hbody]
  · unfold func?
    split
    · rfl
    · rw [Array.getElem?_map]

/-- No statement of the body of a function is held by another function. -/
def Apart (p : Program) (id : FuncId) : Prop :=
  ∀ fn, fn ≠ id → ∀ n ∈ bodyNumbers (p.bodyOf fn), n ∉ bodyNumbers (p.bodyOf id)

theorem filterMap_number?_subset (body : List Stmt) :
    body.filterMap Stmt.number? ⊆ bodyNumbers body := by
  intro n hn
  obtain ⟨s, hs, hnumber⟩ := List.mem_filterMap.1 hn
  exact List.mem_filterMap.2 ⟨s, mem_allStmts hs, hnumber⟩

theorem parent_refresh (p : Program) (stmts : List Stmt) (fn : FuncId) :
    (p.refresh stmts).parent fn = p.parent fn := by
  rw [parent_eq_getD, parent_eq_getD, func?_refresh, Option.map_map]
  rfl

theorem owns_refresh (p : Program) (stmts : List Stmt) (owner fn : FuncId) :
    (p.refresh stmts).owns owner fn = p.owns owner fn := by
  rw [owns_eq_any, owns_eq_any, func?_refresh]
  cases p.func? owner <;> rfl

theorem isSome_func?_refresh (p : Program) (stmts : List Stmt) (fn : FuncId) :
    ((p.refresh stmts).func? fn).isSome = (p.func? fn).isSome := by
  rw [func?_refresh, Option.isSome_map]

@[simp] theorem refresh_size (p : Program) (stmts : List Stmt) : (p.refresh stmts).size = p.size := by
  unfold refresh size
  simp only
  split
  · rfl
  · simp

theorem refill_size (p : Program) (id : FuncId) (body : List Stmt) :
    (p.refill id body).size = p.size := by
  rw [refill, modifyFunc_size, refresh_size]

/-- A definition without statements in common stays as it is. -/
theorem content?_refresh {stmts : List Stmt} {fn : FuncId}
    (h : ∀ c, p.content? fn = some c →
      ∀ n ∈ c.body.filterMap Stmt.number?, n ∉ stmts.filterMap Stmt.number?) :
    (p.refresh stmts).content? fn = p.content? fn := by
  rw [content?, func?_refresh, content?]
  cases hf : p.func? fn with
  | none => rfl
  | some f =>
      have hsame : f.body.map (Stmt.refresh (stmts.filterMap Stmt.shared?)) = f.body := by
        refine map_refresh_eq_self fun n hn => ?_
        rw [map_fst_filterMap_shared?]
        exact h f.content (content?_eq_some hf) n hn
      simp only [Option.map_some, hsame]

/-- New expressions go into the body of the function alone if it holds no
statement in common with the others. -/
theorem Frame.refill (h : Frame p₀ id p) (hid : id ≤ p₀.size) {body : List Stmt}
    (happart : ∀ fn c, fn ≤ p₀.size → fn ≠ id → p₀.content? fn = some c →
      ∀ n ∈ c.body.filterMap Stmt.number?, n ∉ body.filterMap Stmt.number?) :
    Frame p₀ id (p.refill id body) := by
  have hforest : (p.refresh body).Forest := h.forest.congr (isSome_func?_refresh p body)
    (parent_refresh p body) (owns_refresh p body)
  have hrefresh (fn : FuncId) : (p.refill id body).content? fn =
      if fn = id then ((p.refresh body).content? fn).map fun c => { c with body }
      else (p.refresh body).content? fn :=
    content?_modifyFunc (fun c => { c with body }) (fun _ => rfl) (p.refresh body) id fn
  have hparent (fn : FuncId) : (p.refill id body).parent fn = p.parent fn := by
    rw [Program.refill, parent_modifyFunc (by intro f; rfl), parent_refresh]
  have hsize : (p.refill id body).size = p.size := p.refill_size id body
  refine ⟨hforest.modifyFunc (by intro f; rfl) (by intro f; rfl) id, ?_, ?_, ?_, ?_, ?_, ?_⟩
  · rw [hsize]
    exact h.size
  · intro fn hfn hne
    have hold := h.others fn hfn hne
    rw [hrefresh, if_neg hne, content?_refresh, hold]
    intro c hc
    exact happart fn c hfn hne (hold ▸ hc)
  · obtain ⟨more, old, hown⟩ := h.own
    refine ⟨more, body, ?_⟩
    rw [hrefresh, if_pos rfl, content?, func?_refresh, Option.map_map, Option.map_map]
    rw [content?] at hown
    cases hf : p.func? id with
    | none =>
        rw [hf] at hown
        cases hc : p₀.content? id with
        | none => rfl
        | some c =>
            rw [hc] at hown
            cases hown
    | some f =>
        rw [hf] at hown
        cases hc : p₀.content? id with
        | none =>
            rw [hc] at hown
            cases hown
        | some c =>
            rw [hc, Option.map_some, Option.map_some, Option.some.injEq] at hown
            rw [Option.map_some, Option.map_some, Option.some.injEq]
            have hset := congrArg (fun d : Content => { d with body }) hown
            exact hset
  · intro fn c hfn hc
    rw [hrefresh, if_neg (Nat.ne_of_gt (Nat.lt_of_le_of_lt hid hfn)), content?, func?_refresh,
      Option.map_map] at hc
    obtain ⟨f, hf, rfl⟩ := Option.map_eq_some_iff.1 hc
    exact h.plain fn f.content hfn (content?_eq_some hf)
  · intro fn hfn
    rw [hparent]
    exact h.old fn hfn
  · intro fn hfn hle
    rw [hparent]
    exact h.new fn hfn (by rwa [hsize] at hle)

/-- Giving numbers to the statements of the function. -/
theorem Frame.shareBody (h : Frame p₀ id p) (hid : id ≤ p₀.size) : Frame p₀ id (p.shareBody id) := by
  unfold Program.shareBody
  split
  · exact h
  · next f hf =>
      refine Frame.of_funcs (h.modifyOwn ?_ ?_ ⟨[], fun _ => ?_, fun f => ?_⟩ hid) rfl
      · intro f
        rfl
      · intro f
        rfl
      · exact f.body.mapIdx fun i s => s.share (p.shareCount + i)
      · simp [Func.content, Func.code]

def nested (outer inner : List Stmt) : Program :=
  let p := (({ varCount := 5, shareCount := 5 } : Program).newFunc noFunc "f" [] .variant).2
  let p := (p.newFunc 1 "" [] .variant).2
  let p := p.modifyFunc 1 fun f => { f with body := outer }
  p.modifyFunc 2 fun f => { f with body := inner }

theorem forest_of_size_eq_zero (h : p.size = 0) : p.Forest := by
  have hnone (fn : FuncId) : p.func? fn = none := by
    rw [← Option.not_isSome_iff_eq_none, isSome_func?]
    omega
  have hparent (fn : FuncId) : p.parent fn = noFunc := by
    rw [parent, hnone]
  refine ⟨fun fn => .inl (hparent fn), fun owner fn => ?_, fun fn => ⟨1, hparent fn⟩⟩
  rw [owns, hnone, hparent]
  constructor
  · intro h
    cases h
  · rintro ⟨howner, rfl⟩
    exact absurd rfl howner

theorem Forest.setBody (hp : p.Forest) (id : FuncId) (body : List Stmt) :
    (p.modifyFunc id fun f => { f with body }).Forest :=
  hp.modifyFunc (by intro f; rfl) (by intro f; rfl) id

theorem forest_nested (outer inner : List Stmt) : (nested outer inner).Forest := by
  let root := ({ varCount := 5, shareCount := 5 } : Program).newFunc noFunc "f" [] .variant
  have hroot : root.2.Forest :=
    (forest_of_size_eq_zero rfl).newFunc (.inl rfl) "f" [] .variant
  have hknown : (root.2.func? 1).isSome := by rw [isSome_func?, newFunc_size]; decide
  exact ((hroot.newFunc (.inr hknown) "" [] .variant).setBody 1 outer).setBody 2 inner

/-- Only known functions have anything in their bodies. -/
theorem forall_bodyOf {P : FuncId → List Stmt → Prop} (hnil : ∀ fn, P fn [])
    (h : ∀ fn ∈ p.ids, P fn (p.bodyOf fn)) (fn : FuncId) : P fn (p.bodyOf fn) := by
  by_cases hfn : (p.func? fn).isSome
  · exact h fn (mem_ids.2 hfn)
  · rw [bodyOf, Option.not_isSome_iff_eq_none.1 hfn]
    exact hnil fn

instance (p : Program) (id : FuncId) : Decidable (p.Apart id) :=
  decidable_of_iff (∀ fn ∈ p.ids, fn ≠ id →
      ∀ n ∈ bodyNumbers (p.bodyOf fn), n ∉ bodyNumbers (p.bodyOf id))
    ⟨fun h => forall_bodyOf (P := fun fn body => fn ≠ id →
      ∀ n ∈ bodyNumbers body, n ∉ bodyNumbers (p.bodyOf id)) (by simp) h, fun h fn _ => h fn⟩

end Program

end Resumable
