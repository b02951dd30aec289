import Mathlib.Data.List.Count
import Mathlib.Data.List.Nodup
import Mathlib.Data.List.Perm.Subperm
import Mathlib.Logic.Function.Iterate
import Resumable.Proofs.Arena.IdSet
import Resumable.Proofs.Lowering.Effect

/-!
# Ownership is a forest

Parent links and closure sets say the same about who owns whom, and every chain
of owners comes to a root. New definitions and moves keep it so; in particular
a move is refused exactly where it would close a cycle.
-/

namespace Resumable.Program

/-- Parent links and closure sets agree, and no definition is its own ancestor. -/
structure Forest (p : Program) : Prop where
  known : ∀ fn, p.parent fn = noFunc ∨ (p.func? (p.parent fn)).isSome
  owns : ∀ owner fn, p.owns owner fn = true ↔ owner ≠ noFunc ∧ p.parent fn = owner
  rooted : ∀ fn, ∃ k, p.parent^[k] fn = noFunc

variable {p : Program}

theorem func?_noFunc (p : Program) : p.func? noFunc = none := rfl

@[simp] theorem parent_noFunc (p : Program) : p.parent noFunc = noFunc := rfl

theorem parent_eq_getD (p : Program) (fn : FuncId) :
    p.parent fn = ((p.func? fn).map Func.parent).getD noFunc := by
  unfold parent
  cases p.func? fn <;> rfl

theorem owns_eq_any (p : Program) (owner fn : FuncId) :
    p.owns owner fn = (p.func? owner).any fun f => f.closures.contains fn := by
  unfold owns
  cases p.func? owner <;> rfl

/-- Only definitions have owners. -/
theorem isSome_of_parent {fn : FuncId} (h : p.parent fn ≠ noFunc) : (p.func? fn).isSome := by
  rw [parent_eq_getD] at h
  cases hf : p.func? fn with
  | none =>
      rw [hf] at h
      exact absurd rfl h
  | some f => rfl

/-! ## Chains of owners -/

theorem chainFrom_noFunc (p : Program) (fuel : Nat) : p.chainFrom fuel noFunc = [] := by
  cases fuel <;> rfl

/-- More fuel than there are owners changes nothing. -/
theorem chainFrom_eq {k fuel : Nat} {fn : FuncId} (hk : p.parent^[k] fn = noFunc)
    (hle : k ≤ fuel) : p.chainFrom fuel fn = p.chainFrom k fn := by
  induction k generalizing fuel fn with
  | zero =>
      rw [Function.iterate_zero, id] at hk
      rw [hk, chainFrom_noFunc, chainFrom_noFunc]
  | succ k ih =>
      obtain ⟨fuel, rfl⟩ : ∃ m, fuel = m + 1 := ⟨fuel - 1, by omega⟩
      rw [chainFrom, chainFrom]
      rw [Function.iterate_succ_apply] at hk
      rw [ih hk (by omega)]

theorem mem_chainFrom {k : Nat} {fn a : FuncId} :
    a ∈ p.chainFrom k fn → ∃ i, i < k ∧ p.parent^[i] fn = a ∧ a ≠ noFunc := by
  induction k generalizing fn with
  | zero => simp [chainFrom]
  | succ k ih =>
      intro ha
      rw [chainFrom] at ha
      split at ha
      · cases ha
      · next hfn =>
          rcases List.mem_cons.1 ha with rfl | ha
          · exact ⟨0, by omega, rfl, hfn⟩
          · obtain ⟨i, hi, hparent, hne⟩ := ih ha
            exact ⟨i + 1, by omega, hparent, hne⟩

theorem iterate_parent_noFunc (p : Program) (k : Nat) : p.parent^[k] noFunc = noFunc := by
  induction k with
  | zero => rfl
  | succ k ih => rw [Function.iterate_succ_apply, parent_noFunc, ih]

/-- No definition repeats on its chain of owners. -/
theorem nodup_chainFrom (h : p.Forest) (k : Nat) (fn : FuncId) : (p.chainFrom k fn).Nodup := by
  induction k generalizing fn with
  | zero => exact .nil
  | succ k ih =>
      rw [chainFrom]
      split
      · exact .nil
      · next hfn =>
          refine List.nodup_cons.2 ⟨fun hmem => ?_, ih _⟩
          -- the walk from `fn` would come back to it and so never reach a root
          obtain ⟨i, -, hi, -⟩ := mem_chainFrom hmem
          obtain ⟨m, hm⟩ := h.rooted fn
          have hloop (j : Nat) : p.parent^[(i + 1) * j] fn = fn := by
            induction j with
            | zero => rfl
            | succ j ihj =>
                rw [Nat.mul_succ, Function.iterate_add_apply, Function.iterate_succ_apply, hi, ihj]
          have hback := hloop m
          rw [show (i + 1) * m = i * m + m by rw [Nat.add_mul, Nat.one_mul],
            Function.iterate_add_apply, hm, iterate_parent_noFunc] at hback
          exact hfn hback.symm

theorem mem_ids {fn : FuncId} : fn ∈ p.ids ↔ (p.func? fn).isSome := by
  rw [isSome_func?]
  simp only [ids, List.mem_map, List.mem_range, size]
  constructor
  · rintro ⟨i, hi, rfl⟩
    omega
  · intro h
    exact ⟨fn - 1, by omega, Nat.sub_add_cancel h.1⟩

/-- As long as a walk does not leave the program it meets definitions only. -/
theorem chainFrom_subset_ids {k : Nat} {fn : FuncId} (hk : p.parent^[k] fn ≠ noFunc) :
    (p.chainFrom k fn).length = k ∧ p.chainFrom k fn ⊆ p.ids := by
  induction k generalizing fn with
  | zero => exact ⟨rfl, List.nil_subset _⟩
  | succ k ih =>
      rw [Function.iterate_succ_apply] at hk
      have hparent : p.parent fn ≠ noFunc := by
        intro h
        rw [h, iterate_parent_noFunc] at hk
        exact hk rfl
      have hfn : fn ≠ noFunc := by
        rintro rfl
        exact hparent rfl
      obtain ⟨hlength, hsubset⟩ := ih hk
      rw [chainFrom, if_neg hfn, List.length_cons, hlength]
      exact ⟨rfl, List.cons_subset.2 ⟨mem_ids.2 (isSome_of_parent hparent), hsubset⟩⟩

/-- A walk over more owners than there are definitions has come to a root. -/
theorem Forest.iterate_size (h : p.Forest) (fn : FuncId) :
    p.parent^[p.size + 1] fn = noFunc := by
  by_contra hne
  obtain ⟨hlength, hsubset⟩ := chainFrom_subset_ids hne
  have hle := (List.subperm_of_subset (nodup_chainFrom h (p.size + 1) fn) hsubset).length_le
  have hids : p.ids.length = p.size := by simp [ids, size]
  omega

theorem Forest.chain_eq (h : p.Forest) {fn : FuncId} (hfn : fn ≠ noFunc) :
    p.chain fn = fn :: p.chain (p.parent fn) := by
  have hmore : p.chain fn = p.chainFrom (p.size + 1 + 1) fn :=
    (chainFrom_eq (h.iterate_size fn) (Nat.le_succ _)).symm
  rw [hmore, chainFrom, if_neg hfn]
  rfl

theorem chain_noFunc (p : Program) : p.chain noFunc = [] :=
  chainFrom_noFunc p _

/-- Induction along a chain of owners. -/
theorem Forest.induction (h : p.Forest) {motive : FuncId → Prop} (root : motive noFunc)
    (step : ∀ fn, fn ≠ noFunc → motive (p.parent fn) → motive fn) (fn : FuncId) : motive fn := by
  obtain ⟨k, hk⟩ := h.rooted fn
  induction k generalizing fn with
  | zero =>
      rw [Function.iterate_zero, id] at hk
      rw [hk]
      exact root
  | succ k ih =>
      by_cases hfn : fn = noFunc
      · rw [hfn]
        exact root
      · exact step fn hfn (ih _ hk)

/-! ## New definitions -/

theorem parent_modifyFunc {change : Func → Func} (h : ∀ f, (change f).parent = f.parent)
    (p : Program) (id fn : FuncId) : (p.modifyFunc id change).parent fn = p.parent fn := by
  rw [parent_eq_getD, parent_eq_getD, func?_modifyFunc]
  split
  · rw [Option.map_map, (funext h : Func.parent ∘ change = Func.parent)]
  · rfl

theorem owns_modifyFunc {change : Func → Func} (h : ∀ f, (change f).closures = f.closures)
    (p : Program) (id owner fn : FuncId) :
    (p.modifyFunc id change).owns owner fn = p.owns owner fn := by
  rw [owns_eq_any, owns_eq_any, func?_modifyFunc]
  split
  · cases p.func? owner with
    | none => rfl
    | some f =>
        rw [Option.map_some, Option.any_some, Option.any_some, h f]
  · rfl

/-- What has nothing to do with ownership does not matter. -/
theorem Forest.congr {q : Program} (hp : p.Forest)
    (hknown : ∀ fn, (q.func? fn).isSome = (p.func? fn).isSome)
    (hparent : ∀ fn, q.parent fn = p.parent fn)
    (howns : ∀ owner fn, q.owns owner fn = p.owns owner fn) : q.Forest := by
  have hparents : q.parent = p.parent := funext hparent
  refine ⟨fun fn => ?_, fun owner fn => ?_, fun fn => ?_⟩
  · rw [hparents, hknown]
    exact hp.known fn
  · rw [howns, hparents]
    exact hp.owns owner fn
  · rw [hparents]
    exact hp.rooted fn

theorem isSome_func?_modifyFunc (p : Program) (id fn : FuncId) (change : Func → Func) :
    ((p.modifyFunc id change).func? fn).isSome = (p.func? fn).isSome := by
  rw [func?_modifyFunc]
  split <;> simp

theorem Forest.modifyFunc (hp : p.Forest) {change : Func → Func}
    (hparent : ∀ f, (change f).parent = f.parent)
    (hclosures : ∀ f, (change f).closures = f.closures) (id : FuncId) :
    (p.modifyFunc id change).Forest :=
  hp.congr (fun fn => isSome_func?_modifyFunc p id fn change) (parent_modifyFunc hparent p id)
    (owns_modifyFunc hclosures p id)

theorem parent_push (p : Program) (f : Func) (fn : FuncId) :
    ({ p with funcs := p.funcs.push f } : Program).parent fn =
      if fn = p.size + 1 then f.parent else p.parent fn := by
  rw [parent_eq_getD, func?_push, parent_eq_getD]
  split <;> rfl

theorem parent_newFunc (p : Program) (parent : FuncId) (name : String) (params : List Variable)
    (result : Ty) (fn : FuncId) : (p.newFunc parent name params result).2.parent fn =
      if fn = p.size + 1 then parent else p.parent fn := by
  simp only [newFunc]
  rw [parent_modifyFunc (by intro f; rfl), parent_push]

/-- Putting a definition into the closure set of another. -/
theorem owns_insert (p : Program) (id child owner fn : FuncId) :
    (p.modifyFunc id fun f => { f with closures := f.closures.insert child }).owns owner fn =
      (p.owns owner fn || decide (owner = id ∧ (p.func? id).isSome ∧ fn = child)) := by
  rw [owns_eq_any, owns_eq_any, func?_modifyFunc]
  by_cases howner : owner = id
  · subst howner
    rw [if_pos rfl]
    cases p.func? owner with
    | none => simp
    | some f => simp [IdSet.contains_insert, Bool.or_comm]
  · simp [howner]

/-- Taking a definition out of the closure set of another. -/
theorem owns_erase (p : Program) (id child owner fn : FuncId) :
    (p.modifyFunc id fun f => { f with closures := f.closures.erase child }).owns owner fn =
      (p.owns owner fn && decide (owner = id → fn ≠ child)) := by
  rw [owns_eq_any, owns_eq_any, func?_modifyFunc]
  by_cases howner : owner = id
  · subst howner
    rw [if_pos rfl]
    cases p.func? owner with
    | none => simp
    | some f => simp [IdSet.contains_erase, Bool.and_comm]
  · simp [howner]

theorem owns_push (p : Program) (parent : FuncId) (name : String) (params : List Variable)
    (result : Ty) (owner fn : FuncId) :
    ({ p with funcs := p.funcs.push { name, params, result, parent } } : Program).owns owner fn =
      p.owns owner fn := by
  rw [owns_eq_any, owns_eq_any, func?_push]
  split
  · next howner =>
      have hnone : p.func? owner = none := by
        rw [← Option.not_isSome_iff_eq_none, isSome_func?]
        omega
      rw [hnone, Option.any_some, IdSet.contains_withCapacity]
      rfl
  · rfl

/-- The parent links of a program lead to roots if those of a forest do and the
two differ in a definition that is not met on the way. -/
theorem rooted_of_parent {q : Program} (hp : p.Forest) (child : FuncId)
    (hother : ∀ fn, fn ≠ child → q.parent fn = p.parent fn)
    (hchild : ∀ k, p.parent^[k] (q.parent child) ≠ child) (fn : FuncId) :
    ∃ k, q.parent^[k] fn = noFunc := by
  have havoids (fn : FuncId) : (∀ k, p.parent^[k] fn ≠ child) → ∃ k, q.parent^[k] fn = noFunc := by
    refine hp.induction (motive := fun fn => (∀ k, p.parent^[k] fn ≠ child) →
      ∃ k, q.parent^[k] fn = noFunc) (fun _ => ⟨0, rfl⟩) (fun fn _ ih hfn => ?_) fn
    obtain ⟨k, hk⟩ := ih fun k => hfn (k + 1)
    refine ⟨k + 1, ?_⟩
    rw [Function.iterate_succ_apply, hother fn (hfn 0), hk]
  obtain ⟨m, hm⟩ := havoids _ hchild
  refine hp.induction (motive := fun fn => ∃ k, q.parent^[k] fn = noFunc) ⟨0, rfl⟩
    (fun fn _ ih => ?_) fn
  by_cases hfn : fn = child
  · exact ⟨m + 1, by rw [Function.iterate_succ_apply, hfn, hm]⟩
  · obtain ⟨k, hk⟩ := ih
    exact ⟨k + 1, by rw [Function.iterate_succ_apply, hother fn hfn, hk]⟩

theorem Forest.iterate_known (hp : p.Forest) {fn : FuncId}
    (h : fn = noFunc ∨ (p.func? fn).isSome) (k : Nat) :
    p.parent^[k] fn = noFunc ∨ (p.func? (p.parent^[k] fn)).isSome := by
  cases k with
  | zero => exact h
  | succ k =>
      rw [Function.iterate_succ_apply']
      exact hp.known _

theorem Forest.newFunc (hp : p.Forest) {parent : FuncId}
    (hparent : parent = noFunc ∨ (p.func? parent).isSome) (name : String)
    (params : List Variable) (result : Ty) : (p.newFunc parent name params result).2.Forest := by
  have hknown {fn : FuncId} (h : (p.func? fn).isSome) :
      ((p.newFunc parent name params result).2.func? fn).isSome := by
    rw [isSome_func?] at h ⊢
    rw [newFunc_size]
    omega
  have hlast : (p.func? (p.size + 1)).isSome = false := by
    rw [Bool.eq_false_iff, ne_eq, isSome_func?]
    omega
  have hne : parent ≠ p.size + 1 := by
    rintro rfl
    rcases hparent with hparent | hparent
    · cases hparent
    · rw [hlast] at hparent
      cases hparent
  have howns (owner fn : FuncId) : (p.newFunc parent name params result).2.owns owner fn =
      (p.owns owner fn || decide (owner = parent ∧ (p.func? parent).isSome ∧ fn = p.size + 1)) := by
    simp only [Program.newFunc]
    rw [owns_insert, owns_push, func?_push, if_neg hne]
    rfl
  refine ⟨fun fn => ?_, fun owner fn => ?_,
    rooted_of_parent hp (p.size + 1) (fun fn hfn => ?_) fun k => ?_⟩
  · rw [parent_newFunc]
    split
    · exact hparent.imp_right hknown
    · exact (hp.known fn).imp_right hknown
  · rw [howns, Bool.or_eq_true, hp.owns, decide_eq_true_eq, parent_newFunc]
    split
    · next hfn =>
        have hroot : p.parent fn = noFunc := by
          by_contra hparent
          rw [hfn] at hparent
          rw [isSome_of_parent hparent] at hlast
          cases hlast
        rw [hroot]
        constructor
        · rintro (⟨howner, rfl⟩ | ⟨rfl, hsome, -⟩)
          · exact absurd rfl howner
          · refine ⟨?_, rfl⟩
            rintro rfl
            cases hsome
        · rintro ⟨howner, rfl⟩
          exact .inr ⟨rfl, hparent.resolve_left howner, hfn⟩
    · next hfn => simp [hfn]
  · rw [parent_newFunc, if_neg hfn]
  · rw [parent_newFunc, if_pos rfl]
    intro h
    rcases hp.iterate_known hparent k with hk | hk
    · rw [hk] at h
      cases h
    · rw [h, hlast] at hk
      cases hk

/-! ## Moves -/

/-- The chain of a definition holds it and all that own it. -/
theorem Forest.mem_chain (hp : p.Forest) {fn a : FuncId} :
    a ∈ p.chain fn ↔ a ≠ noFunc ∧ ∃ k, p.parent^[k] fn = a := by
  constructor
  · intro ha
    obtain ⟨k, -, hk, hne⟩ := mem_chainFrom ha
    exact ⟨hne, k, hk⟩
  · rintro ⟨hne, k, rfl⟩
    induction k generalizing fn with
    | zero =>
        rw [Function.iterate_zero, id] at hne ⊢
        rw [hp.chain_eq hne]
        exact .head _
    | succ k ih =>
        have hfn : fn ≠ noFunc := by
          rintro rfl
          rw [iterate_parent_noFunc] at hne
          exact hne rfl
        rw [hp.chain_eq hfn]
        exact .tail _ (ih hne)

theorem parent_setParent (p : Program) (child newParent fn : FuncId) :
    (p.modifyFunc child fun f => { f with parent := newParent }).parent fn =
      if fn = child ∧ (p.func? child).isSome then newParent else p.parent fn := by
  rw [parent_eq_getD, parent_eq_getD, func?_modifyFunc]
  by_cases hfn : fn = child
  · subst hfn
    rw [if_pos rfl]
    cases p.func? fn <;> simp
  · rw [if_neg hfn, if_neg fun h => hfn h.1]

theorem parent_moveTo {child : FuncId} (hchild : (p.func? child).isSome) (newParent fn : FuncId) :
    (p.moveTo child newParent).parent fn = if fn = child then newParent else p.parent fn := by
  unfold moveTo
  split
  · next h =>
      split
      · next hfn => rw [hfn, h]
      · rfl
  · simp only
    rw [parent_modifyFunc (by intro f; rfl), parent_setParent, isSome_func?_modifyFunc,
      parent_modifyFunc (by intro f; rfl)]
    simp [hchild]

theorem isSome_func?_moveTo (p : Program) (child newParent fn : FuncId) :
    ((p.moveTo child newParent).func? fn).isSome = (p.func? fn).isSome := by
  unfold moveTo
  split
  · rfl
  · simp only [isSome_func?_modifyFunc]

theorem Forest.owns_moveTo (hp : p.Forest) {child newParent : FuncId}
    (hparent : newParent = noFunc ∨ (p.func? newParent).isSome) (owner fn : FuncId) :
    (p.moveTo child newParent).owns owner fn = true ↔
      owner ≠ noFunc ∧ (if fn = child then newParent else p.parent fn) = owner := by
  unfold moveTo
  split
  · next h =>
      rw [hp.owns]
      split
      · next hfn => rw [hfn, h]
      · rfl
  · next h =>
      simp only
      rw [owns_insert, owns_modifyFunc (by intro f; rfl), owns_erase, isSome_func?_modifyFunc,
        isSome_func?_modifyFunc, Bool.or_eq_true, Bool.and_eq_true, hp.owns]
      simp only [decide_eq_true_eq]
      by_cases hfn : fn = child
      · rw [if_pos hfn]
        constructor
        · rintro (⟨⟨-, rfl⟩, hother⟩ | ⟨rfl, hsome, -⟩)
          · exact absurd hfn (hother (by rw [hfn]))
          · refine ⟨?_, rfl⟩
            rintro rfl
            cases hsome
        · rintro ⟨howner, rfl⟩
          exact .inr ⟨rfl, hparent.resolve_left howner, hfn⟩
      · simp [hfn]

/-- What a successful move was asked for. -/
theorem reparent_eq_ok {q : Program} {child newParent : FuncId}
    (h : p.reparent child newParent = .ok q) :
    (p.func? child).isSome ∧ (newParent = noFunc ∨ (p.func? newParent).isSome) ∧
      child ∉ p.chain newParent ∧ q = p.moveTo child newParent := by
  unfold Program.reparent at h
  split at h
  · cases h
  · next hchild =>
      rw [Bool.not_eq_true, Option.isNone_eq_false_iff] at hchild
      split at h
      · next hroot =>
          cases h
          refine ⟨hchild, .inl hroot, ?_, rfl⟩
          rw [hroot, chain_noFunc]
          exact List.not_mem_nil
      · split at h
        · cases h
        · next hparent =>
            rw [Bool.not_eq_true, Option.isNone_eq_false_iff] at hparent
            split at h
            · cases h
            · next hcycle =>
                cases h
                exact ⟨hchild, .inr hparent, by simpa using hcycle, rfl⟩

theorem Forest.reparent (hp : p.Forest) {q : Program} {child newParent : FuncId}
    (h : p.reparent child newParent = .ok q) : q.Forest := by
  obtain ⟨hchild, hparent, hcycle, rfl⟩ := reparent_eq_ok h
  refine ⟨fun fn => ?_, fun owner fn => ?_,
    rooted_of_parent hp child (fun fn hfn => ?_) fun k hk => ?_⟩
  · rw [parent_moveTo hchild, isSome_func?_moveTo]
    split
    · exact hparent
    · exact hp.known fn
  · rw [hp.owns_moveTo hparent, parent_moveTo hchild]
  · rw [parent_moveTo hchild, if_neg hfn]
  · rw [parent_moveTo hchild, if_pos rfl] at hk
    refine hcycle (hp.mem_chain.2 ⟨?_, k, hk⟩)
    rintro rfl
    cases hchild

/-! ## Findings about ownership -/

theorem nodup_ids (p : Program) : p.ids.Nodup :=
  List.Nodup.map (fun _ _ h => Nat.succ.inj h) List.nodup_range

/-- The owner of a definition is the only one that has it in its closure set. -/
theorem Forest.owners_eq (hp : p.Forest) (fn : FuncId) :
    p.owners fn = if p.parent fn = noFunc then [] else [p.parent fn] := by
  split
  · next hroot =>
      refine List.filter_eq_nil_iff.2 fun owner _ howns => ?_
      obtain ⟨howner, hparent⟩ := (hp.owns owner fn).1 howns
      exact howner (hparent.symm.trans hroot)
  · next hparent =>
      have howner : p.owners fn = p.ids.filter (· = p.parent fn) := by
        refine List.filter_congr fun owner hid => ?_
        rw [Bool.eq_iff_iff, hp.owns, decide_eq_true_eq]
        constructor
        · rintro ⟨-, rfl⟩
          rfl
        · rintro rfl
          exact ⟨hparent, rfl⟩
      have hmem : p.parent fn ∈ p.ids := mem_ids.2 ((hp.known fn).resolve_left hparent)
      rw [howner, List.filter_eq, List.count_eq_one_of_mem p.nodup_ids hmem]
      rfl

theorem Forest.mem_closures (hp : p.Forest) {owner fn : FuncId} :
    fn ∈ p.closures owner ↔ owner ≠ noFunc ∧ p.parent fn = owner := by
  rw [← hp.owns, owns_eq_any, closures]
  cases p.func? owner with
  | none => simp
  | some f => simp [IdSet.mem_toList]

/-- There is nothing wrong with the ownership of a forest. -/
theorem Forest.ownershipProblems_eq_nil (hp : p.Forest) : p.ownershipProblems = [] := by
  have hunknown : p.unknownClosures = [] := by
    refine List.flatMap_eq_nil_iff.2 fun id _ => List.map_eq_nil_iff.2 ?_
    refine List.filter_eq_nil_iff.2 fun c hc => ?_
    obtain ⟨hid, hparent⟩ := hp.mem_closures.1 hc
    have hknown : (p.func? c).isSome := isSome_of_parent (by rwa [hparent])
    simp [Option.isNone_eq_false_iff.2 hknown]
  rw [ownershipProblems, hunknown, List.nil_append]
  refine List.filterMap_eq_nil_iff.2 fun id _ => ?_
  rw [ownershipProblem?, hp.owners_eq]
  by_cases hroot : p.parent id = noFunc
  · simp [hroot]
  · simp [hroot]

end Resumable.Program
