import Mathlib.Data.List.Sort
import Resumable.Proofs.Arena.Sharing

/-!
# Ownership over time

A program starts without definitions; then definitions are added and moved, and
some of the moves are refused. Whatever is done, parent links and closure sets
say the same, nothing owns itself, and every walk up the owners comes to an end.
-/

namespace Resumable.Program

inductive Act where
  | define (parent : FuncId) (name : String) (params : List Variable) (result : Ty)
  /-- A move, with what its failure would be called. -/
  | move (phase : Phase) (detail : String) (child parent : FuncId)

namespace Act

def work : Act → Lowering Unit
  | define parent name params result => do
      let _ ← Lowering.newFunc parent name params result
  | move phase detail child parent => Lowering.reparent phase detail child parent

def after (act : Act) (w : Workspace) : Workspace :=
  match act.work w with
  | .ok _ w' => w'
  | .error _ w' => w'

/-- New definitions are roots or belong to a definition; a move may name any
numbers. -/
def admissible (p : Program) : Act → Bool
  | define parent .. => parent = noFunc || (p.func? parent).isSome
  | move .. => true

end Act

def history : List Act → Workspace → Workspace
  | [], w => w
  | act :: rest, w => history rest (act.after w)

/-- Whether each act of a row is admissible when its turn comes. -/
def admissible : List Act → Workspace → Bool
  | [], _ => true
  | act :: rest, w => act.admissible w.program && admissible rest (act.after w)

/-! ## Acts keep the forest -/

/-- A refused move leaves everything as it was. -/
theorem eq_of_reparent_error {phase : Phase} {detail : String} {child parent : FuncId}
    {w w' : Workspace} {f : Failure}
    (h : Lowering.reparent phase detail child parent w = .error f w') : w' = w := by
  unfold Lowering.reparent at h
  split at h
  · cases h
  · cases h
    rfl

theorem Forest.act {w : Workspace} (hw : w.program.Forest) {act : Act}
    (hact : act.admissible w.program = true) : (act.after w).program.Forest := by
  cases act with
  | define parent name params result =>
      have hparent : parent = noFunc ∨ (w.program.func? parent).isSome := by
        simpa [Act.admissible] using hact
      exact hw.newFunc hparent name params result
  | move phase detail child parent =>
      simp only [Act.after, Act.work]
      cases hmove : Lowering.reparent phase detail child parent w with
      | error f w' =>
          rw [eq_of_reparent_error hmove]
          exact hw
      | ok a w' =>
          unfold Lowering.reparent at hmove
          split at hmove
          · next hreparent =>
              cases hmove
              exact hw.reparent hreparent
          · cases hmove

theorem Forest.history {acts : List Act} {w : Workspace} (hw : w.program.Forest)
    (hacts : admissible acts w = true) : (Program.history acts w).program.Forest := by
  induction acts generalizing w with
  | nil => exact hw
  | cons act rest ih =>
      rw [admissible, Bool.and_eq_true] at hacts
      exact ih (hw.act hacts.1) hacts.2

/-! ## What a forest looks like through the queries -/

variable {p : Program}

theorem pairwise_ids (p : Program) : p.ids.Pairwise (· < ·) :=
  List.pairwise_map.2 (List.pairwise_lt_range.imp fun h => Nat.add_lt_add_right h 1)

theorem pairwise_closures (p : Program) (owner : FuncId) : (p.closures owner).Pairwise (· < ·) := by
  unfold closures
  cases p.func? owner with
  | none => exact .nil
  | some f => exact f.closures.pairwise_toList

/-- The closures of an owner are the definitions with that owner, in order. -/
theorem Forest.closures_eq (hp : p.Forest) {owner : FuncId} (howner : owner ≠ noFunc) :
    p.closures owner = p.ids.filter fun fn => p.parent fn = owner := by
  refine (p.pairwise_closures owner).eq_of_mem_iff (p.pairwise_ids.filter _) fun fn => ?_
  rw [hp.mem_closures, List.mem_filter, decide_eq_true_eq, mem_ids]
  constructor
  · rintro ⟨-, hparent⟩
    exact ⟨isSome_of_parent (hparent ▸ howner), hparent⟩
  · rintro ⟨-, hparent⟩
    exact ⟨howner, hparent⟩

/-- Every definition is a root or a closure of one definition. -/
theorem Forest.perm_ids (hp : p.Forest) : (p.roots ++ p.ids.flatMap p.closures).Perm p.ids := by
  have hclosures : p.ids.flatMap p.closures =
      p.ids.flatMap fun owner => p.ids.filter fun fn => p.parent fn = owner :=
    List.flatMap_congr fun owner howner => hp.closures_eq fun h => by
      rw [h, mem_ids] at howner
      cases howner
  have hnodup : (p.roots ++ p.ids.flatMap p.closures).Nodup := by
    rw [hclosures, List.nodup_append, List.nodup_flatMap]
    refine ⟨p.nodup_ids.filter _, ⟨fun owner _ => p.nodup_ids.filter _, ?_⟩, ?_⟩
    · -- a definition has one owner only
      refine p.nodup_ids.imp fun {a b} hne fn ha hb => hne ?_
      rw [List.mem_filter, decide_eq_true_eq] at ha hb
      exact ha.2.symm.trans hb.2
    · intro root hroot fn hfn heq
      obtain ⟨owner, howner, hmem⟩ := List.mem_flatMap.1 hfn
      simp only [roots, List.mem_filter, decide_eq_true_eq] at hroot hmem
      rw [← hmem.2, ← heq, hroot.2, mem_ids] at howner
      cases howner
  refine (List.perm_ext_iff_of_nodup hnodup p.nodup_ids).2 fun fn => ?_
  rw [hclosures]
  simp only [roots, List.mem_append, List.mem_filter, List.mem_flatMap, decide_eq_true_eq]
  constructor
  · rintro (⟨hfn, -⟩ | ⟨-, -, hfn, -⟩)
    · exact hfn
    · exact hfn
  · intro hfn
    by_cases hroot : p.parent fn = noFunc
    · exact .inl ⟨hfn, hroot⟩
    · exact .inr ⟨p.parent fn, mem_ids.2 ((hp.known fn).resolve_left hroot), hfn, rfl⟩

/-- A longer walk than to the root finds nothing more. -/
theorem Forest.chainFrom_eq_chain (hp : p.Forest) {steps : Nat} (hsteps : p.size < steps)
    (fn : FuncId) : p.chainFrom steps fn = p.chain fn :=
  chainFrom_eq (hp.iterate_size fn) hsteps

/-- No definition is its own ancestor. -/
theorem Forest.iterate_ne (hp : p.Forest) {fn : FuncId} (hfn : fn ≠ noFunc) (k : Nat) :
    p.parent^[k + 1] fn ≠ fn := by
  intro hloop
  have hnodup := nodup_chainFrom hp (p.size + 2) fn
  rw [hp.chainFrom_eq_chain (by omega), hp.chain_eq hfn, List.nodup_cons] at hnodup
  exact hnodup.1 (hp.mem_chain.2 ⟨hfn, k, hloop⟩)

/-- What all queries about the owners in a program agree on. -/
structure WellOwned (p : Program) : Prop where
  known : ∀ fn, p.parent fn = noFunc ∨ (p.func? (p.parent fn)).isSome
  acyclic : ∀ fn k, fn ≠ noFunc → p.parent^[k + 1] fn ≠ fn
  owners : ∀ fn, p.owners fn = if p.parent fn = noFunc then [] else [p.parent fn]
  closures : ∀ owner, owner ≠ noFunc → p.closures owner = p.ids.filter fun fn => p.parent fn = owner
  ascending : ∀ owner, (p.closures owner).Pairwise (· < ·)
  once : (p.roots ++ p.ids.flatMap p.closures).Perm p.ids ∧ p.ids.Nodup
  problems : p.ownershipProblems = []
  /-- A walk up the owners meets no more of them than there are definitions, so
  that a longer walk finds nothing more. -/
  walks : ∀ fn steps, p.size < steps → p.parent^[steps] fn = noFunc ∧ p.chainFrom steps fn = p.chain fn

theorem Forest.wellOwned (hp : p.Forest) : p.WellOwned where
  known := hp.known
  acyclic := fun _ k hfn => hp.iterate_ne hfn k
  owners := hp.owners_eq
  closures := fun _ => hp.closures_eq
  ascending := p.pairwise_closures
  once := ⟨hp.perm_ids, p.nodup_ids⟩
  problems := hp.ownershipProblems_eq_nil
  walks := by
    intro fn steps hsteps
    obtain ⟨more, rfl⟩ := Nat.exists_eq_add_of_lt hsteps
    constructor
    · rw [show p.size + more + 1 = more + (p.size + 1) by omega, Function.iterate_add_apply,
        hp.iterate_size, iterate_parent_noFunc]
    · exact hp.chainFrom_eq_chain hsteps fn

/-- Whatever is done to a program without definitions, its ownership is in
order, and a move that is refused then changes nothing. -/
theorem wellOwned_history {acts : List Act} {w : Workspace} (hempty : w.program.size = 0)
    (hacts : admissible acts w = true) :
    (history acts w).program.WellOwned ∧
      ∀ phase detail child parent f w',
        Lowering.reparent phase detail child parent (history acts w) = .error f w' →
          w' = history acts w :=
  ⟨((forest_of_size_eq_zero hempty).history hacts).wellOwned, fun _ _ _ _ _ _ => eq_of_reparent_error⟩

/-- Three definitions one inside the other. The outermost cannot move into the
innermost, which then moves out to it. -/
def moves : List Act :=
  [.define noFunc "f" [] .void, .define 1 "g" [] .void, .define 2 "h" [] .void,
    .move .lower "inwards" 1 3, .move .lower "nowhere" 2 9, .move .lower "outwards" 3 1]

theorem wellOwned_history_moves :
    let w := history moves { program := {} }
    w.program.closures 1 = [2, 3] ∧ w.program.closures 2 = [] ∧ w.program.WellOwned :=
  ⟨by decide +kernel, by decide +kernel, (wellOwned_history rfl (by decide +kernel)).1⟩

end Resumable.Program
