import Mathlib.Data.List.Count
import Resumable.Proofs.Jump.Elimination
import Resumable.Proofs.Lowering.After
import Resumable.Proofs.Tree.Contents

/-!
# What forming fragments keeps up

Removing the jumps of a function numbers the statements of its body, declares
label variables, makes fragments and sets the body; it does nothing else to a
program. The literals in hand are those of the blocks to come and those of the
fragments made: a fragment takes the literals of its block out of hand and comes
to hand itself.
-/

namespace Resumable

/-! ## Literals of statements -/

theorem bodyLiterals_cons (s : Stmt) (rest : List Stmt) :
    bodyLiterals (s :: rest) = bodyLiterals [s] ++ bodyLiterals rest :=
  bodyLiterals_append [s] rest

theorem bodyLiterals_flatMap {α : Type} (xs : List α) (f : α → List Stmt) :
    bodyLiterals (xs.flatMap f) = xs.flatMap fun x => bodyLiterals (f x) := by
  induction xs with
  | nil => rfl
  | cons x xs ih => rw [List.flatMap_cons, bodyLiterals_append, ih, List.flatMap_cons]

theorem bodyLiterals_sublist {xs ys : List Stmt} (h : xs.Sublist ys) :
    (bodyLiterals xs).Sublist (bodyLiterals ys) := by
  induction h with
  | slnil => exact .slnil
  | @cons xs ys s _ ih =>
      rw [bodyLiterals_cons s ys]
      exact ih.trans (List.sublist_append_right _ _)
  | @cons_cons xs ys s _ ih =>
      rw [bodyLiterals_cons s xs, bodyLiterals_cons s ys]
      exact ih.append_left _

theorem bodyLiterals_of_same {body body' : List Stmt} (h : SameStmts body body') :
    bodyLiterals body' = bodyLiterals body := by
  induction h with
  | nil => rfl
  | @cons s s' rest rest' hs _ ih =>
      have hfirst : bodyLiterals [s'] = bodyLiterals [s] := by
        obtain rfl | ⟨x, n, n', rfl, rfl⟩ := Stmt.same_cases hs
        · rfl
        · rw [bodyLiterals_simple, bodyLiterals_simple]
      rw [bodyLiterals_cons s, bodyLiterals_cons s', hfirst, ih]

/-- A walk that picks nothing from the expressions that lowering adds itself. -/
structure Expr.Overlooks {β : Type} (pick : Expr → Option β) : Prop where
  ref : ∀ v, pick (.ref v) = none
  call : ∀ f es t, pick (.call f es t) = none
  construct : ∀ c es, pick (.construct c es) = none
  property : ∀ x name t, pick (.property x name t) = none
  setting : ∀ x name t y, pick (.assign (.property x name t) y) = none

theorem Expr.overlooks_lambdaId? : Overlooks lambdaId? :=
  ⟨fun _ => rfl, fun _ _ _ => rfl, fun _ _ => rfl, fun _ _ _ => rfl, fun _ _ _ _ => rfl⟩

theorem bodyPicks_cons {β : Type} (pick : Expr → Option β) (s : Stmt) (rest : List Stmt) :
    bodyPicks pick (s :: rest) = bodyPicks pick [s] ++ bodyPicks pick rest :=
  bodyPicks_append pick [s] rest

namespace Elimination

section

variable {β : Type} {pick : Expr → Option β} (hpick : Expr.Overlooks pick) (vars : LabelVars)

include hpick

theorem bodyPicks_tailCall (l : String) : bodyPicks pick [tailCall vars l] = [] := by
  unfold tailCall
  split <;> simp [Simple.slots, Expr.mkCall, Expr.nodes, Expr.nodesList, hpick.call, hpick.ref]

theorem bodyPicks_convertArm (arm : Arm) :
    bodyPicks pick (convertArm vars arm) = arm.value.nodes.filterMap pick := by
  rw [convertArm, bodyPicks_cons, bodyPicks_tailCall hpick, List.append_nil]
  cases arm.value with
  | missing => rfl
  | _ => simp [Expr.isMissing, bodyPicks, allExprs, allStmts, preorderList, Stmt.preorder,
      Stmt.exprs, Stmt.slots]

theorem bodyPicks_convertArms (arms : List Arm) :
    bodyPicks pick (arms.flatMap (convertArm vars)) =
      arms.flatMap fun arm => arm.value.nodes.filterMap pick := by
  induction arms with
  | nil => rfl
  | cons arm arms ih =>
      rw [List.flatMap_cons, bodyPicks_append, bodyPicks_convertArm hpick, ih, List.flatMap_cons]

/-- What is picked from converted jumps is picked from the jumps. -/
theorem bodyPicks_convertStmt (s : Stmt) :
    bodyPicks pick [convertStmt vars s] = bodyPicks pick [s] := by
  cases s with
  | goto l => exact bodyPicks_tailCall hpick vars l
  | condGoto c t e =>
      have hways := congrArg₂ (· ++ ·) (bodyPicks_tailCall hpick vars t)
        (bodyPicks_tailCall hpick vars e)
      simp only [bodyPicks_eq] at hways ⊢
      simpa [convertStmt, allStmts, preorderList, Stmt.preorder, Stmt.slots] using hways
  | dispatch x arms =>
      have harms := bodyPicks_convertArms hpick vars arms
      simp only [bodyPicks_eq] at harms ⊢
      simpa [convertStmt, allStmts, preorderList, Stmt.preorder, Stmt.slots,
        List.flatMap_map] using harms
  | _ => rfl

theorem bodyPicks_map_convertStmt (stmts : List Stmt) :
    bodyPicks pick (stmts.map (convertStmt vars)) = bodyPicks pick stmts := by
  induction stmts with
  | nil => rfl
  | cons s rest ih =>
      rw [List.map_cons, bodyPicks_cons, bodyPicks_convertStmt hpick, ih, ← bodyPicks_cons]

end

theorem bodyLiterals_tailCall (vars : LabelVars) (l : String) :
    bodyLiterals [tailCall vars l] = [] :=
  bodyPicks_tailCall Expr.overlooks_lambdaId? vars l

theorem bodyLiterals_map_convertStmt (vars : LabelVars) (stmts : List Stmt) :
    bodyLiterals (stmts.map (convertStmt vars)) = bodyLiterals stmts :=
  bodyPicks_map_convertStmt Expr.overlooks_lambdaId? vars stmts

/-! ## Fragments -/

/-- A hook that neither loses nor adds anything but what lowering adds itself. -/
def Hook.Faithful {η : Type} (hook : Hook η) : Prop :=
  ∀ (β : Type) (pick : Expr → Option β), Expr.Overlooks pick → ∀ p f n body n',
    hook p f n = .ok body n' → bodyPicks pick body = bodyPicks pick f.body

theorem Hook.Faithful.literals {η : Type} {hook : Hook η} (h : hook.Faithful) {p : Program}
    {f : Fragment} {n n' : η} {body : List Stmt} (hrun : hook p f n = .ok body n') :
    bodyLiterals body = bodyLiterals f.body :=
  h _ _ Expr.overlooks_lambdaId? p f n body n' hrun

theorem faithful_noHook : Hook.Faithful noHook := by
  intro β pick hpick p f n body n' h
  cases h
  rfl

theorem bodyOf_shareBody (p : Program) (id : FuncId) : ∃ body, SameStmts (p.bodyOf id) body ∧
    (p.shareBody id).bodyOf id = body := by
  unfold Program.shareBody
  cases hf : p.func? id with
  | none =>
      refine ⟨[], ?_, ?_⟩
      · rw [Program.bodyOf, hf]
        exact .nil
      · rw [Program.bodyOf, hf]
        rfl
  | some f =>
      refine ⟨_, ?_, rfl⟩
      have hsame := Stmt.same_share f.body (p.shareCount + ·)
      have hbody (body : List Stmt) :
          Program.bodyOf (p.modifyFunc id fun g => { g with body }) id = body := by
        rw [Program.bodyOf, Program.func?_modifyFunc, if_pos rfl, hf]
        rfl
      have hold : p.bodyOf id = f.body := by
        rw [Program.bodyOf, hf]
        rfl
      rw [hold]
      exact (hbody _).symm ▸ hsame

/-- What the steps of removing jumps keep up: `Inv` with the literals in hand,
`Done` when the body is set and `Failed` where the work stops. -/
structure Upkeep (id : FuncId) (Inv : List FuncId → Workspace → Prop)
    (Done Failed : Workspace → Prop) (New : FuncId → Prop) : Prop where
  failed : ∀ {ls w}, Inv ls w → Failed w
  fewer : ∀ {ls ls' w}, (∀ c, ls'.count c ≤ ls.count c) → Inv ls w → Inv ls' w
  shared : ∀ {ls w}, Inv ls w → Inv ls { w with program := w.program.shareBody id }
  declared : ∀ {ls w} l type, Inv ls w →
    After (do
      let v ← Lowering.newVariable l type
      Lowering.addLocal id v
      return v) w (fun _ w' => Inv ls w') Failed
  begun : ∀ {ls w} result, Inv ls w →
    After (Lowering.newFunc id "" [] result) w (fun fn w' => New fn ∧ Inv ([fn] ++ ls) w') Failed
  adopted : ∀ {ls w fn body} detail, New fn → Inv ([fn] ++ (bodyLiterals body ++ ls)) w →
    After (Lowering.adoptBody .eliminate detail fn body) w (fun _ w' => Inv ([fn] ++ ls) w') Failed
  closed : ∀ {w body}, Inv (bodyLiterals body) w →
    Done { w with program := w.program.modifyFunc id fun f => { f with body } }

section

variable {η : Type} {id : FuncId} {Inv : List FuncId → Workspace → Prop}
  {Done Failed : Workspace → Prop} {New : FuncId → Prop}

theorem after_onWorkspace {α : Type} {m : Lowering α} {w : Workspace} {n : η}
    {done : α → Workspace × η → Prop} {failed : Workspace × η → Prop}
    (h : After m w (fun a w' => done a (w', n)) fun w' => failed (w', n)) :
    After (onWorkspace m) (w, n) done failed := by
  unfold After onWorkspace
  unfold After at h
  split at h
  · next hm =>
      simp only [hm]
      exact h
  · next hm =>
      simp only [hm]
      exact h

namespace Upkeep

variable (up : Upkeep id Inv Done Failed New) {w : Workspace} {ls : List FuncId}

include up

theorem declareLabels {type : Ty} (labels : List String) (hw : Inv ls w) :
    After (Elimination.declareLabels id type labels) w (fun _ w' => Inv ls w') Failed := by
  induction labels generalizing w with
  | nil => exact hw
  | cons l rest ih =>
      refine (up.declared l type hw).bind (f := fun v => do
        return (l, v) :: (← Elimination.declareLabels id type rest)) fun v w₁ hw₁ => ?_
      exact (ih hw₁).bind fun vars w₂ hw₂ => hw₂

/-- Making a fragment takes the literals of the block out of hand. -/
theorem makeFragment {hook : Hook η} (hhook : hook.Faithful) {result : Ty} {vars : LabelVars}
    {b : Block} {n : η} (hw : Inv (bodyLiterals b.stmts ++ ls) w) :
    After (Elimination.makeFragment hook id result vars b) (w, n)
      (fun r s => Inv (bodyLiterals [r.1] ++ ls) s.1) fun s => Failed s.1 := by
  have hbody : After (runHook hook ⟨b.label, b.stmts.map (convertStmt vars), vars⟩) (w, n)
      (fun body s => s.1 = w ∧ bodyLiterals body = bodyLiterals b.stmts) fun s => Failed s.1 := by
    refine .intro (fun body s h => ?_) fun e s h => ?_
    · obtain ⟨hrun, rfl⟩ := runHook_eq_ok.1 h
      exact ⟨rfl, (hhook.literals hrun).trans (bodyLiterals_map_convertStmt vars b.stmts)⟩
    · simp only [runHook] at h
      split at h
      · cases h
      · cases h
        exact up.failed hw
  refine hbody.bind fun body s hs => ?_
  obtain ⟨w₁, n₁⟩ := s
  obtain ⟨rfl, hlits⟩ := hs
  refine after_onWorkspace ((up.begun result hw).bind fun fn w₂ hfn => ?_)
  have hopen : Inv ([fn] ++ (bodyLiterals body ++ ls)) w₂ := by
    rw [hlits]
    exact hfn.2
  refine (up.adopted _ hfn.1 hopen).bind fun n w₃ hw₃ => ?_
  have hlambda : After (Lowering.lambda fn) w₃ (fun f w => ∃ t, f = .lambda fn t ∧ w = w₃) Failed :=
    Lowering.after_lambda fun t => ⟨t, rfl, rfl⟩
  refine hlambda.bind fun f w₄ hf => ?_
  obtain ⟨t, rfl, rfl⟩ := hf
  refine up.fewer (fun c => ?_) hw₃
  split <;> simp [Simple.slots]

theorem makeFragments {hook : Hook η} (hhook : hook.Faithful) {result : Ty} {vars : LabelVars}
    (blocks : List Block) {n : η}
    (hw : Inv (blocks.flatMap (fun b => bodyLiterals b.stmts) ++ ls) w) :
    After (Elimination.makeFragments hook id result vars blocks) (w, n)
      (fun r s => Inv (bodyLiterals r.1 ++ ls) s.1) fun s => Failed s.1 := by
  induction blocks generalizing w n ls with
  | nil => exact hw
  | cons b rest ih =>
      have hfirst : Inv (bodyLiterals b.stmts ++
          (rest.flatMap (fun b => bodyLiterals b.stmts) ++ ls)) w := by
        simpa using hw
      refine (up.makeFragment hhook hfirst).bind fun r s hr => ?_
      obtain ⟨w₁, n₁⟩ := s
      have hnext : Inv (rest.flatMap (fun b => bodyLiterals b.stmts) ++
          (bodyLiterals [r.1] ++ ls)) w₁ := by
        refine up.fewer (fun c => ?_) hr
        simp only [List.count_append]
        omega
      refine (ih hnext).bind fun r' s hr' => ?_
      refine up.fewer (fun c => ?_) hr'
      rw [bodyLiterals_cons r.1 r'.1]
      simp only [List.count_append]
      omega

/-- Removing the jumps of a function whose literals are in hand. -/
theorem eliminate {hook : Hook η} (hhook : hook.Faithful) {result : Ty} {n : η}
    (hw : Inv (bodyLiterals (w.program.bodyOf id)) w) :
    After (Elimination.eliminate hook id result) (w, n) (fun _ s => Done s.1) fun s =>
      Failed s.1 := by
  obtain ⟨body, hsame, hbody⟩ := bodyOf_shareBody w.program id
  have hshared : Inv (bodyLiterals body) { w with program := w.program.shareBody id } := by
    rw [bodyLiterals_of_same hsame]
    exact up.shared hw
  have hfunc : (((w.program.shareBody id).func? id).getD { name := "" }).body = body := by
    rw [← hbody, Program.bodyOf]
    cases (w.program.shareBody id).func? id <;> rfl
  unfold Elimination.eliminate
  refine After.bind_ok rfl (After.bind_ok rfl ?_)
  simp only [hfunc]
  cases hg : Graph.build body with
  | error e => exact up.failed hshared
  | ok g =>
      refine After.bind_ok rfl ?_
      have hlabels : After (onWorkspace (Elimination.declareLabels id (.function result []) g.labels))
          ({ w with program := w.program.shareBody id }, n)
          (fun _ s => Inv (bodyLiterals body) s.1) fun s => Failed s.1 :=
        after_onWorkspace (up.declareLabels g.labels hshared)
      refine hlabels.bind fun vars s hs => ?_
      obtain ⟨w₁, n₁⟩ := s
      -- the blocks hold each statement of the body at most once
      have hblocks : (bodyLiterals (g.blocks.flatMap Block.stmts)).Sublist (bodyLiterals body) := by
        rw [(Graph.describes_of_build hg).eq_split]
        exact bodyLiterals_sublist (Graph.split_sublist body)
      have hhand : Inv (g.labelled.flatMap (fun b => bodyLiterals b.stmts) ++
          bodyLiterals g.entry.stmts) w₁ := by
        refine up.fewer (fun c => ?_) hs
        have hcount := hblocks.count_le c
        rw [bodyLiterals_flatMap, Graph.blocks, List.flatMap_cons, List.count_append] at hcount
        rw [List.count_append]
        omega
      refine (up.makeFragments hhook g.labelled hhand).bind fun r s hr => ?_
      obtain ⟨w₂, n₂⟩ := s
      refine After.bind_ok rfl ?_
      refine up.closed ?_
      rw [bodyLiterals_append, bodyLiterals_map_convertStmt]
      exact hr

end Upkeep

end

end Elimination

end Resumable
