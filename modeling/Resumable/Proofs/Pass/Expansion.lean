import Resumable.Proofs.Continuation.Content
import Resumable.Proofs.Pass.Formed
import Resumable.Proofs.Pass.Ownership

/-!
# What converting a body makes of a program

The body keeps its statements with other expressions in them. Other functions
stay as they were, and the new ones are continuations.
-/

namespace Resumable

theorem Program.code?_eq_content? (p : Program) (fn : FuncId) :
    p.code? fn = (p.content? fn).map Content.toCode := by
  rw [code?, content?, Option.map_map]
  rfl

/-- New expressions leave a definition alone that holds no statement in common
with the body. -/
theorem Program.code?_refill {p : Program} {id fn : FuncId} {body : List Stmt} (hne : fn ≠ id)
    (h : ∀ n ∈ (p.bodyOf fn).filterMap Stmt.number?, n ∉ body.filterMap Stmt.number?) :
    (p.refill id body).code? fn = p.code? fn := by
  rw [refill, code?_setBody, if_neg hne, code?_eq_content?, content?_refresh, ← code?_eq_content?]
  intro c hc
  rwa [bodyOf_eq_content?, hc] at h

theorem Program.code?_refill_self (p : Program) (id : FuncId) (body : List Stmt) :
    (p.refill id body).code? id = (p.code? id).map fun c => { c with body } := by
  rw [refill, code?_setBody, if_pos rfl, code?, func?_refresh, code?, Option.map_map, Option.map_map,
    Option.map_map]
  rfl

theorem Program.code?_refresh (p : Program) (stmts : List Stmt) (fn : FuncId) :
    (p.refresh stmts).code? fn = (p.code? fn).map fun c =>
      { c with body := c.body.map (Stmt.refresh (stmts.filterMap Stmt.shared?)) } := by
  rw [code?, func?_refresh, code?, Option.map_map, Option.map_map]
  rfl

@[simp] theorem Program.refresh_types (p : Program) (stmts : List Stmt) :
    (p.refresh stmts).types = p.types := by
  unfold refresh
  simp only
  split <;> rfl

@[simp] theorem Program.refresh_varCount (p : Program) (stmts : List Stmt) :
    (p.refresh stmts).varCount = p.varCount := by
  unfold refresh
  simp only
  split <;> rfl

@[simp] theorem Program.refresh_shareCount (p : Program) (stmts : List Stmt) :
    (p.refresh stmts).shareCount = p.shareCount := by
  unfold refresh
  simp only
  split <;> rfl

namespace Continuation

/-- Statements of continuations are settled, and none has a number. -/
theorem Bodied.fragmentBody {quiet : Prop} {body : List Stmt} (h : Bodied body) (stmts : List Stmt) :
    Elimination.FragmentBody quiet stmts body := by
  refine Elimination.fragmentBody_leaves ?_
  cases h with
  | ret e => exact List.forall_mem_singleton.2 (Elimination.leaf_simple rfl)
  | shared v fn t e =>
      exact List.forall_mem_cons.2 ⟨Elimination.leaf_simple rfl,
        List.forall_mem_singleton.2 (Elimination.leaf_simple rfl)⟩

/-- No statement of a continuation has a number. -/
theorem Continued.numbers_new {w w₁ : Workspace} {Var : Variable → Prop} {ps vs : List Variable}
    (h : Continued w Var ps vs w₁) {fn : FuncId} (hfn : w.program.size < fn) :
    (w₁.program.bodyOf fn).filterMap Stmt.number? = [] := by
  rw [Program.bodyOf_eq_code?]
  cases hc : w₁.program.code? fn with
  | none => rfl
  | some c =>
      rw [Option.map_some, Option.getD_some]
      rcases (h.new fn c hfn hc).body with hbody | hbody
      · rw [hbody]
        rfl
      · have hleaves : Elimination.FragmentBody True [] c.body := hbody.fragmentBody []
        exact List.sublist_nil.1 hleaves.numbers

end Continuation

namespace Pass

open Continuation (Shape)

theorem convertBody_eq_ok {id : FuncId} {w w' : Workspace}
    (h : Continuation.convertBody id w = .ok () w') : ∃ body w₁,
      replaceSlots (Continuation.convert id · none) (w.program.bodyOf id) w = (body, w₁, none) ∧
        w' = { w₁ with program := w₁.program.refill id body } := by
  unfold Continuation.convertBody at h
  simp only [bind_eq_ok, Lowering.func_eq_ok, Lowering.get_eq_ok] at h
  obtain ⟨_, _, ⟨rfl, rfl⟩, _, _, ⟨rfl, rfl⟩, h⟩ := h
  rw [func_body] at h
  rcases hrun : replaceSlots (Continuation.convert id · none) (w.program.bodyOf id) w with
    ⟨body, w₁, failure⟩
  rw [hrun] at h
  obtain ⟨_, _, ⟨⟩, _, _, ⟨⟩, hend⟩ := h
  cases failure with
  | some e => cases hend
  | none =>
      cases hend
      exact ⟨body, w₁, rfl, rfl⟩

/-- The code of a program and its counters, once a body is converted. -/
structure Expanded (Var : Variable → Prop) (id : FuncId) (body : List Stmt) (w w' : Workspace) :
    Prop where
  size : w.program.size ≤ w'.program.size
  others : ∀ fn, fn ≤ w.program.size → fn ≠ id → w'.program.code? fn = w.program.code? fn
  own : w'.program.code? id = (w.program.code? id).map fun c => { c with body }
  forms : (allStmts body).map Stmt.form = (allStmts (w.program.bodyOf id)).map Stmt.form
  refs : ∀ v ∈ bodyRefs body, Continuation.Mentionable w Var w'.program.varCount v
  new : ∀ fn c, w.program.size < fn → w'.program.code? fn = some c →
    Shape w Var w'.program.varCount c
  varCount : w.program.varCount ≤ w'.program.varCount
  fresh : w'.names.fresh + w.program.varCount = w.names.fresh + w'.program.varCount
  counters : w'.names.counters = w.names.counters
  shareCount : w'.program.shareCount = w.program.shareCount

section

variable {id : FuncId} {w w' : Workspace}

/-- The converted body goes to the function alone: old functions hold no statement
in common with it, and continuations have none with a number. -/
theorem code?_refill_of_replaceSlots {body : List Stmt} {w₁ : Workspace}
    (happart : w.program.Apart id)
    (hrun : replaceSlots (Continuation.convert id · none) (w.program.bodyOf id) w = (body, w₁, none))
    {fn : FuncId} (hne : fn ≠ id) : (w₁.program.refill id body).code? fn = w₁.program.code? fn := by
  have hcontinued : Continuation.Continued w (fun _ => True) [] (bodyRefs body) w₁ :=
    (Continuation.continued_convert w _ id).replaceSlots hrun (.start w fun _ _ => trivial)
  refine Program.code?_refill hne fun n hn hmem => ?_
  by_cases hfn : fn ≤ w.program.size
  · have hforms := forms_replaceSlots (Continuation.fillsOnSuccess_convert id) hrun
    rw [Program.bodyOf_of_code? (hcontinued.old fn hfn)] at hn
    refine happart fn hne n (Program.filterMap_number?_subset _ hn) ?_
    rw [← bodyNumbers_of_forms hforms]
    exact Program.filterMap_number?_subset _ hmem
  · rw [hcontinued.numbers_new (Nat.lt_of_not_le hfn)] at hn
    cases hn

theorem expanded_of_convertBody {Var : Variable → Prop} (hid : (w.program.func? id).isSome)
    (happart : w.program.Apart id) (hrefs : ∀ v ∈ bodyRefs (w.program.bodyOf id), Var v)
    (h : Continuation.convertBody id w = .ok () w') : ∃ body, Expanded Var id body w w' := by
  obtain ⟨body, w₁, hrun, rfl⟩ := convertBody_eq_ok h
  have hcontinued : Continuation.Continued w Var [] (bodyRefs body) w₁ :=
    (Continuation.continued_convert w Var id).replaceSlots hrun (.start w hrefs)
  have hle := (Program.isSome_func?.1 hid).2
  have hothers {fn : FuncId} (hne : fn ≠ id) :
      (w₁.program.refill id body).code? fn = w₁.program.code? fn :=
    code?_refill_of_replaceSlots happart hrun hne
  have hvars : (w₁.program.refill id body).varCount = w₁.program.varCount := by
    rw [Program.refill, Program.modifyFunc_varCount, Program.refresh_varCount]
  have hshares : (w₁.program.refill id body).shareCount = w₁.program.shareCount := by
    rw [Program.refill, Program.modifyFunc_shareCount, Program.refresh_shareCount]
  refine ⟨body, ?_, ?_, ?_, ?_, ?_, ?_, ?_, ?_, hcontinued.counters, ?_⟩
  · rw [Program.refill_size]
    exact hcontinued.size
  · intro fn hfn hne
    exact (hothers hne).trans (hcontinued.old fn hfn)
  · rw [Program.code?_refill_self, hcontinued.old id hle]
  · exact forms_replaceSlots (Continuation.fillsOnSuccess_convert id) hrun
  · rw [hvars]
    exact hcontinued.mentionable
  · intro fn c hfn hc
    rw [hvars]
    rw [hothers (Nat.ne_of_gt (Nat.lt_of_le_of_lt hle hfn))] at hc
    exact hcontinued.new fn c hfn hc
  · rw [hvars]
    exact hcontinued.varCount
  · rw [hvars]
    exact hcontinued.fresh
  · rw [hshares]
    exact hcontinued.shareCount

/-- Left alone, a body is its own conversion. -/
theorem Expanded.refl {Var : Variable → Prop} (hid : (w.program.func? id).isSome)
    (hrefs : ∀ v ∈ bodyRefs (w.program.bodyOf id), Var v) :
    Expanded Var id (w.program.bodyOf id) w w where
  size := Nat.le_refl _
  others _ _ _ := rfl
  own := by
    obtain ⟨f, hf⟩ := Option.isSome_iff_exists.1 hid
    rw [Program.code?, hf, bodyOf_eq hf]
    rfl
  forms := rfl
  refs v hv := .inl (hrefs v hv)
  new fn c hfn hc := by
    obtain ⟨f, hf, -⟩ := Option.map_eq_some_iff.1 hc
    have hle := (Program.isSome_func?.1 (Option.isSome_of_eq_some hf)).2
    omega
  varCount := Nat.le_refl _
  fresh := rfl
  counters := rfl
  shareCount := rfl

theorem expanded_of_converted {config : Config} {Var : Variable → Prop}
    (hid : (w.program.func? id).isSome) (happart : w.program.Apart id)
    (hrefs : ∀ v ∈ bodyRefs (w.program.bodyOf id), Var v) (h : Converted config id w w') :
    ∃ body, Expanded Var id body w w' := by
  unfold Converted at h
  split at h
  · subst h
    exact ⟨_, .refl hid hrefs⟩
  · exact expanded_of_convertBody hid happart hrefs h

theorem Expanded.bodyOf_own {Var : Variable → Prop} {body : List Stmt}
    (h : Expanded Var id body w w') (hid : (w.program.func? id).isSome) :
    w'.program.bodyOf id = body := by
  obtain ⟨f, hf⟩ := Option.isSome_iff_exists.1 hid
  rw [Program.bodyOf_eq_code?, h.own, Program.code?, hf]
  rfl

theorem settled_of_convertBody (happart : w.program.Apart id)
    (hw : w.program.Settled id (bodyLiterals (w.program.bodyOf id)))
    (h : Continuation.convertBody id w = .ok () w') :
    w'.program.Settled id (bodyLiterals (w'.program.bodyOf id)) := by
  obtain ⟨body, w₁, hrun, rfl⟩ := convertBody_eq_ok h
  have hsettled : w₁.program.Settled id (bodyLiterals body) :=
    (settled_convert id).replaceSlots hrun hw
  have hrefreshed : ((w₁.program.refresh body).func? id).isSome := by
    rw [Program.isSome_func?_refresh]
    exact hsettled.known
  change (w₁.program.refill id body).Settled id (bodyLiterals ((w₁.program.refill id body).bodyOf id))
  rw [Program.refill, bodyOf_setBody hrefreshed, ← Program.refill]
  refine hsettled.congr (fun fn => ?_) (fun fn => ?_) (fun a fn => ?_) fun fn hne => ?_
  · rw [Program.refill, Program.isSome_func?_modifyFunc, Program.isSome_func?_refresh]
  · rw [Program.refill, Program.parent_modifyFunc (by intro f; rfl), Program.parent_refresh]
  · rw [Program.refill, Program.owns_modifyFunc (by intro f; rfl), Program.owns_refresh]
  · exact Program.bodyOf_of_code? (code?_refill_of_replaceSlots happart hrun hne)

theorem settled_of_converted {config : Config} (hid : (w.program.func? id).isSome)
    (happart : w.program.Apart id) (hw : w.program.Owned) (h : Converted config id w w') :
    w'.program.Settled id (bodyLiterals (w'.program.bodyOf id)) := by
  unfold Converted at h
  split at h
  · subst h
    exact hw.settled hid
  · exact settled_of_convertBody happart (hw.settled hid) h

end

/-- A program of one generator with the given body, and its types. -/
def single (body : List Stmt) : Workspace :=
  let declared := ({} : TypeTable).addClass { name := Generator.templateName, typeArgs := [.variant] }
  let builtin := Registry.builtin declared.2
  { program :=
      { funcs := #[{ name := "f", result := .object (some declared.1), generator := true, body }]
        varCount := 5
        types := builtin.2 }
    registry := builtin.1 }

def singleBuiltins : Generator.Builtins := ⟨1, 0⟩

end Pass

end Resumable
