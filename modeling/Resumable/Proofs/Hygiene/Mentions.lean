import Resumable.Proofs.Hygiene.Lookup
import Resumable.Proofs.Pass.Expansion

/-!
# What lowered bodies mention

Lowering passes on the mentions of a body. Those that it adds are of the
variables of labels and of the generator object.
-/

namespace Resumable

/-- All variables that a body mentions meet a condition. -/
def Mentioned (P : Variable → Prop) (body : List Stmt) : Prop :=
  ∀ v ∈ mentions body, P v

section

variable {P : Variable → Prop} {body more : List Stmt} {s : Stmt}

attribute [local simp] mentions allStmts preorderList Stmt.preorder Stmt.vars Stmt.bound Stmt.slots

@[simp] theorem mentioned_nil : Mentioned P [] := by
  simp [Mentioned]

@[simp] theorem mentioned_append :
    Mentioned P (body ++ more) ↔ Mentioned P body ∧ Mentioned P more := by
  simp only [Mentioned, mentions, allStmts_append, List.flatMap_append, List.mem_append, or_imp,
    forall_and]

theorem mentioned_cons : Mentioned P (s :: body) ↔ Mentioned P [s] ∧ Mentioned P body := by
  rw [← List.singleton_append, mentioned_append]

@[simp] theorem mentioned_simple (x : Simple) (share : Option Nat) :
    Mentioned P [.simple x share] ↔ ∀ v ∈ x.slots.flatMap Expr.vars, P v := by
  simp [Mentioned]

section

variable (c x : Expr) (t e : List Stmt) (l m : String) (arms : List Arm)

@[simp] theorem mentioned_caseMark : Mentioned P [.caseMark x] ↔ ∀ v ∈ x.vars, P v := by
  simp [Mentioned]

@[simp] theorem mentioned_defaultMark : Mentioned P [.defaultMark] := by
  simp [Mentioned]

@[simp] theorem mentioned_condGoto : Mentioned P [.condGoto c l m] ↔ ∀ v ∈ c.vars, P v := by
  simp [Mentioned]

@[simp] theorem mentioned_dispatch : Mentioned P [.dispatch x arms] ↔
    (∀ v ∈ x.vars, P v) ∧ ∀ arm ∈ arms, ∀ v ∈ arm.value.vars, P v := by
  simp only [Mentioned, mentions, allStmts, preorderList, Stmt.preorder, Stmt.vars, Stmt.bound,
    Stmt.slots, List.append_nil, List.flatMap_cons, List.flatMap_nil, List.flatMap_map,
    List.mem_append, List.mem_flatMap, or_imp, forall_and, forall_exists_index, and_imp]
  exact and_congr_right fun _ => ⟨fun h arm harm v hv => h v arm harm hv,
    fun h v arm harm hv => h arm harm v hv⟩

@[simp] theorem mentioned_ifElse : Mentioned P [.ifElse c t e] ↔
    (∀ v ∈ c.vars, P v) ∧ Mentioned P t ∧ Mentioned P e := by
  simp only [Mentioned, mentions, allStmts, preorderList, Stmt.preorder, Stmt.vars, Stmt.bound,
    Stmt.slots, List.append_nil, List.flatMap_cons, List.flatMap_nil, List.flatMap_append,
    if_true, List.mem_append, or_imp, forall_and]

@[simp] theorem mentioned_switch : Mentioned P [.switch x t l] ↔
    (∀ v ∈ x.vars, P v) ∧ Mentioned P t := by
  simp only [Mentioned, mentions, allStmts, preorderList, Stmt.preorder, Stmt.vars, Stmt.bound,
    Stmt.slots, List.append_nil, List.flatMap_cons, List.flatMap_nil, if_true, List.mem_append,
    or_imp, forall_and]

end

theorem mentioned_iff : Mentioned P body ↔ ∀ s ∈ allStmts body, ∀ v ∈ s.vars, P v := by
  simp only [Mentioned, mentions, List.mem_flatMap, forall_exists_index, and_imp]
  exact ⟨fun h s hs v hv => h v s hs hv, fun h v s hs hv => h s hs v hv⟩

theorem mem_mentions_of_refs {v : Variable} (h : v ∈ bodyRefs body) : v ∈ mentions body := by
  rw [bodyRefs_eq] at h
  obtain ⟨s, hs, hv⟩ := List.mem_flatMap.1 h
  exact List.mem_flatMap.2 ⟨s, hs, List.mem_append_left _ hv⟩

theorem Mentioned.imp {Q : Variable → Prop} (h : Mentioned P body) (himp : ∀ v, P v → Q v) :
    Mentioned Q body :=
  fun v hv => himp v (h v hv)

/-- Jump code binds no variables. -/
theorem mentioned_of_flat (h : ∀ s ∈ body, s.isStructured = false)
    (hrefs : ∀ v ∈ bodyRefs body, P v) : Mentioned P body := by
  rw [mentioned_iff]
  intro s hs v hv
  have hbound : s.bound = [] := by
    rw [allStmts_of_flat h] at hs
    have hplain := h s hs
    cases s <;> first | rfl | cases hplain
  rw [Stmt.vars, hbound, List.append_nil] at hv
  rw [bodyRefs_eq] at hrefs
  exact hrefs v (List.mem_flatMap.2 ⟨s, hs, hv⟩)

end

def Stmt.isBareReturn : Stmt → Bool
  | .simple (.ret x) _ => x.isMissing
  | _ => false

namespace Elimination

variable {P : Variable → Prop} {vars : LabelVars}

theorem mentioned_tailCall {l : String} (hl : ∀ v, vars.lookup l = some v → P v) :
    Mentioned P [tailCall vars l] := by
  unfold tailCall
  split
  · next v hv => simpa [Simple.slots, Expr.mkCall] using hl v hv
  · simp [Simple.slots, Expr.mkCall]

theorem mentioned_convertArms {arms : List Arm}
    (htargets : ∀ arm ∈ arms, ∀ v, vars.lookup arm.target = some v → P v)
    (harms : ∀ arm ∈ arms, ∀ v ∈ arm.value.vars, P v) :
    Mentioned P (arms.flatMap (convertArm vars)) := by
  induction arms with
  | nil => simp
  | cons arm rest ih =>
      obtain ⟨htarget, htargets⟩ := List.forall_mem_cons.1 htargets
      obtain ⟨harm, hrest⟩ := List.forall_mem_cons.1 harms
      rw [List.flatMap_cons, mentioned_append]
      refine ⟨?_, ih htargets hrest⟩
      rw [convertArm, mentioned_cons]
      refine ⟨?_, mentioned_tailCall htarget⟩
      split
      · exact mentioned_defaultMark
      · exact (mentioned_caseMark _).2 harm

/-- A converted jump also mentions the variables of the labels it can go to. -/
theorem mentioned_convertStmt {s : Stmt}
    (htargets : ∀ l ∈ s.targets, ∀ v, vars.lookup l = some v → P v) (hs : Mentioned P [s]) :
    Mentioned P [convertStmt vars s] := by
  cases s with
  | goto l => exact mentioned_tailCall (htargets l (.head _))
  | condGoto c t e =>
      rw [mentioned_condGoto] at hs
      exact (mentioned_ifElse ..).2 ⟨hs, mentioned_tailCall (htargets t (.head _)),
        mentioned_tailCall (htargets e (.tail _ (.head _)))⟩
  | dispatch x arms =>
      rw [mentioned_dispatch] at hs
      refine (mentioned_switch ..).2 ⟨hs.1, mentioned_convertArms (fun arm harm => ?_) hs.2⟩
      exact htargets arm.target (List.mem_map_of_mem harm)
  | _ => exact hs

theorem mentioned_map_convertStmt {stmts : List Stmt}
    (htargets : ∀ s ∈ stmts, ∀ l ∈ s.targets, ∀ v, vars.lookup l = some v → P v)
    (hs : Mentioned P stmts) : Mentioned P (stmts.map (convertStmt vars)) := by
  induction stmts with
  | nil => simp
  | cons s rest ih =>
      obtain ⟨htarget, htargets⟩ := List.forall_mem_cons.1 htargets
      rw [mentioned_cons] at hs
      rw [List.map_cons, mentioned_cons]
      exact ⟨mentioned_convertStmt htarget hs.1, ih htargets hs.2⟩

end Elimination

namespace Generator

variable {P : Variable → Prop} {types : TypeTable} {object : Variable} {f : Fragment}

theorem mentioned_setField (hobject : P object) {field : String} {x : Expr}
    (hx : ∀ v ∈ x.vars, P v) : Mentioned P [setField types object field x] := by
  simpa [setField, Simple.slots, Expr.mkProperty, or_imp, forall_and] using ⟨hobject, hx⟩

theorem mentioned_compileYield (hobject : P object) {stmts stmts' : List Stmt} {n : Nat}
    (h : compileYield types object f stmts = .ok (stmts', n)) (hs : Mentioned P stmts) :
    Mentioned P stmts' := by
  fun_induction compileYield types object f stmts generalizing stmts' n with
  | case1 x share after next hnext =>
      cases h
      obtain ⟨t, share', rfl⟩ := jumpTarget?_eq_some hnext
      rw [mentioned_cons, mentioned_simple, mentioned_simple] at hs
      rw [mentioned_cons]
      refine ⟨mentioned_setField hobject (by simpa [Simple.slots] using hs.1),
        mentioned_setField hobject (by simpa [Simple.slots] using hs.2)⟩
  | case2 => cases h
  | case3 s rest hne ih =>
      obtain ⟨⟨rest', m⟩, hrest, hpure⟩ := except_bind_eq_ok.1 h
      cases hpure
      rw [mentioned_cons] at hs ⊢
      exact ⟨hs.1, ih hrest hs.2⟩
  | case4 =>
      cases h
      exact hs

theorem mentioned_compileReturn {finish : Variable} {s s' : Stmt}
    (hfinish : s.isBareReturn = true → P finish) (h : compileReturn f finish s = .ok s')
    (hs : Mentioned P [s]) : Mentioned P [s'] := by
  unfold compileReturn at h
  split at h
  · cases h
  · split at h
    · cases h
      exact hs
    · split at h
      · next hx =>
          cases h
          simpa [Simple.slots, Expr.mkCall] using hfinish hx
      · cases h
  · cases h
    exact hs

theorem mentioned_mapM_compileReturn {finish : Variable} {stmts stmts' : List Stmt}
    (hfinish : ∀ s ∈ stmts, s.isBareReturn = true → P finish)
    (h : stmts.mapM (compileReturn f finish) = .ok stmts') (hs : Mentioned P stmts) :
    Mentioned P stmts' := by
  induction stmts generalizing stmts' with
  | nil =>
      cases h
      exact hs
  | cons s rest ih =>
      obtain ⟨hfirst, hothers⟩ := List.forall_mem_cons.1 hfinish
      rw [List.mapM_cons] at h
      obtain ⟨s', hreturn, h⟩ := except_bind_eq_ok.1 h
      obtain ⟨rest', hrest, hpure⟩ := except_bind_eq_ok.1 h
      cases hpure
      rw [mentioned_cons] at hs ⊢
      exact ⟨mentioned_compileReturn hfirst hreturn hs.1, ih hothers hrest hs.2⟩

/-- Compiling a yield adds no returns. -/
theorem isBareReturn_of_compileYield {stmts stmts' : List Stmt} {n : Nat}
    (h : compileYield types object f stmts = .ok (stmts', n)) {s : Stmt} (hs : s ∈ stmts')
    (hreturn : s.isBareReturn = true) : s ∈ stmts := by
  fun_induction compileYield types object f stmts generalizing stmts' n with
  | case1 x share after next hnext =>
      cases h
      simp only [List.mem_cons, List.not_mem_nil, or_false] at hs
      rcases hs with rfl | rfl <;> cases hreturn
  | case2 => cases h
  | case3 t rest hne ih =>
      obtain ⟨⟨rest', m⟩, hrest, hpure⟩ := except_bind_eq_ok.1 h
      cases hpure
      rcases List.mem_cons.1 hs with rfl | hs
      · exact .head _
      · exact .tail _ (ih hrest hs)
  | case4 =>
      cases h
      exact hs

/-- A compiled fragment also mentions the object, and the end if it is the end or
returns. -/
theorem mentioned_hook {stop : ClassId} {p : Program} {n n' : Nat} {body : List Stmt}
    (hobject : P object)
    (hfinish : f.label = Label.finish ∨ (∃ s ∈ f.body, s.isBareReturn = true) →
      ∀ v, f.vars.lookup Label.finish = some v → P v)
    (hs : Mentioned P f.body) (h : hook object stop p f n = .ok body n') : Mentioned P body := by
  unfold hook at h
  split at h
  · next hcompile =>
      cases h
      unfold compileFragment at hcompile
      split at hcompile
      · cases hcompile
      · next finish hfound =>
          split at hcompile
          · next hlabel =>
              cases hcompile
              rw [mentioned_append, mentioned_cons]
              refine ⟨hs, mentioned_setField hobject ?_, by simp [Simple.slots]⟩
              simpa using hfinish (.inl hlabel) finish hfound
          · obtain ⟨⟨stmts, yields⟩, hyield, hrest⟩ := except_bind_eq_ok.1 hcompile
            obtain ⟨body', hreturn, hpure⟩ := except_bind_eq_ok.1 hrest
            cases hpure
            refine mentioned_mapM_compileReturn (fun s hs hbare => ?_) hreturn
              (mentioned_compileYield hobject hyield hs)
            exact hfinish (.inr ⟨s, isBareReturn_of_compileYield hyield hs hbare, hbare⟩) finish hfound
  · cases h

end Generator

end Resumable
