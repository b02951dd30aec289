import Mathlib.Data.List.Nodup
import Resumable.Proofs.Generator.Hook
import Resumable.Proofs.Structured.Blocks

/-!
# The bodies of fragments

No jump is left in the body of a fragment, and no yield in that of a generator's.
Only statements that came from the function have numbers, each its own.
-/

namespace Resumable

/-- A statement without jumps whose parts neither yield nor have numbers. -/
structure Stmt.Settled (s : Stmt) : Prop where
  jumps : ∀ t ∈ allStmts [s], t.isJumpForm = false
  yields : s.isYield = false → ∀ t ∈ allStmts [s], t.isYield = false
  numbers : bodyNumbers [s] = s.number?.toList

/-- Statements that nothing is in. -/
theorem Stmt.settled_of_flat {s : Stmt} (hs : s.isStructured = false)
    (hjump : s.isJumpForm = false) : s.Settled := by
  have hall : allStmts [s] = [s] := allStmts_of_flat (by simpa using hs)
  refine ⟨?_, ?_, ?_⟩
  · simpa [hall] using hjump
  · simp [hall]
  · rw [bodyNumbers, hall]
    cases hn : s.number? <;> simp [hn]

theorem Stmt.settled_simple (x : Simple) (share : Option Nat) : (Stmt.simple x share).Settled :=
  settled_of_flat rfl rfl

theorem Stmt.isYield_of_same {s s' : Stmt} (h : s.unshare = s'.unshare) :
    s'.isYield = s.isYield := by
  obtain rfl | ⟨x, n, n', rfl, rfl⟩ := same_cases h
  · rfl
  · cases x <;> rfl

theorem bodyNumbers_append (body more : List Stmt) :
    bodyNumbers (body ++ more) = bodyNumbers body ++ bodyNumbers more := by
  rw [bodyNumbers, allStmts_append, List.filterMap_append]
  rfl

/-- Lists of settled statements. -/
theorem bodyNumbers_of_settled {body : List Stmt} (h : ∀ s ∈ body, s.Settled) :
    bodyNumbers body = body.filterMap Stmt.number? := by
  induction body with
  | nil => rfl
  | cons s rest ih =>
      obtain ⟨hs, hrest⟩ := List.forall_mem_cons.1 h
      rw [← List.singleton_append, bodyNumbers_append, hs.numbers, ih hrest, List.filterMap_append]
      cases hn : s.number? <;> simp [hn]

theorem mem_allStmts_iff {body : List Stmt} {t : Stmt} :
    t ∈ allStmts body ↔ ∃ s ∈ body, t ∈ allStmts [s] := by
  induction body with
  | nil => simp [allStmts, preorderList]
  | cons s rest ih =>
      rw [← List.singleton_append, allStmts_append, List.mem_append, ih]
      simp

namespace Elimination

/-! ## Converted jumps -/

section

variable {vars : LabelVars}

/-- A statement that lowering puts in place of a jump, or a part of it. -/
structure Leaf (s : Stmt) : Prop where
  jump : s.isJumpForm = false
  yield : s.isYield = false
  number : s.number? = none
  alone : allStmts [s] = [s]

theorem leaf_simple {x : Simple} (h : (Stmt.simple x none).isYield = false) :
    Leaf (.simple x none) :=
  ⟨rfl, h, rfl, rfl⟩

theorem leaf_tailCall (l : String) : Leaf (tailCall vars l) := by
  unfold tailCall
  split <;> exact leaf_simple rfl

theorem leaf_convertArms {arms : List Arm} : ∀ s ∈ arms.flatMap (convertArm vars), Leaf s := by
  intro s hs
  obtain ⟨arm, -, hs⟩ := List.mem_flatMap.1 hs
  rw [convertArm, List.mem_cons, List.mem_singleton] at hs
  rcases hs with rfl | rfl
  · split <;> exact ⟨rfl, rfl, rfl, rfl⟩
  · exact leaf_tailCall arm.target

theorem allStmts_of_leaves {stmts : List Stmt} (h : ∀ s ∈ stmts, Leaf s) : allStmts stmts = stmts := by
  induction stmts with
  | nil => rfl
  | cons s rest ih =>
      obtain ⟨hs, hrest⟩ := List.forall_mem_cons.1 h
      rw [← List.singleton_append, allStmts_append, hs.alone, ih hrest]

/-- A statement over leaves. -/
theorem settled_over {s : Stmt} {parts : List Stmt} (hall : allStmts [s] = s :: parts)
    (hjump : s.isJumpForm = false) (hyield : s.isYield = false) (hnumber : s.number? = none)
    (hparts : ∀ t ∈ parts, Leaf t) : s.Settled := by
  refine ⟨?_, fun _ => ?_, ?_⟩
  · rw [hall, List.forall_mem_cons]
    exact ⟨hjump, fun t ht => (hparts t ht).jump⟩
  · rw [hall, List.forall_mem_cons]
    exact ⟨hyield, fun t ht => (hparts t ht).yield⟩
  · rw [bodyNumbers, hall, List.filterMap_cons_none hnumber, hnumber]
    exact List.filterMap_eq_nil_iff.2 fun t ht => (hparts t ht).number

theorem Leaf.settled {s : Stmt} (h : Leaf s) : s.Settled :=
  settled_over h.alone h.jump h.yield h.number (by simp)

/-- A statement of a block loses its jumps and keeps its number. -/
theorem settled_convertStmt {s : Stmt} (hs : s.isStructured = false) (hlabel : ∀ l, s ≠ .label l) :
    (convertStmt vars s).Settled ∧ (convertStmt vars s).number? = s.number? ∧
      (convertStmt vars s).isYield = s.isYield := by
  cases s with
  | label l => exact absurd rfl (hlabel l)
  | goto l =>
      have hleaf : Leaf (tailCall vars l) := leaf_tailCall l
      exact ⟨hleaf.settled, hleaf.number, hleaf.yield⟩
  | condGoto c t e =>
      have hall : allStmts [convertStmt vars (.condGoto c t e)] = convertStmt vars (.condGoto c t e) ::
          (allStmts [tailCall vars t] ++ allStmts [tailCall vars e] ++ []) := rfl
      rw [(leaf_tailCall t).alone, (leaf_tailCall e).alone] at hall
      refine ⟨settled_over hall rfl rfl rfl ?_, rfl, rfl⟩
      simp [leaf_tailCall]
  | dispatch x arms =>
      have hall : allStmts [convertStmt vars (.dispatch x arms)] =
          convertStmt vars (.dispatch x arms) ::
            (allStmts (arms.flatMap (convertArm vars)) ++ []) := rfl
      rw [allStmts_of_leaves leaf_convertArms, List.append_nil] at hall
      exact ⟨settled_over hall rfl rfl rfl leaf_convertArms, rfl, rfl⟩
  | missing => exact ⟨Stmt.settled_of_flat rfl rfl, rfl, rfl⟩
  | simple x share => exact ⟨Stmt.settled_simple x share, rfl, rfl⟩
  | _ => cases hs

end

structure FragmentBody (quiet : Prop) (stmts body : List Stmt) : Prop where
  settled : ∀ s ∈ body, s.Settled
  yields : quiet → ∀ s ∈ body, s.isYield = false
  numbers : (body.filterMap Stmt.number?).Sublist (stmts.filterMap Stmt.number?)

def Straight (stmts : List Stmt) : Prop :=
  ∀ s ∈ stmts, s.isStructured = false ∧ ∀ l, s ≠ .label l

theorem settled_map_convertStmt (vars : LabelVars) {stmts : List Stmt} (h : Straight stmts) :
    (∀ s ∈ stmts.map (convertStmt vars), s.Settled) ∧
      (stmts.map (convertStmt vars)).filterMap Stmt.number? = stmts.filterMap Stmt.number? := by
  refine ⟨fun s hs => ?_, ?_⟩
  · obtain ⟨t, ht, rfl⟩ := List.mem_map.1 hs
    exact (settled_convertStmt (h t ht).1 (h t ht).2).1
  · rw [List.filterMap_map]
    exact List.filterMap_congr fun t ht => (settled_convertStmt (h t ht).1 (h t ht).2).2.1

theorem fragmentBody_convert {quiet : Prop} {vars : LabelVars} {stmts : List Stmt}
    (h : Straight stmts) (hyields : quiet → ∀ s ∈ stmts, s.isYield = false) :
    FragmentBody quiet stmts (stmts.map (convertStmt vars)) := by
  obtain ⟨hsettled, hnumbers⟩ := settled_map_convertStmt vars h
  refine ⟨hsettled, fun hquiet s hs => ?_, hnumbers ▸ List.Sublist.refl _⟩
  obtain ⟨t, ht, rfl⟩ := List.mem_map.1 hs
  rw [(settled_convertStmt (h t ht).1 (h t ht).2).2.2]
  exact hyields hquiet t ht

end Elimination

namespace Generator

open Elimination

variable {types : TypeTable} {object : Variable} {f : Fragment} {quiet : Prop}

theorem leaf_setField (field : String) (x : Expr) : Leaf (setField types object field x) :=
  leaf_simple rfl

theorem compileYield_settled {stmts stmts' : List Stmt} {n : Nat}
    (h : compileYield types object f stmts = .ok (stmts', n)) (hs : ∀ s ∈ stmts, s.Settled) :
    (∀ s ∈ stmts', s.Settled) ∧
      (stmts'.filterMap Stmt.number?).Sublist (stmts.filterMap Stmt.number?) := by
  fun_induction compileYield types object f stmts generalizing stmts' n with
  | case1 x share after next hnext =>
      cases h
      refine ⟨?_, List.nil_sublist _⟩
      simp [(leaf_setField _ _).settled]
  | case2 => cases h
  | case3 s rest hne ih =>
      obtain ⟨⟨rest', m⟩, hrest, hpure⟩ := except_bind_eq_ok.1 h
      cases hpure
      obtain ⟨hfirst, hothers⟩ := List.forall_mem_cons.1 hs
      obtain ⟨hsettled, hnumbers⟩ := ih hrest hothers
      refine ⟨List.forall_mem_cons.2 ⟨hfirst, hsettled⟩, ?_⟩
      cases hn : s.number? with
      | none =>
          rw [List.filterMap_cons_none hn, List.filterMap_cons_none hn]
          exact hnumbers
      | some k =>
          rw [List.filterMap_cons_some hn, List.filterMap_cons_some hn]
          exact hnumbers.cons_cons k
  | case4 =>
      cases h
      exact ⟨hs, List.Sublist.refl _⟩

/-- A return that goes to the end is new; any other statement stays. -/
theorem compileReturn_cases {finish : Variable} {s s' : Stmt}
    (h : compileReturn f finish s = .ok s') : s'.isYield = false ∧ (s' = s ∨ Leaf s') := by
  unfold compileReturn at h
  split at h
  · cases h
  · split at h
    · cases h
      exact ⟨rfl, .inl rfl⟩
    · split at h
      · cases h
        exact ⟨rfl, .inr (leaf_simple rfl)⟩
      · cases h
  · next hyield hret =>
      cases h
      refine ⟨?_, .inl rfl⟩
      cases hs : s.isYield with
      | false => rfl
      | true =>
          unfold Stmt.isYield at hs
          split at hs
          · exact absurd rfl (hyield _ _)
          · cases hs

theorem mapM_compileReturn_settled {finish : Variable} {stmts stmts' : List Stmt}
    (h : stmts.mapM (compileReturn f finish) = .ok stmts') (hs : ∀ s ∈ stmts, s.Settled) :
    FragmentBody quiet stmts stmts' := by
  induction stmts generalizing stmts' with
  | nil =>
      cases h
      exact ⟨hs, by simp, List.Sublist.refl _⟩
  | cons s rest ih =>
      rw [List.mapM_cons] at h
      obtain ⟨s', hreturn, h⟩ := except_bind_eq_ok.1 h
      obtain ⟨rest', hrest, hpure⟩ := except_bind_eq_ok.1 h
      cases hpure
      obtain ⟨hfirst, hothers⟩ := List.forall_mem_cons.1 hs
      have hbody := ih hrest hothers
      obtain ⟨hyield, hcases⟩ := compileReturn_cases hreturn
      refine ⟨List.forall_mem_cons.2 ⟨?_, hbody.settled⟩,
        fun hquiet => List.forall_mem_cons.2 ⟨hyield, hbody.yields hquiet⟩, ?_⟩
      · rcases hcases with rfl | hleaf
        · exact hfirst
        · exact hleaf.settled
      · rcases hcases with rfl | hleaf
        · rw [← List.singleton_append, List.filterMap_append, ← List.singleton_append (l := rest),
            List.filterMap_append]
          exact hbody.numbers.append_left _
        · rw [List.filterMap_cons_none hleaf.number, ← List.singleton_append (l := rest),
            List.filterMap_append]
          exact hbody.numbers.trans (List.sublist_append_right _ _)

/-- A compiled fragment; that of the end has nothing to compile. -/
theorem fragmentBody_hook {stop : ClassId} {p : Program} {label : String} {stmts : List Stmt}
    {vars : LabelVars} {n n' : Nat} {body : List Stmt} (hstraight : Straight stmts)
    (hfinish : label = Label.finish → stmts = [])
    (h : hook object stop p ⟨label, stmts.map (convertStmt vars), vars⟩ n = .ok body n') :
    FragmentBody quiet stmts body := by
  obtain ⟨hsettled, hnumbers⟩ := settled_map_convertStmt vars hstraight
  unfold hook at h
  split at h
  · next hcompile =>
      cases h
      unfold compileFragment at hcompile
      split at hcompile
      · cases hcompile
      · split at hcompile
        · next heq =>
            cases hcompile
            rw [hfinish heq]
            refine ⟨?_, ?_, List.Sublist.refl _⟩
            · simp [(leaf_setField _ _).settled, Stmt.settled_simple]
            · intro _ s hs
              rcases List.mem_cons.1 hs with rfl | hs
              · exact (leaf_setField _ _).yield
              · rw [List.mem_singleton.1 hs]
                rfl
        · obtain ⟨⟨stmts', yields⟩, hyield, hrest⟩ := except_bind_eq_ok.1 hcompile
          obtain ⟨body', hreturn, hpure⟩ := except_bind_eq_ok.1 hrest
          cases hpure
          obtain ⟨hcompiled, hsublist⟩ := compileYield_settled hyield hsettled
          have hbody : FragmentBody quiet _ body := mapM_compileReturn_settled hreturn hcompiled
          refine ⟨hbody.settled, hbody.yields, ?_⟩
          rw [hnumbers] at hsublist
          exact hbody.numbers.trans hsublist
  · cases h

end Generator

/-! ## Numbers -/

/-- A number that numbering leaves was there or is new. -/
theorem mem_numbers_share {code : List Stmt} {k n : Nat}
    (h : n ∈ (code.mapIdx fun i s => s.share (k + i)).filterMap Stmt.number?) :
    n ∈ code.filterMap Stmt.number? ∨ k ≤ n ∧ n < k + code.length := by
  obtain ⟨s', hs', hn⟩ := List.mem_filterMap.1 h
  obtain ⟨i, hi, rfl⟩ := List.mem_mapIdx.1 hs'
  have hmem : code[i] ∈ code := List.getElem_mem hi
  cases hs : code[i] with
  | simple x share =>
      rw [hs] at hn hmem
      cases share with
      | none =>
          cases hn
          omega
      | some m => exact .inl (List.mem_filterMap.2 ⟨_, hmem, hn⟩)
  | _ =>
      rw [hs] at hn
      cases hn

/-- Numbering gives each statement without a number its own. -/
theorem nodup_numbers_share (code : List Stmt) (k : Nat)
    (hnodup : (code.filterMap Stmt.number?).Nodup)
    (hlt : ∀ n ∈ code.filterMap Stmt.number?, n < k) :
    ((code.mapIdx fun i s => s.share (k + i)).filterMap Stmt.number?).Nodup := by
  induction code generalizing k with
  | nil => simp
  | cons s rest ih =>
      have hshift : (fun i s => Stmt.share (k + (i + 1)) s) = fun i s => Stmt.share (k + 1 + i) s := by
        funext i s
        rw [Nat.add_assoc, Nat.add_comm 1 i]
      rw [List.mapIdx_cons, hshift, Nat.add_zero]
      have hrest : (rest.filterMap Stmt.number?).Sublist ((s :: rest).filterMap Stmt.number?) :=
        (List.sublist_cons_self s rest).filterMap _
      have hnodup' := ih (k + 1) (hnodup.sublist hrest) fun n hn =>
        Nat.lt_succ_of_lt (hlt n (hrest.subset hn))
      cases s with
      | simple x share =>
          -- the number of the statement is below all that numbering gives to the rest
          cases share with
          | none =>
              refine List.nodup_cons.2 ⟨fun hk => ?_, hnodup'⟩
              rcases mem_numbers_share hk with hold | hnew
              · exact Nat.lt_irrefl k (hlt k hold)
              · omega
          | some m =>
              refine List.nodup_cons.2 ⟨fun hm => ?_, hnodup'⟩
              rcases mem_numbers_share hm with hold | hnew
              · exact (List.nodup_cons.1 hnodup).1 hold
              · have := hlt m (.head _)
                omega
      | _ => exact hnodup'

/-! ## Graphs of numbered code -/

namespace Graph

theorem straight_blocks {g : Graph} {code : List Stmt} (hg : g.Describes code) {b : Block}
    (hb : b ∈ g.blocks) : Elimination.Straight b.stmts := by
  intro s hs
  have hsegments : s ∈ (segments code).1 ++ (segments code).2.flatMap Prod.snd := by
    rw [hg.eq_split] at hb
    rcases List.mem_cons.1 hb with rfl | hb
    · exact List.mem_append_left _ (keep_subset _ hs)
    · obtain ⟨seg, hseg, rfl⟩ := List.mem_map.1 hb
      exact List.mem_append_right _ (List.mem_flatMap.2 ⟨seg, hseg, keep_subset _ hs⟩)
  exact ⟨hg.plain s (hg.mem_code hb hs), not_label_of_mem hsegments⟩

/-- The block of a label at the end of code is empty. -/
theorem Describes.last_empty {g : Graph} {pre : List Stmt} {l : String}
    (hg : g.Describes (pre ++ [.label l])) {b : Block} (hb : b ∈ g.labelled) (hl : b.label = l) :
    b.stmts = [] := by
  have hlast := segments_append_label pre l
  have hnodup := hg.nodup
  rw [hg.labelled] at hb
  obtain ⟨⟨m, seg⟩, hseg, rfl⟩ := List.mem_map.1 hb
  rw [labelsOf, ← List.dropLast_append_getLast? _ hlast] at hnodup
  rw [← List.dropLast_append_getLast? _ hlast, List.mem_append, List.mem_singleton] at hseg
  rcases hseg with hseg | hseg
  · have hm : m = l := hl
    rw [List.map_append, List.nodup_append] at hnodup
    exact absurd hm (hnodup.2.2 m (List.mem_map.2 ⟨_, hseg, rfl⟩) l (by simp))
  · cases hseg
    rfl

end Graph

end Resumable
