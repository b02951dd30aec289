import Resumable.Proofs.Jump.Bodies
import Resumable.Proofs.Pass.Stages
import Resumable.Proofs.Structured.Conservation

/-!
# The bodies that a pass forms

Where lowering the control flow of a function succeeds, the function and the new
functions hold the blocks of its jump code, one each, and no other code changes.
-/

namespace Resumable

namespace Elimination

variable {p : Program} {Body : Block → List Stmt → Prop} {vars : LabelVars} {blocks : List Block}
  {settings : List Stmt} {table : List (String × FuncId)}

/-- The fragment of each block. -/
theorem Fragments.at (h : Fragments p Body vars blocks settings table) {i : Nat} {b : Block}
    (hb : blocks[i]? = some b) : ∃ entry body, table[i]? = some entry ∧
      p.code? entry.2 = some ⟨"", [], [], body⟩ ∧ Body b body := by
  induction h generalizing i with
  | nil => cases hb
  | @cons b₀ v fn t body blocks settings table _ hfn hbody _ ih =>
      cases i with
      | zero =>
          cases hb
          exact ⟨_, body, rfl, hfn, hbody⟩
      | succ i => exact ih hb

/-- The settings name the fragments. -/
theorem Fragments.literals (h : Fragments p Body vars blocks settings table) :
    bodyLiterals settings = table.map Prod.snd := by
  induction h with
  | nil => rfl
  | cons _ _ _ _ ih => simp [ih, Simple.slots]

/-- The new functions are the fragments of the blocks, in their order. -/
theorem Removes.fragment {Body : LabelVars → Block → List Stmt → Prop} {id : FuncId}
    {p p' : Program} {g : Graph} (h : Removes Body id p p' g vars settings table) {i : Nat}
    {b : Block} (hb : g.labelled[i]? = some b) : ∃ body,
      p'.code? (p.size + 1 + i) = some ⟨"", [], [], body⟩ ∧ Body vars b body ∧
        p.size + 1 + i ∈ bodyLiterals settings := by
  obtain ⟨entry, body, hentry, hbody, hfragment⟩ := h.fragments.at hb
  have hnumber : (table.map Prod.snd)[i]? = some entry.2 := by
    rw [List.getElem?_map, hentry]
    rfl
  rw [h.numbers, List.getElem?_range' (List.getElem?_eq_some_iff.1 hb).1, Option.some.injEq,
    Nat.one_mul] at hnumber
  rw [hnumber]
  refine ⟨body, hbody, hfragment, ?_⟩
  rw [h.fragments.literals]
  exact List.mem_map_of_mem (List.mem_of_getElem? hentry)

theorem Fragments.leaf (h : Fragments p Body vars blocks settings table) : ∀ s ∈ settings, Leaf s := by
  induction h with
  | nil => simp
  | cons _ _ _ _ ih => exact List.forall_mem_cons.2 ⟨leaf_simple rfl, ih⟩

theorem fragmentBody_leaves {quiet : Prop} {stmts leaves : List Stmt} (h : ∀ s ∈ leaves, Leaf s) :
    FragmentBody quiet stmts leaves := by
  refine ⟨fun s hs => (h s hs).settled, fun _ s hs => (h s hs).yield, ?_⟩
  rw [List.filterMap_eq_nil_iff.2 fun s hs => (h s hs).number]
  exact List.nil_sublist _

/-- Leaves in front of the body of a fragment. -/
theorem FragmentBody.leaves_append {quiet : Prop} {stmts body leaves : List Stmt}
    (h : FragmentBody quiet stmts body) (hleaves : ∀ s ∈ leaves, Leaf s) :
    FragmentBody quiet stmts (leaves ++ body) := by
  refine ⟨List.forall_mem_append.2 ⟨fun s hs => (hleaves s hs).settled, h.settled⟩,
    fun hquiet => List.forall_mem_append.2 ⟨fun s hs => (hleaves s hs).yield, h.yields hquiet⟩, ?_⟩
  rw [List.filterMap_append, List.filterMap_eq_nil_iff.2 fun s hs => (hleaves s hs).number,
    List.nil_append]
  exact h.numbers

end Elimination

namespace Pass

open Elimination

/-- The function and the new functions have the blocks of some code. They do not
yield if `quiet`. -/
structure Formed (quiet : Prop) (id : FuncId) (code : List Stmt) (g : Graph) (p p' : Program) :
    Prop where
  describes : g.Describes (code.mapIdx fun i s => s.share (p.shareCount + i))
  others : ∀ fn, fn ≤ p.size → fn ≠ id → p'.code? fn = p.code? fn
  own : FragmentBody quiet g.entry.stmts (p'.bodyOf id)
  fragments : ∀ i b, g.labelled[i]? = some b → FragmentBody quiet b.stmts (p'.bodyOf (p.size + 1 + i))
  size : p'.size = p.size + g.labelled.length
  shareCount : p'.shareCount = p.shareCount + code.length

variable {quiet : Prop} {builtins : Option Generator.Builtins} {id : FuncId} {w w' : Workspace}

theorem Formed.of_removes {η : Type} {hook : Hook η} {types : TypeTable} {code : List Stmt}
    {g : Graph} {vars : LabelVars} {settings : List Stmt} {table : List (String × FuncId)}
    {p p' : Program} {c : Code} (hc : p.code? id = some c) (hcode : c.body = code)
    (hg : g.Describes (code.mapIdx fun i s => s.share (p.shareCount + i)))
    (h : Removes (HookBody hook types) id p p' g vars settings table)
    (hentry : FragmentBody quiet g.entry.stmts (g.entry.stmts.map (convertStmt vars)))
    (hhook : ∀ b ∈ g.labelled, ∀ body, HookBody hook types vars b body →
      FragmentBody quiet b.stmts body) :
    Formed quiet id code g p p' where
  describes := hg
  others := h.others
  own := by
    rw [Program.bodyOf_eq_code?, h.own, hc]
    exact hentry.leaves_append h.fragments.leaf
  fragments i b hb := by
    obtain ⟨body, hbody, hfragment, -⟩ := h.fragment hb
    rw [Program.bodyOf_eq_code?, hbody]
    exact hhook b (List.mem_of_getElem? hb) body hfragment
  size := h.size
  shareCount := hcode ▸ h.shareCount c hc

/-- Another body for the function whose blocks they are. -/
theorem Formed.setBody {code body : List Stmt} {g : Graph} {p p' : Program}
    (h : Formed quiet id code g p p') (hid : id ≤ p.size)
    (hbody : FragmentBody quiet g.entry.stmts body) :
    Formed quiet id code g p (p'.modifyFunc id fun f => { f with body }) where
  describes := h.describes
  others fn hfn hne := by
    rw [Program.code?_setBody, if_neg hne]
    exact h.others fn hfn hne
  own := by
    rw [Program.bodyOf_eq_code?, Program.code?_setBody, if_pos rfl]
    cases p'.code? id with
    | none => exact fragmentBody_leaves (by simp)
    | some c => exact hbody
  fragments i b hb := by
    have hne : p.size + 1 + i ≠ id :=
      Nat.ne_of_gt (Nat.lt_of_le_of_lt hid (Nat.lt_of_lt_of_le (Nat.lt_succ_self _)
        (Nat.le_add_right ..)))
    rw [Program.bodyOf_eq_code?, Program.code?_setBody, if_neg hne, ← Program.bodyOf_eq_code?]
    exact h.fragments i b hb
  size := (Program.modifyFunc_size ..).trans h.size
  shareCount := (Program.modifyFunc_shareCount ..).trans h.shareCount

/-- The program that a stage starts from may differ in what blocks do not show. -/
theorem Formed.of_code {code : List Stmt} {g : Graph} {p q p' : Program}
    (h : Formed quiet id code g q p') (hsize : q.size = p.size) (hshares : q.shareCount = p.shareCount)
    (hcode : ∀ fn, fn ≠ id → q.code? fn = p.code? fn) : Formed quiet id code g p p' where
  describes := hshares ▸ h.describes
  others fn hfn hne := (h.others fn (hsize ▸ hfn) hne).trans (hcode fn hne)
  own := h.own
  fragments := hsize ▸ h.fragments
  size := hsize ▸ h.size
  shareCount := hshares ▸ h.shareCount

/-- Jump code ends with a label. -/
theorem ofBody_finish {body code : List Stmt} {n n' : Names}
    (h : JumpCode.ofBody body n = .ok code n') :
    ∃ pre, code = pre ++ [.label Label.finish] := by
  have hbody : JumpCode.BodyCode False body code := JumpCode.bodyCode_of_ofBody False.elim h
  obtain ⟨c, falls, -, rfl⟩ := hbody
  exact ⟨.goto Label.begin :: .label Label.begin :: (c ++ JumpCode.jump falls Label.finish),
    by simp [JumpCode.enter]⟩

theorem code?_formed {f : Func} (hf : w.program.func? id = some f) (code : List Stmt) (names : Names) :
    (formed w id code names).program.code? id = some { f.code with body := code } := by
  rw [formed, Program.code?_setBody, if_pos rfl, Program.code?, hf]
  rfl

theorem formed_of_plain {result : Ty} {code : List Stmt} {names : Names} {r : Result}
    (hid : (w.program.func? id).isSome) (hcode : quiet → JumpCode.Unyielding code)
    (h : eliminate noHook id result (formed w id code names, ()) = .ok r (w', ())) :
    ∃ g, Formed quiet id code g w.program w'.program := by
  obtain ⟨f, hf⟩ := Option.isSome_iff_exists.1 hid
  obtain ⟨g, settings, table, hbuild, hremoves, -⟩ := eliminate_spec h (code?_formed hf code names)
  have hg := Graph.describes_of_build hbuild
  have hplain {b : Block} (hb : b ∈ g.blocks) :
      FragmentBody quiet b.stmts (b.stmts.map (convertStmt r.labelVars)) := by
    refine fragmentBody_convert (Graph.straight_blocks hg hb) fun hquiet s hs => ?_
    obtain ⟨t, ht, hsame⟩ := (Stmt.same_share code _).exists_of_mem (hg.mem_code hb hs)
    exact (Stmt.isYield_of_same hsame).trans (hcode hquiet t ht)
  have hformed := Formed.of_removes (code?_formed hf code names) rfl hg hremoves
    (hplain (.head _)) fun b hb body hbody => by
      obtain ⟨p, _, _, -, hhook⟩ := hbody
      cases hhook
      exact hplain (.tail _ hb)
  refine ⟨g, hformed.of_code (Program.modifyFunc_size ..) (Program.modifyFunc_shareCount ..) ?_⟩
  intro fn hne
  rw [formed, Program.code?_setBody, if_neg hne]

theorem objected_code? {registry : Registry} {types : TypeTable} {object : Variable} (fn : FuncId)
    (hne : fn ≠ id) : (objected w id registry types object).program.code? fn = w.program.code? fn := by
  rw [objected, Program.code?_addLocal, if_neg hne]
  rfl

theorem formed_of_generator {b : Generator.Builtins} {registry : Registry} {types : TypeTable}
    {cls : ClassId} {object start : Variable} {code : List Stmt} {names names₀ : Names} {r : Result}
    {n : Nat} {entry : Stmt} {body : List Stmt} (hid : (w.program.func? id).isSome)
    (hcode : JumpCode.ofBody body names₀ = .ok code names)
    (h : eliminate (Generator.hook object b.stop) id .void
      (formed (objected w id registry types object) id code names, 0) = .ok r (w', n))
    (hentry : r.entry = [entry]) (hcall : Generator.isCallOf start entry = true) :
    ∃ g, Formed quiet id code g w.program (w'.program.modifyFunc id fun f =>
      { f with body := wrapped types cls object start (w'.program.bodyOf id) }) := by
  set w₁ := objected w id registry types object with hw₁
  have hid₁ : (w₁.program.func? id).isSome := by
    rw [Program.isSome_func?] at hid ⊢
    rwa [hw₁, objected, Program.modifyFunc_size]
  obtain ⟨f, hf⟩ := Option.isSome_iff_exists.1 hid₁
  obtain ⟨g, settings, table, hbuild, hremoves, hentries⟩ := eliminate_spec h
    (code?_formed hf code names)
  have hg := Graph.describes_of_build hbuild
  obtain ⟨pre, hpre⟩ := ofBody_finish hcode
  have hlast {b : Block} (hb : b ∈ g.labelled) (hl : b.label = Label.finish) : b.stmts = [] := by
    rw [hpre, List.mapIdx_append] at hg
    exact hg.last_empty hb hl
  have hbody : w'.program.bodyOf id = settings ++ [entry] := by
    rw [Program.bodyOf_eq_code?, hremoves.own, code?_formed hf code names, ← hentries, hentry]
    rfl
  have hown : FragmentBody quiet g.entry.stmts (g.entry.stmts.map (convertStmt r.labelVars)) := by
    have hstraight := Graph.straight_blocks hg (b := g.entry) (.head _)
    refine fragmentBody_convert hstraight fun _ s hs => ?_
    have hmem := List.mem_map_of_mem (f := convertStmt r.labelVars) hs
    rw [← hentries, hentry, List.mem_singleton] at hmem
    rw [← (settled_convertStmt (hstraight s hs).1 (hstraight s hs).2).2.2, hmem]
    unfold Generator.isCallOf at hcall
    split at hcall
    · rfl
    · cases hcall
  have hformed := Formed.of_removes (code?_formed hf code names) rfl hg hremoves hown
    fun b hb body hbody => by
      obtain ⟨p, _, _, -, hhook⟩ := hbody
      exact Generator.fragmentBody_hook (Graph.straight_blocks hg (.tail _ hb)) (hlast hb) hhook
  refine ⟨g, (hformed.of_code ?_ ?_ ?_).setBody (Program.isSome_func?.1 hid).2 ?_⟩
  · exact (Program.modifyFunc_size ..).trans (Program.modifyFunc_size ..)
  · exact (Program.modifyFunc_shareCount ..).trans (Program.modifyFunc_shareCount ..)
  · intro fn hne
    rw [formed, Program.code?_setBody, if_neg hne, hw₁, objected_code? fn hne]
  · rw [wrapped, hbody, List.dropLast_concat]
    refine fragmentBody_leaves ?_
    intro s hs
    simp only [List.mem_append, List.mem_cons, List.not_mem_nil, or_false] at hs
    rcases hs with (rfl | hs) | rfl | rfl
    · exact leaf_simple rfl
    · exact hremoves.fragments.leaf s hs
    · exact Generator.leaf_setField _ _
    · exact leaf_simple rfl

/-- A function and its blocks, once its control flow is lowered. -/
theorem formed_of_flow {generator : Bool} (h : Flow builtins id generator w w')
    (hid : (w.program.func? id).isSome)
    (hquiet : quiet → generator = false → JumpCode.Unyielding (allStmts (w.program.bodyOf id))) :
    ∃ code names g, JumpCode.ofBody (w.program.bodyOf id) w.names = .ok code names ∧
      Formed quiet id code g w.program w'.program := by
  cases h with
  | plain hcode hrun =>
      obtain ⟨g, hg⟩ := formed_of_plain hid
        (fun h => JumpCode.ofBody_unyielding hcode (hquiet h rfl)) hrun
      exact ⟨_, _, g, hcode, hg⟩
  | generator _ _ _ hcode hrun hentry _ hcall =>
      obtain ⟨g, hg⟩ := formed_of_generator hid hcode hrun hentry hcall
      exact ⟨_, _, g, hcode, hg⟩

end Pass

end Resumable
