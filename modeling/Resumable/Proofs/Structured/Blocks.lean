import Resumable.Proofs.Structured.Labels

/-!
# The blocks of lowered code

Lowered code always has a graph. Its entry only jumps to the start of the body,
its last block is empty, and control leaves every other block by a jump, a
`return` or a `throw`.
-/

namespace Resumable

theorem Label.Form.head?_text (a : Label.Form) : a.text.toList.head? = some '$' := by
  cases a <;> simp [text, Label.begin, Label.finish, Label.part, Label.caseOf, Label.defaultOf,
    Label.afterYield, Label.generatorVariable]

theorem Label.Form.text_ne_entryLabel (a : Label.Form) : a.text ≠ entryLabel := by
  intro h
  have hhead := a.head?_text
  rw [h] at hhead
  cases hhead

namespace Graph

/-- A label at the end of code opens an empty block. -/
theorem segments_append_label (code : List Stmt) (l : String) :
    (segments (code ++ [.label l])).2.getLast? = some (l, []) := by
  induction code using Stmt.code_induction with
  | nil => rfl
  | label m rest ih =>
      rw [List.cons_append, segments, List.getLast?_cons, ih]
      rfl
  | other s rest hs ih =>
      rw [List.cons_append, segments_cons hs]
      exact ih

/-- All blocks but the last one. -/
theorem mem_dropLast_blocks {g : Graph} {last b : Block} (hlast : g.labelled.getLast? = some last)
    (hb : b ∈ g.blocks) (hne : b ≠ last) : b ∈ g.blocks.dropLast := by
  have hend : last ∈ g.blocks.getLast? := by
    rw [blocks, List.getLast?_cons, hlast]
    rfl
  rw [← List.dropLast_append_getLast? last hend] at hb
  rcases List.mem_append.1 hb with hb | hb
  · exact hb
  · exact absurd (List.mem_singleton.1 hb) hne

end Graph

namespace JumpCode

open Resumable.Graph (labelsOf)
open Label

def Flat (code : List Stmt) : Prop :=
  ∀ s ∈ code, s.isStructured = false

section

variable {s : Stmt} {code more : List Stmt} {f : Bool} {l : String}

@[simp] theorem flat_nil : Flat [] := by
  simp [Flat]

@[simp] theorem flat_cons : Flat (s :: code) ↔ s.isStructured = false ∧ Flat code := by
  simp [Flat]

@[simp] theorem flat_append : Flat (code ++ more) ↔ Flat code ∧ Flat more := by
  simp only [Flat, List.mem_append, or_imp, forall_and]

@[simp] theorem flat_jump : Flat (jump f l) := by
  cases f <;> simp [jump, Stmt.isStructured]

@[simp] theorem flat_enter : Flat (enter f l) := by
  simp [enter, Stmt.isStructured]

end

section

variable {strict : Prop}

mutual

theorem StmtCode.flat {scope : Scope} {falls falls₁ : Bool} {s : Stmt} {code : List Stmt} :
    StmtCode strict scope falls s code falls₁ → Flat code
  | .simple s share => by simp [Stmt.isStructured]
  | .yield x share l => by simp [Stmt.isStructured]
  | .breakTo _ | .continueTo _ => by simp [Stmt.isStructured]
  | .ifElse test succ fail done hthen helse => by
      simp [Stmt.isStructured, hthen.flat, helse.flat]
  | .whileLoop test start done _ hbody | .doWhile start test done _ hbody
  | .switch test done hbody => by
      simp [Stmt.isStructured, hbody.flat]
  | .forLoop first test start last done hbody => by
      split <;> split <;> split <;> simp [Stmt.isStructured, hbody.flat]

theorem ListCode.flat {scope : Scope} {falls falls₁ : Bool} {body : List Stmt} {arms : List Arm}
    {code : List Stmt} : ListCode strict scope falls body arms code falls₁ → Flat code
  | .nil _ => by simp
  | .cons hfirst hothers => flat_append.2 ⟨hfirst.flat, hothers.flat⟩
  | .case l _ hrest | .default l hrest | .label l hrest => flat_append.2 ⟨flat_enter, hrest.flat⟩

end

theorem BodyCode.flat {body code : List Stmt} (h : BodyCode strict body code) : Flat code := by
  obtain ⟨c, falls, hlist, rfl⟩ := h
  simp [Stmt.isStructured, hlist.flat]

theorem BodyCode.entry {body code : List Stmt} (h : BodyCode strict body code) :
    (Graph.split code).entry = ⟨entryLabel, [.goto Label.begin], 0⟩ := by
  obtain ⟨c, falls, -, rfl⟩ := h
  rfl

theorem BodyCode.last {body code : List Stmt} (h : BodyCode strict body code) :
    (Graph.split code).labelled.getLast? = some ⟨Label.finish, [], 0⟩ := by
  obtain ⟨c, falls, -, rfl⟩ := h
  rw [Graph.split, List.getLast?_map, enter, ← List.append_assoc, ← List.cons_append,
    ← List.cons_append, Graph.segments_append_label]
  rfl

end

/-- The labels of a body: those of its start and end, and between them those of
its constructs. -/
theorem ofBody_labels {body code : List Stmt} {n n' : Names} (h : ofBody body n = .ok code n') :
    Names.Draws n n' ∧ ∃ forms, Form.Between n n' forms ∧
      (labelsOf code).Perm ((.begin :: .finish :: forms).map Form.text) := by
  unfold ofBody at h
  obtain ⟨c, n₁, hlist, hcode⟩ := bind_eq_ok.1 h
  obtain ⟨rfl, rfl⟩ := pure_eq_ok.1 hcode
  obtain ⟨hdraws, forms, hforms, hperm⟩ := lowerList_labelled body hlist
  refine ⟨hdraws, forms, hforms, List.perm_iff_count.2 fun l => ?_⟩
  have hcount := List.perm_iff_count.1 hperm l
  simp only [List.map_cons, List.count_cons, ← hcount]
  simp [List.count_cons, Form.text]

/-- Different places of a body have different labels. -/
theorem nodup_bodyForms {n n' : Names} {forms : List Form} (h : Form.Between n n' forms) :
    ((.begin :: .finish :: forms).map Form.text).Nodup := by
  have hplace (a : Form) (ha : a.origin? = none) : a ∉ forms := by
    intro hmem
    obtain ⟨kind, k, hk, -⟩ := h.drawn a hmem
    rw [ha] at hk
    cases hk
  have hnodup : (.begin :: .finish :: forms).Nodup := by
    refine List.nodup_cons.2 ⟨?_, List.nodup_cons.2 ⟨hplace _ rfl, h.nodup⟩⟩
    simp [hplace .begin rfl]
  have hproper : ∀ a ∈ Form.begin :: .finish :: forms, a.isProper = true := by
    simpa [Form.isProper] using h.proper
  exact (List.nodup_map_iff_inj_on hnodup).2 fun a ha b hb hab =>
    Form.text_injective (hproper a ha) (hproper b hb) hab

/-- The labels of lowered code are different and not empty. -/
theorem ofBody_nodup {body code : List Stmt} {n n' : Names} (h : ofBody body n = .ok code n') :
    (labelsOf code).Nodup ∧ entryLabel ∉ labelsOf code := by
  obtain ⟨-, forms, hforms, hperm⟩ := ofBody_labels h
  refine ⟨hperm.nodup_iff.2 (nodup_bodyForms hforms), fun hmem => ?_⟩
  obtain ⟨a, -, ha⟩ := List.mem_map.1 (hperm.mem_iff.1 hmem)
  exact a.text_ne_entryLabel ha

/-- The jumps of lowered code go to its labels, with or without numbers. -/
theorem jumps_of_same {body code code' : List Stmt} {n n' : Names}
    (h : ofBody body n = .ok code n') (hsame : SameStmts code code') :
    ∀ s ∈ code', ∀ l ∈ s.targets, l ∈ labelsOf code' := by
  have hbody : BodyCode False body code := bodyCode_of_ofBody False.elim h
  intro s' hs' l hl
  obtain ⟨s, hs, hsames⟩ := hsame.exists_of_mem hs'
  rw [Stmt.targets_of_same hsames] at hl
  rw [Graph.labelsOf_of_same hsame]
  exact hbody.jumpsTo (fun l hl => Graph.mem_labelsOf.2 hl) s hs l hl

/-- The graph of lowered code, with or without numbers. -/
theorem build_of_same {body code code' : List Stmt} {n n' : Names}
    (h : ofBody body n = .ok code n') (hsame : SameStmts code code') :
    Graph.build code' = .ok (Graph.split code') := by
  have hbody : BodyCode False body code := bodyCode_of_ofBody False.elim h
  obtain ⟨hnodup, hnonempty⟩ := ofBody_nodup h
  rw [← Graph.labelsOf_of_same hsame] at hnodup hnonempty
  refine Graph.build_eq_split hnodup hnonempty (fun s' hs' => ?_) (jumps_of_same h hsame)
  obtain ⟨s, hs, hsame⟩ := hsame.exists_of_mem hs'
  exact (Stmt.isStructured_of_same hsame).trans (hbody.flat s hs)

theorem build_ofBody {body code : List Stmt} {n n' : Names} (h : ofBody body n = .ok code n') :
    Graph.build code = .ok (Graph.split code) :=
  build_of_same h (List.forall₂_same.2 fun _ _ => rfl)

/-- The entry of lowered code jumps to the start, with or without numbers. -/
theorem entry_of_same {body code code' : List Stmt} {n n' : Names}
    (h : ofBody body n = .ok code n') (hsame : SameStmts code code') :
    (Graph.split code').entry.stmts = [.goto Label.begin] := by
  have hbody : BodyCode False body code := bodyCode_of_ofBody False.elim h
  obtain ⟨c, falls, -, rfl⟩ := hbody
  obtain ⟨s, rest, hs, hrest, rfl⟩ := List.forall₂_cons_left_iff.1 hsame
  obtain ⟨t, rest', ht, -, rfl⟩ := List.forall₂_cons_left_iff.1 hrest
  obtain rfl | ⟨_, _, _, hx, -⟩ := Stmt.same_cases hs
  · obtain rfl | ⟨_, _, _, hx, -⟩ := Stmt.same_cases ht
    · rfl
    · cases hx
  · cases hx

/-- Lowered code has a graph: its labels are different and not empty, nothing in
it is structured, and all its jumps, dropped or not, go to its labels. The entry
is a jump to the start, the last block is empty, and every other block ends in a
terminator. -/
theorem ofBody_blocks {body code : List Stmt} {n n' : Names} (h : ofBody body n = .ok code n') :
    ∃ g, Graph.build code = .ok g ∧ g.labels.Nodup ∧ entryLabel ∉ g.labels ∧
      (∀ s ∈ code, s.isStructured = false) ∧ (∀ s ∈ code, ∀ l ∈ s.targets, l ∈ g.labels) ∧
      g.entry = ⟨entryLabel, [.goto Label.begin], 0⟩ ∧
      g.labelled.getLast? = some ⟨Label.finish, [], 0⟩ ∧
      ∀ b ∈ g.blocks, b.label ≠ Label.finish → b.terminated = true := by
  have hbody : BodyCode False body code := bodyCode_of_ofBody False.elim h
  obtain ⟨-, forms, hforms, hperm⟩ := ofBody_labels h
  have hnodup : (labelsOf code).Nodup := hperm.nodup_iff.2 (nodup_bodyForms hforms)
  have hnonempty : entryLabel ∉ labelsOf code := by
    intro hmem
    obtain ⟨a, -, ha⟩ := List.mem_map.1 (hperm.mem_iff.1 hmem)
    exact a.text_ne_entryLabel ha
  have hjumps : JumpsTo (· ∈ labelsOf code) code :=
    hbody.jumpsTo fun l hl => Graph.mem_labelsOf.2 hl
  refine ⟨Graph.split code, Graph.build_eq_split hnodup hnonempty hbody.flat hjumps, ?_⟩
  rw [Graph.labels_split]
  refine ⟨hnodup, hnonempty, hbody.flat, hjumps, hbody.entry, hbody.last, fun b hb hne => ?_⟩
  refine Graph.terminated_of_neverFalls hbody.neverFalls b ?_
  exact Graph.mem_dropLast_blocks hbody.last hb fun h => hne (congrArg Block.label h)

/-- A switch that falls through into a loop without a test, with statements that
can never run. -/
def deadEnds : List Stmt :=
  let n : Expr := .ref ⟨0, "n", .variant⟩
  [.switch n
      [.caseMark n, .expr n, .defaultMark,
        .forLoop .missing .missing n [.ifElse n [.breakTo "", .continueTo ""] [.yield n]] ""] "",
    .ret n, .whileLoop .missing [] ""]

theorem ofBody_blocks_deadEnds : ∃ code n' g, ofBody deadEnds {} = .ok code n' ∧
    Graph.build code = .ok g ∧ g.labels.Nodup ∧ entryLabel ∉ g.labels ∧
    (∀ s ∈ code, s.isStructured = false) ∧ (∀ s ∈ code, ∀ l ∈ s.targets, l ∈ g.labels) ∧
    g.entry = ⟨entryLabel, [.goto Label.begin], 0⟩ ∧
    g.labelled.getLast? = some ⟨Label.finish, [], 0⟩ ∧
    ∀ b ∈ g.blocks, b.label ≠ Label.finish → b.terminated = true := by
  obtain ⟨code, n', h⟩ : ∃ code n', ofBody deadEnds {} = .ok code n' := ⟨_, _, rfl⟩
  obtain ⟨g, hg⟩ := ofBody_blocks h
  exact ⟨code, n', g, h, hg⟩

end JumpCode

end Resumable
