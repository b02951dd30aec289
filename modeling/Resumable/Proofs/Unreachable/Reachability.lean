import Resumable.Proofs.Unreachable.Sweeps

/-!
# The labels that paths lead to

The search for labels ends with all of them: from a label that was found no jump
leads to one that was not. Main statement: a jump of a block with a reachable
label goes to reachable labels. The numbers of statements play no part.
-/

namespace Resumable

def Block.Same (b b' : Block) : Prop :=
  b.label = b'.label ∧ SameStmts b.stmts b'.stmts

theorem Block.Same.succs_eq {b b' : Block} (h : Block.Same b b') : b'.succs = b.succs := by
  have htargets {stmts stmts' : List Stmt} (h : SameStmts stmts stmts') :
      stmts'.flatMap Stmt.targets = stmts.flatMap Stmt.targets := by
    induction h with
    | nil => rfl
    | cons hs _ ih => rw [List.flatMap_cons, List.flatMap_cons, Stmt.targets_of_same hs, ih]
  rw [Block.succs, Block.succs, htargets h.2]

namespace Graph

/-! ## Reachable labels -/

section

variable {g : Graph} {code : List Stmt} {b : Block}

theorem mem_reachable_of_source {sources : List String} {l : String} (h : l ∈ sources) :
    l ∈ g.reachable sources :=
  mem_reachable_iff.2 ⟨l, h, .refl⟩

/-- Reachable labels lead to reachable labels. -/
theorem mem_reachable_of_edge {sources : List String} {l m : String} (hl : l ∈ g.reachable sources)
    (hm : m ∈ g.edges l) : m ∈ g.reachable sources := by
  obtain ⟨source, hsource, hpath⟩ := mem_reachable_iff.1 hl
  exact mem_reachable_iff.2 ⟨source, hsource, hpath.tail hm⟩

/-- Different blocks have different labels. -/
theorem Describes.nodup_blocks (hg : g.Describes code) : (g.blocks.map Block.label).Nodup := by
  rw [blocks, List.map_cons, hg.entry, ← labels, hg.eq_split, labels_split]
  exact List.nodup_cons.2 ⟨hg.nonempty, hg.nodup⟩

theorem Describes.edges_label (hg : g.Describes code) (hb : b ∈ g.blocks) :
    g.edges b.label = b.succs := by
  have hfind : g.block? b.label = some b := by
    obtain ⟨before, after, hsplit⟩ := List.append_of_mem hb
    have hnodup := hg.nodup_blocks
    rw [hsplit, List.map_append, List.map_cons, List.nodup_append] at hnodup
    rw [block?, hsplit, List.find?_append, List.find?_eq_none.2, Option.none_or,
      List.find?_cons_of_pos (by simp)]
    intro c hc heq
    exact hnodup.2.2 _ (List.mem_map_of_mem hc) _ (.head _) (by simpa using heq)
  rw [edges, hfind]

/-- The jumps of reachable blocks go to reachable labels. -/
theorem Describes.mem_reachable_of_target (hg : g.Describes code) {sources : List String}
    (hb : b ∈ g.blocks) (hlabel : b.label ∈ g.reachable sources) {s : Stmt} (hs : s ∈ b.stmts)
    {l : String} (hl : l ∈ s.targets) : l ∈ g.reachable sources := by
  refine mem_reachable_of_edge hlabel ?_
  rw [hg.edges_label hb]
  exact List.mem_eraseDups.2 (List.mem_flatMap.2 ⟨s, hs, hl⟩)

end

/-! ## Numbers of statements -/

section

variable {code code' : List Stmt}

theorem keep_same (h : SameStmts code code') : SameStmts (Block.keep code) (Block.keep code') := by
  induction h with
  | nil => exact .nil
  | cons hs _ ih =>
      simp only [Block.keep, Stmt.isTerminator_of_same hs]
      split
      · exact .cons hs .nil
      · exact .cons hs ih

theorem segments_same (h : SameStmts code code') :
    SameStmts (segments code).1 (segments code').1 ∧
      List.Forall₂ (fun seg seg' => seg.1 = seg'.1 ∧ SameStmts seg.2 seg'.2) (segments code).2
        (segments code').2 := by
  induction h using SameStmts.code_induction with
  | nil => exact ⟨.nil, .nil⟩
  | label l _ ih => exact ⟨.nil, .cons ⟨rfl, ih.1⟩ ih.2⟩
  | other hs _ hlabel hlabel' ih =>
      rw [segments_cons hlabel, segments_cons hlabel']
      exact ⟨.cons hs ih.1, ih.2⟩

theorem split_same (h : SameStmts code code') :
    List.Forall₂ Block.Same (split code).blocks (split code').blocks := by
  obtain ⟨hentry, hothers⟩ := segments_same h
  refine .cons ⟨rfl, keep_same hentry⟩ ?_
  simp only [split, List.forall₂_map_left_iff, List.forall₂_map_right_iff]
  exact hothers.imp fun _ _ hseg => ⟨hseg.1, keep_same hseg.2⟩

variable {g g' : Graph}

theorem edges_same (h : List.Forall₂ Block.Same g.blocks g'.blocks) : g'.edges = g.edges := by
  have hfind {bs bs' : List Block} (l : String) (h : List.Forall₂ Block.Same bs bs') :
      ((bs'.find? fun b => b.label = l).map Block.succs) =
        (bs.find? fun b => b.label = l).map Block.succs := by
    induction h with
    | nil => rfl
    | @cons b b' _ _ hb _ ih =>
        rw [List.find?_cons, List.find?_cons, hb.1]
        split
        · rw [Option.map_some, Option.map_some, hb.succs_eq]
        · exact ih
  have hedges (g : Graph) (l : String) :
      g.edges l = ((g.block? l).map Block.succs).getD [] := by
    unfold edges
    cases g.block? l <;> rfl
  funext l
  rw [hedges, hedges, block?, block?, hfind l h]

/-- Numbering statements changes no path. -/
theorem reachable_same (h : List.Forall₂ Block.Same g.blocks g'.blocks) (sources : List String) :
    g'.reachable sources = g.reachable sources := by
  have hsuccs {bs bs' : List Block} (h : List.Forall₂ Block.Same bs bs') :
      bs'.flatMap Block.succs = bs.flatMap Block.succs := by
    induction h with
    | nil => rfl
    | cons hb _ ih => rw [List.flatMap_cons, List.flatMap_cons, hb.succs_eq, ih]
  rw [reachable, reachable, edges_same h, hsuccs h]

theorem unreachable_same (h : List.Forall₂ Block.Same g.blocks g'.blocks) :
    g'.unreachable = g.unreachable := by
  have hlabels {bs bs' : List Block} (h : List.Forall₂ Block.Same bs bs') :
      bs'.map Block.label = bs.map Block.label := by
    induction h with
    | nil => rfl
    | cons hb _ ih => rw [List.map_cons, List.map_cons, hb.1, ih]
  rw [unreachable, unreachable, reachable_same h, labels, labels, hlabels (List.forall₂_cons.1 h).2]

end

end Graph

end Resumable
