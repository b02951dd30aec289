import Mathlib.Data.List.Forall2
import Resumable.Proofs.Jump.Machine
import Resumable.Lowering.Graph
import Resumable.Arena.Sharing

/-!
# Blocks of jump code

What the graph of jump code says about the code itself: the block of a label
holds the statements after the label up to the first terminator, and every
jump of a block leads to a label that occurs once. The numbers of statements in
common play no part in it.
-/

namespace Resumable

/-! ## Numbers of statements -/

def Stmt.unshare : Stmt → Stmt
  | .simple s _ => .simple s none
  | s => s

/-- Two bodies are the same apart from the numbers of their statements. -/
abbrev SameStmts (body body' : List Stmt) : Prop :=
  List.Forall₂ (fun s s' => s.unshare = s'.unshare) body body'

namespace Stmt

theorem unshare_share (n : Nat) (s : Stmt) : (s.share n).unshare = s.unshare := by
  cases s with
  | simple s share => cases share <;> rfl
  | _ => rfl

/-- Statements that are the same apart from their numbers. -/
theorem same_cases {s s' : Stmt} (h : s.unshare = s'.unshare) :
    s' = s ∨ ∃ x n n', s = .simple x n ∧ s' = .simple x n' := by
  cases s <;> cases s' <;> simp_all [unshare]

theorem targets_of_same {s s' : Stmt} (h : s.unshare = s'.unshare) : s'.targets = s.targets := by
  obtain rfl | ⟨x, n, n', rfl, rfl⟩ := same_cases h <;> rfl

theorem isTerminator_of_same {s s' : Stmt} (h : s.unshare = s'.unshare) :
    s'.isTerminator = s.isTerminator := by
  obtain rfl | ⟨x, n, n', rfl, rfl⟩ := same_cases h <;> rfl

theorem isStructured_of_same {s s' : Stmt} (h : s.unshare = s'.unshare) :
    s'.isStructured = s.isStructured := by
  obtain rfl | ⟨x, n, n', rfl, rfl⟩ := same_cases h <;> rfl

theorem same_share (body : List Stmt) (f : Nat → Nat) :
    SameStmts body (body.mapIdx fun i s => s.share (f i)) := by
  induction body generalizing f with
  | nil => exact .nil
  | cons s rest ih =>
      rw [List.mapIdx_cons]
      exact .cons (unshare_share (f 0) s).symm (ih fun i => f (i + 1))

/-- Induction on code that tells labels from the other statements. -/
theorem code_induction {motive : List Stmt → Prop} (nil : motive [])
    (label : ∀ l rest, motive rest → motive (.label l :: rest))
    (other : ∀ s rest, (∀ l, s ≠ .label l) → motive rest → motive (s :: rest))
    (code : List Stmt) : motive code := by
  induction code with
  | nil => exact nil
  | cons s rest ih =>
      by_cases hs : ∃ l, s = .label l
      · obtain ⟨l, rfl⟩ := hs
        exact label l rest ih
      · exact other s rest (fun l hl => hs ⟨l, hl⟩) ih

theorem after?_cons {s : Stmt} (h : ∀ l, s ≠ .label l) (l : String) (rest : List Stmt) :
    after? l (s :: rest) = after? l rest := by
  cases s <;> first | rfl | exact absurd rfl (h _)

/-- The code after a label is a part of the code. -/
theorem after?_subset {l : String} {code rest : List Stmt} (h : after? l code = some rest) :
    rest ⊆ code := by
  induction code using code_induction with
  | nil => cases h
  | label m code ih =>
      simp only [after?] at h
      split at h
      · cases h
        exact List.subset_cons_self ..
      · exact List.subset_cons_of_subset _ (ih h)
  | other s code hs ih =>
      rw [after?_cons hs] at h
      exact List.subset_cons_of_subset _ (ih h)

end Stmt

/-- What stands in the second of two rows that correspond has a counterpart. -/
theorem exists_of_forall₂ {α β : Type} {R : α → β → Prop} {xs : List α} {ys : List β}
    (h : List.Forall₂ R xs ys) {y : β} (hy : y ∈ ys) : ∃ x ∈ xs, R x y := by
  induction h with
  | nil => cases hy
  | cons hxy _ ih =>
      rcases List.mem_cons.1 hy with rfl | hy
      · exact ⟨_, .head _, hxy⟩
      · obtain ⟨x, hx, hxy⟩ := ih hy
        exact ⟨x, .tail _ hx, hxy⟩

theorem SameStmts.exists_of_mem {body body' : List Stmt} (h : SameStmts body body') {s' : Stmt}
    (hs : s' ∈ body') : ∃ s ∈ body, s.unshare = s'.unshare :=
  exists_of_forall₂ h hs

theorem SameStmts.symm {body body' : List Stmt} (h : SameStmts body body') : SameStmts body' body :=
  h.flip.imp fun _ _ hsame => hsame.symm

theorem Stmt.not_label_of_same {s s' : Stmt} (h : s.unshare = s'.unshare) (hs : ∀ l, s ≠ .label l)
    (l : String) : s' ≠ .label l := by
  rintro rfl
  obtain heq | ⟨x, n, n', -, hx⟩ := same_cases h
  · exact hs l heq.symm
  · cases hx

/-- Induction on code and the same code with other numbers, which tells labels from
the other statements. -/
theorem SameStmts.code_induction {motive : ∀ code code', SameStmts code code' → Prop}
    (nil : motive [] [] .nil)
    (label : ∀ l {code code'} (h : SameStmts code code'), motive _ _ h →
      motive (.label l :: code) (.label l :: code') (.cons rfl h))
    (other : ∀ {s s' : Stmt} {code code'} (hs : s.unshare = s'.unshare) (h : SameStmts code code'),
      (∀ l, s ≠ .label l) → (∀ l, s' ≠ .label l) → motive _ _ h → motive _ _ (.cons hs h))
    {code code' : List Stmt} (h : SameStmts code code') : motive _ _ h := by
  induction h with
  | nil => exact nil
  | @cons s s' code code' hs h ih =>
      by_cases hlabel : ∃ l, s = .label l
      · obtain ⟨l, rfl⟩ := hlabel
        obtain rfl | ⟨x, n, n', hx, -⟩ := Stmt.same_cases hs
        · exact label l h ih
        · cases hx
      · have hlabel : ∀ l, s ≠ .label l := fun l hl => hlabel ⟨l, hl⟩
        exact other hs h hlabel (Stmt.not_label_of_same hs hlabel) ih

/-! ## Code that does not fall into a label -/

/-- Whether control never runs into a label; `ended` if it has already left. -/
def neverFalls : Bool → List Stmt → Bool
  | _, [] => true
  | ended, .label _ :: rest => ended && neverFalls false rest
  | ended, s :: rest => neverFalls (ended || s.isTerminator) rest

theorem neverFalls_cons {s : Stmt} (h : ∀ l, s ≠ .label l) (ended : Bool) (rest : List Stmt) :
    neverFalls ended (s :: rest) = neverFalls (ended || s.isTerminator) rest := by
  cases s <;> first | rfl | exact absurd rfl (h _)

theorem neverFalls_after {l : String} {ended : Bool} {code rest : List Stmt}
    (h : neverFalls ended code = true) (hrest : Stmt.after? l code = some rest) :
    neverFalls false rest = true := by
  induction code using Stmt.code_induction generalizing ended with
  | nil => cases hrest
  | label m code ih =>
      simp only [neverFalls, Bool.and_eq_true] at h
      simp only [Stmt.after?] at hrest
      split at hrest
      · cases hrest
        exact h.2
      · exact ih h.2 hrest
  | other s code hs ih =>
      rw [neverFalls_cons hs] at h
      rw [Stmt.after?_cons hs] at hrest
      exact ih h hrest

/-! ## Segments -/

namespace Graph

theorem segments_cons {s : Stmt} (h : ∀ l, s ≠ .label l) (rest : List Stmt) :
    segments (s :: rest) = (s :: (segments rest).1, (segments rest).2) := by
  cases s <;> first | rfl | exact absurd rfl (h _)

def labelsOf (code : List Stmt) : List String :=
  (segments code).2.map Prod.fst

theorem labelsOf_cons_label (l : String) (code : List Stmt) :
    labelsOf (.label l :: code) = l :: labelsOf code := rfl

theorem labelsOf_cons {s : Stmt} (h : ∀ l, s ≠ .label l) (code : List Stmt) :
    labelsOf (s :: code) = labelsOf code := by
  rw [labelsOf, segments_cons h, labelsOf]

theorem mem_labelsOf {l : String} {code : List Stmt} :
    l ∈ labelsOf code ↔ .label l ∈ code := by
  induction code using Stmt.code_induction with
  | nil => simp [labelsOf, segments]
  | label m code ih => simp [labelsOf_cons_label, ih]
  | other s code hs ih => rw [labelsOf_cons hs, ih, List.mem_cons, or_iff_right (hs l).symm]

theorem labelsOf_of_same {body body' : List Stmt} (h : SameStmts body body') :
    labelsOf body' = labelsOf body := by
  induction h using SameStmts.code_induction with
  | nil => rfl
  | label m _ ih => rw [labelsOf_cons_label, labelsOf_cons_label, ih]
  | other _ _ hlabel hlabel' ih => rw [labelsOf_cons hlabel, labelsOf_cons hlabel', ih]

theorem mem_of_mem_entry {s : Stmt} {code : List Stmt} (h : s ∈ (segments code).1) : s ∈ code := by
  induction code using Stmt.code_induction with
  | nil => exact h
  | label m rest ih => cases h
  | other t rest ht ih =>
      rw [segments_cons ht] at h
      rcases List.mem_cons.1 h with rfl | h
      · exact .head _
      · exact .tail _ (ih h)

theorem mem_of_mem_segments {l : String} {seg : List Stmt} {s : Stmt} {code : List Stmt}
    (h : (l, seg) ∈ (segments code).2) (hs : s ∈ seg) : s ∈ code := by
  induction code using Stmt.code_induction with
  | nil => cases h
  | label m rest ih =>
      rcases List.mem_cons.1 h with h | h
      · cases h
        exact .tail _ (mem_of_mem_entry hs)
      · exact .tail _ (ih h)
  | other t rest ht ih =>
      rw [segments_cons ht] at h
      exact .tail _ (ih h)

/-- No label is left in a segment. -/
theorem not_label_of_mem {code : List Stmt} {s : Stmt}
    (hs : s ∈ (segments code).1 ++ (segments code).2.flatMap Prod.snd) (l : String) :
    s ≠ .label l := by
  induction code using Stmt.code_induction with
  | nil => cases hs
  | label m rest ih => exact ih hs
  | other t rest ht ih =>
      rw [segments_cons ht] at hs
      rcases List.mem_cons.1 hs with rfl | hs
      · exact ht l
      · exact ih hs

/-- The block of a label holds what stands after the label. -/
theorem after?_of_mem_segments {l : String} {seg' body body' : List Stmt}
    (hsame : SameStmts body body') (hnodup : (labelsOf body').Nodup)
    (h : (l, seg') ∈ (segments body').2) :
    ∃ rest rest', Stmt.after? l body = some rest ∧ SameStmts rest rest' ∧
      (segments rest').1 = seg' ∧ rest' ⊆ body' := by
  induction hsame using SameStmts.code_induction with
  | nil => cases h
  | label m hsame ih =>
      rw [labelsOf, segments, List.map_cons, List.nodup_cons] at hnodup
      rcases List.mem_cons.1 h with h | h
      · cases h
        exact ⟨_, _, by simp [Stmt.after?], hsame, rfl, List.subset_cons_self ..⟩
      · have hne : m ≠ l := by
          rintro rfl
          exact hnodup.1 (List.mem_map.2 ⟨_, h, rfl⟩)
        obtain ⟨rest, rest', hrest, hfound, hseg, hsub⟩ := ih hnodup.2 h
        exact ⟨rest, rest', by simpa [Stmt.after?, hne] using hrest, hfound, hseg,
          List.subset_cons_of_subset _ hsub⟩
  | other hs hsame hlabel hlabel' ih =>
      rw [Stmt.after?_cons hlabel]
      rw [segments_cons hlabel'] at h
      rw [labelsOf_cons hlabel'] at hnodup
      obtain ⟨rest, rest', hrest, hfound, hseg, hsub⟩ := ih hnodup h
      exact ⟨rest, rest', hrest, hfound, hseg, List.subset_cons_of_subset _ hsub⟩

/-! ## What the graph checks -/

theorem of_fault?_eq_none {i : Nat} {seen : List String} {code : List Stmt}
    (h : fault? i seen code = none) :
    (labelsOf code).Nodup ∧ (∀ l ∈ labelsOf code, l ∉ seen) ∧ ∀ s ∈ code, s.isStructured = false := by
  induction code using Stmt.code_induction generalizing i seen with
  | nil => simp [labelsOf, segments]
  | label m rest ih =>
      simp only [fault?] at h
      split at h
      · cases h
      · next hseen =>
          obtain ⟨hnodup, hnew, hplain⟩ := ih h
          simp only [List.contains_iff_mem] at hseen
          refine ⟨List.nodup_cons.2 ⟨fun hm => hnew m hm (.head _), hnodup⟩,
            List.forall_mem_cons.2 ⟨hseen, fun l hl hs => hnew l hl (.tail _ hs)⟩,
            List.forall_mem_cons.2 ⟨rfl, hplain⟩⟩
  | other s rest hlabel ih =>
      have hstep : s.isStructured = false ∧ fault? (i + 1) seen rest = none := by
        cases s <;> first
          | exact absurd rfl (hlabel _)
          | exact ⟨rfl, h⟩
          | cases h
      obtain ⟨hnodup, hnew, hplain⟩ := ih hstep.2
      rw [labelsOf_cons hlabel]
      exact ⟨hnodup, hnew, List.forall_mem_cons.2 ⟨hstep.1, hplain⟩⟩

structure Describes (g : Graph) (code : List Stmt) : Prop where
  entry : g.entry = .ofStmts entryLabel (segments code).1
  labelled : g.labelled = (segments code).2.map fun (l, body) => .ofStmts l body
  nodup : (labelsOf code).Nodup
  nonempty : entryLabel ∉ labelsOf code
  plain : ∀ s ∈ code, s.isStructured = false
  resolved : ∀ b ∈ g.blocks, ∀ s ∈ b.stmts, ∀ l ∈ s.targets, l ≠ entryLabel → l ∈ labelsOf code

theorem keep_sublist (seg : List Stmt) : (Block.keep seg).Sublist seg := by
  induction seg with
  | nil => exact .slnil
  | cons s rest ih =>
      unfold Block.keep
      split
      · exact (List.nil_sublist rest).cons_cons s
      · exact ih.cons_cons s

theorem keep_subset (seg : List Stmt) : Block.keep seg ⊆ seg :=
  (keep_sublist seg).subset

/-- The blocks of code, whatever its labels and jumps are. -/
def split (code : List Stmt) : Graph :=
  ⟨.ofStmts entryLabel (segments code).1, (segments code).2.map fun (l, body) => .ofStmts l body⟩

theorem mem_of_mem_split {code : List Stmt} {b : Block} (hb : b ∈ (split code).blocks) {s : Stmt}
    (hs : s ∈ b.stmts) : s ∈ code := by
  rcases List.mem_cons.1 hb with rfl | hb
  · exact mem_of_mem_entry (keep_subset _ hs)
  · obtain ⟨⟨l, seg⟩, hseg, rfl⟩ := List.mem_map.1 hb
    exact mem_of_mem_segments hseg (keep_subset _ hs)

theorem segments_sublist (code : List Stmt) :
    ((segments code).1 ++ (segments code).2.flatMap Prod.snd).Sublist code := by
  induction code using Stmt.code_induction with
  | nil => exact .slnil
  | label l rest ih => exact ih.cons _
  | other s rest hs ih =>
      rw [segments_cons hs]
      exact ih.cons_cons s

/-- The blocks hold each statement of the code at most once. -/
theorem split_sublist (code : List Stmt) :
    ((split code).blocks.flatMap Block.stmts).Sublist code := by
  have hkeep (segs : List (String × List Stmt)) :
      ((segs.map fun (l, body) => Block.ofStmts l body).flatMap Block.stmts).Sublist
        (segs.flatMap Prod.snd) := by
    induction segs with
    | nil => exact .slnil
    | cons seg segs ih => exact (keep_sublist seg.2).append ih
  exact ((keep_sublist _).append (hkeep _)).trans (segments_sublist code)

theorem labels_split (code : List Stmt) : (split code).labels = labelsOf code := by
  rw [labels, split, List.map_map]
  exact List.map_congr_left fun _ _ => rfl

theorem Describes.eq_split {g : Graph} {code : List Stmt} (hg : g.Describes code) :
    g = split code := by
  rw [split, ← hg.entry, ← hg.labelled]

theorem Describes.labels_eq {g : Graph} {code : List Stmt} (hg : g.Describes code) :
    g.labels = labelsOf code := by
  rw [hg.eq_split, labels_split]

/-- The statements of a block stand in the code. -/
theorem Describes.mem_code {g : Graph} {code : List Stmt} (hg : g.Describes code) {b : Block}
    (hb : b ∈ g.blocks) {s : Stmt} (hs : s ∈ b.stmts) : s ∈ code := by
  rw [hg.eq_split] at hb
  exact mem_of_mem_split hb hs

theorem block?_isSome {g : Graph} {l : String} (h : (g.block? l).isSome) :
    ∃ b ∈ g.blocks, b.label = l := by
  obtain ⟨b, hb⟩ := Option.isSome_iff_exists.1 h
  have hlabel := List.find?_some hb
  exact ⟨b, List.mem_of_find?_eq_some hb, by simpa using hlabel⟩

theorem describes_of_build {code : List Stmt} {g : Graph} (h : build code = .ok g) :
    g.Describes code := by
  unfold build at h
  split at h
  · cases h
  · next hfault =>
      obtain ⟨hnodup, hnew, hplain⟩ := of_fault?_eq_none hfault
      simp only at h
      split at h
      · cases h
      · next hjump =>
          cases h
          have hlabels : (segments code).2.map (Block.label ∘ fun (l, body) => .ofStmts l body) =
              labelsOf code := List.map_congr_left fun _ _ => rfl
          refine ⟨rfl, rfl, hnodup, fun hm => hnew _ hm (.head _), hplain, ?_⟩
          intro b hb s hs l hl hne
          unfold danglingJump? at hjump
          rw [List.findSome?_eq_none_iff] at hjump
          have hfound := hjump b hb
          rw [Option.map_eq_none_iff, List.find?_eq_none] at hfound
          have hblock := hfound l (List.mem_eraseDups.2 (List.mem_flatMap.2 ⟨s, hs, hl⟩))
          rw [Bool.not_eq_true, Option.isNone_eq_false_iff] at hblock
          obtain ⟨b', hb', rfl⟩ := block?_isSome hblock
          rcases List.mem_cons.1 hb' with rfl | hb'
          · exact absurd rfl hne
          · rw [← hlabels, ← List.map_map]
            exact List.mem_map_of_mem hb'

/-- Nothing is wrong with the statements of well-formed code. -/
theorem fault?_eq_none {i : Nat} {seen : List String} {code : List Stmt}
    (hnodup : (labelsOf code).Nodup) (hnew : ∀ l ∈ labelsOf code, l ∉ seen)
    (hplain : ∀ s ∈ code, s.isStructured = false) : fault? i seen code = none := by
  induction code using Stmt.code_induction generalizing i seen with
  | nil => rfl
  | label m rest ih =>
      rw [labelsOf_cons_label] at hnodup hnew
      obtain ⟨hm, hnodup⟩ := List.nodup_cons.1 hnodup
      obtain ⟨hseen, hnew⟩ := List.forall_mem_cons.1 hnew
      rw [fault?, if_neg (by simpa using hseen)]
      refine ih hnodup (fun l hl hmem => ?_) (List.forall_mem_cons.1 hplain).2
      rcases List.mem_cons.1 hmem with rfl | hmem
      · exact hm hl
      · exact hnew l hl hmem
  | other s rest hlabel ih =>
      obtain ⟨hs, hrest⟩ := List.forall_mem_cons.1 hplain
      rw [labelsOf_cons hlabel] at hnodup hnew
      have hfault := ih (i := i + 1) hnodup hnew hrest
      cases s <;> first | exact absurd rfl (hlabel _) | exact hfault | cases hs

/-- Code has a graph if its labels are different and not empty, it has no
structured statements, and the jumps of its blocks go to the entry or to its
labels. -/
theorem build_of_resolved {code : List Stmt} (hnodup : (labelsOf code).Nodup)
    (hnonempty : entryLabel ∉ labelsOf code) (hplain : ∀ s ∈ code, s.isStructured = false)
    (hjumps : ∀ b ∈ (split code).blocks, ∀ s ∈ b.stmts, ∀ l ∈ s.targets,
      l = entryLabel ∨ l ∈ labelsOf code) : build code = .ok (split code) := by
  have hfault : fault? 0 [entryLabel] code = none := by
    refine fault?_eq_none hnodup (fun l hl hmem => ?_) hplain
    rw [List.mem_singleton.1 hmem] at hl
    exact hnonempty hl
  have hdangling : (split code).danglingJump? = none := by
    refine List.findSome?_eq_none_iff.2 fun b hb => ?_
    rw [Option.map_eq_none_iff, List.find?_eq_none]
    intro l hl
    obtain ⟨s, hs, hl⟩ := List.mem_flatMap.1 (List.mem_eraseDups.1 hl)
    rw [Bool.not_eq_true, Option.isNone_eq_false_iff, block?, List.find?_isSome]
    rcases hjumps b hb s hs l hl with rfl | hlabel
    · exact ⟨_, .head _, by simp [split, Block.ofStmts]⟩
    · rw [← labels_split] at hlabel
      obtain ⟨b', hb', hl'⟩ := List.mem_map.1 hlabel
      exact ⟨b', .tail _ hb', by simpa using hl'⟩
  rw [build, hfault]
  dsimp only
  split
  · next hsome => cases hdangling.symm.trans hsome
  · rfl

theorem build_eq_split {code : List Stmt} (hnodup : (labelsOf code).Nodup)
    (hnonempty : entryLabel ∉ labelsOf code) (hplain : ∀ s ∈ code, s.isStructured = false)
    (hjumps : ∀ s ∈ code, ∀ l ∈ s.targets, l ∈ labelsOf code) : build code = .ok (split code) :=
  build_of_resolved hnodup hnonempty hplain fun _ hb s hs l hl =>
    .inr (hjumps s (mem_of_mem_split hb hs) l hl)

/-! ## Terminated blocks -/

theorem terminated_ofStmts (l : String) (seg : List Stmt) :
    (Block.ofStmts l seg).terminated = seg.any Stmt.isTerminator := by
  simp only [Block.ofStmts, Block.terminated]
  induction seg with
  | nil => rfl
  | cons s rest ih =>
      unfold Block.keep
      cases hs : s.isTerminator with
      | true => simp [hs]
      | false =>
          rw [List.any_cons, hs, Bool.false_or, ← ih]
          cases hrest : Block.keep rest with
          | nil => simp [hs]
          | cons t more => simp

theorem neverFalls_of_segments {ended : Bool} {code : List Stmt}
    (hentry : (segments code).2 ≠ [] → ended || (segments code).1.any Stmt.isTerminator)
    (hothers : ∀ seg ∈ ((segments code).2.map Prod.snd).dropLast, seg.any Stmt.isTerminator) :
    neverFalls ended code = true := by
  induction code using Stmt.code_induction generalizing ended with
  | nil => rfl
  | label m rest ih =>
      simp only [segments, List.map_cons] at hentry hothers
      have hover : ended = true := by simpa using hentry (by simp)
      rw [neverFalls, hover, Bool.true_and]
      refine ih (fun hne => ?_) fun seg hseg => hothers seg ?_
      · refine hothers _ ?_
        rw [List.dropLast_cons_of_ne_nil (by simpa using hne)]
        exact .head _
      · rw [List.dropLast_cons_of_ne_nil]
        · exact .tail _ hseg
        · intro hnil
          simp [hnil] at hseg
  | other s rest hlabel ih =>
      rw [segments_cons hlabel] at hentry hothers
      rw [neverFalls_cons hlabel]
      exact ih (fun hne => by simpa [Bool.or_assoc] using hentry hne) hothers

/-- If every block but the last ends in a terminator, control never runs into a
label. -/
theorem Describes.neverFalls {g : Graph} {code : List Stmt} (hg : g.Describes code)
    (h : ∀ b ∈ g.blocks.dropLast, b.terminated = true) : neverFalls false code = true := by
  have hblocks : g.blocks = (("", (segments code).1) :: (segments code).2).map
      fun (l, body) => Block.ofStmts l body := by
    rw [blocks, hg.entry, hg.labelled]
    rfl
  have hseg {p : String × List Stmt} (hp : p ∈ (("", (segments code).1) ::
      (segments code).2).dropLast) : p.2.any Stmt.isTerminator = true := by
    rw [← terminated_ofStmts p.1 p.2]
    refine h _ ?_
    rw [hblocks, ← List.map_dropLast]
    exact List.mem_map.2 ⟨p, hp, rfl⟩
  refine neverFalls_of_segments (fun hne => ?_) fun seg hmem => ?_
  · rw [Bool.false_or]
    refine hseg (p := ("", _)) ?_
    rw [List.dropLast_cons_of_ne_nil hne]
    exact .head _
  · rw [← List.map_dropLast, List.mem_map] at hmem
    obtain ⟨p, hp, rfl⟩ := hmem
    refine hseg ?_
    rw [List.dropLast_cons_of_ne_nil (by rintro hnil; simp [hnil] at hp)]
    exact .tail _ hp

theorem segments_of_neverFalls {ended : Bool} {code : List Stmt}
    (h : neverFalls ended code = true) :
    ((segments code).2 ≠ [] → ended || (segments code).1.any Stmt.isTerminator) ∧
      ∀ seg ∈ ((segments code).2.map Prod.snd).dropLast, seg.any Stmt.isTerminator := by
  induction code using Stmt.code_induction generalizing ended with
  | nil => simp [segments]
  | label m rest ih =>
      rw [neverFalls, Bool.and_eq_true] at h
      obtain ⟨hentry, hothers⟩ := ih h.2
      refine ⟨fun _ => by simp [h.1], fun seg hseg => ?_⟩
      simp only [segments, List.map_cons] at hseg
      cases hrest : (segments rest).2 with
      | nil => simp [hrest] at hseg
      | cons next more =>
          rw [List.dropLast_cons_of_ne_nil (by simp [hrest])] at hseg
          rcases List.mem_cons.1 hseg with rfl | hseg
          · simpa using hentry (by simp [hrest])
          · exact hothers seg hseg
  | other s rest hlabel ih =>
      rw [neverFalls_cons hlabel] at h
      rw [segments_cons hlabel]
      obtain ⟨hentry, hothers⟩ := ih h
      exact ⟨fun hne => by simpa [Bool.or_assoc] using hentry hne, hothers⟩

/-- If control never runs into a label, every block but the last ends in a
terminator. -/
theorem terminated_of_neverFalls {code : List Stmt} (h : neverFalls false code = true) :
    ∀ b ∈ (split code).blocks.dropLast, b.terminated = true := by
  obtain ⟨hentry, hothers⟩ := segments_of_neverFalls h
  intro b hb
  cases hsegments : (segments code).2 with
  | nil => simp [blocks, split, hsegments] at hb
  | cons next more =>
      rw [blocks, List.dropLast_cons_of_ne_nil (by simp [split, hsegments])] at hb
      rcases List.mem_cons.1 hb with rfl | hb
      · rw [split, terminated_ofStmts]
        simpa using hentry (by simp [hsegments])
      · rw [split, ← List.map_dropLast] at hb
        obtain ⟨⟨l, seg⟩, hseg, rfl⟩ := List.mem_map.1 hb
        rw [terminated_ofStmts]
        refine hothers seg ?_
        rw [← List.map_dropLast]
        exact List.mem_map_of_mem hseg

end Graph

end Resumable
