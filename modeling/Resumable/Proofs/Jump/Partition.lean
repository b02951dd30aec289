import Resumable.Proofs.Jump.Graph

/-!
# Jump code as a row of blocks

Which code has a graph, and what the graph is. Code is refused for a structured
statement, for a label that is empty or stands twice, and for a jump to nowhere
that control can come to; jumps behind a terminator of their block do not
count. Main statement: all other code has a graph, and it is the only row of
blocks that lays the code out.
-/

namespace Resumable

def Stmt.labelName? : Stmt → Option String
  | .label l => some l
  | _ => none

/-! ## Statements that can never run -/

/-- The statements of jump code that control can come to, if it has not `ended`
before, labels left out. -/
def live : Bool → List Stmt → List Stmt
  | _, [] => []
  | _, .label _ :: rest => live false rest
  | ended, s :: rest => if ended then live true rest else s :: live s.isTerminator rest

/-- The statements of jump code between a terminator and the next label. -/
def dead : Bool → List Stmt → List Stmt
  | _, [] => []
  | _, .label _ :: rest => dead false rest
  | ended, s :: rest => if ended then s :: dead true rest else dead s.isTerminator rest

section

variable {s : Stmt} {code : List Stmt} {ended : Bool}

theorem live_cons (h : ∀ l, s ≠ .label l) : live ended (s :: code) =
    if ended then live true code else s :: live s.isTerminator code := by
  cases s <;> first | rfl | exact absurd rfl (h _)

theorem dead_cons (h : ∀ l, s ≠ .label l) : dead ended (s :: code) =
    if ended then s :: dead true code else dead s.isTerminator code := by
  cases s <;> first | rfl | exact absurd rfl (h _)

def Block.lost : List Stmt → List Stmt
  | [] => []
  | s :: rest => if s.isTerminator then rest else lost rest

theorem Block.keep_append_lost (seg : List Stmt) : Block.keep seg ++ Block.lost seg = seg := by
  induction seg with
  | nil => rfl
  | cons s rest ih =>
      rw [keep, lost]
      split
      · rfl
      · rw [List.cons_append, ih]

theorem Block.dropped_ofStmts (l : String) (seg : List Stmt) :
    (Block.ofStmts l seg).dropped = (Block.lost seg).length := by
  have hlength := congrArg List.length (Block.keep_append_lost seg)
  rw [List.length_append] at hlength
  change seg.length - (Block.keep seg).length = _
  omega

end

namespace Graph

/-- Blocks keep what can run. -/
theorem live_eq_segments (code : List Stmt) (ended : Bool) : live ended code =
    (if ended then [] else Block.keep (segments code).1) ++
      (segments code).2.flatMap fun seg => Block.keep seg.2 := by
  induction code using Stmt.code_induction generalizing ended with
  | nil => cases ended <;> rfl
  | label l rest ih =>
      rw [live, ih, segments]
      cases ended <;> rfl
  | other s rest hs ih =>
      rw [live_cons hs, segments_cons hs, ih, ih]
      cases ended with
      | true => rfl
      | false =>
          rw [Block.keep]
          cases s.isTerminator <;> rfl

/-- Blocks lose what cannot run. -/
theorem dead_eq_segments (code : List Stmt) (ended : Bool) : dead ended code =
    (if ended then (segments code).1 else Block.lost (segments code).1) ++
      (segments code).2.flatMap fun seg => Block.lost seg.2 := by
  induction code using Stmt.code_induction generalizing ended with
  | nil => cases ended <;> rfl
  | label l rest ih =>
      rw [dead, ih, segments]
      cases ended <;> rfl
  | other s rest hs ih =>
      rw [dead_cons hs, segments_cons hs, ih, ih]
      cases ended with
      | true => rfl
      | false =>
          rw [Block.lost]
          cases s.isTerminator <;> rfl

theorem stmts_split (code : List Stmt) :
    (split code).blocks.flatMap Block.stmts = live false code := by
  rw [live_eq_segments, blocks, split, List.flatMap_cons, List.flatMap_map]
  rfl

theorem foldl_dropped (segs : List (String × List Stmt)) (n : Nat) :
    (segs.map fun (l, body) => Block.ofStmts l body).foldl (fun n b => n + b.dropped) n =
      n + (segs.flatMap fun seg => Block.lost seg.2).length := by
  induction segs generalizing n with
  | nil => rfl
  | cons seg segs ih =>
      obtain ⟨l, body⟩ := seg
      rw [List.map_cons, List.foldl_cons, ih, List.flatMap_cons, List.length_append,
        Block.dropped_ofStmts, Nat.add_assoc]

/-- What is reported as dropped are the statements that cannot run. -/
theorem dropped_split (code : List Stmt) :
    (split code).blocks.foldl (fun n b => n + b.dropped) 0 = (dead false code).length := by
  rw [dead_eq_segments, blocks, split, List.foldl_cons, foldl_dropped, List.length_append,
    Block.dropped_ofStmts, Nat.zero_add]
  rfl

/-! ## Code that has a graph -/

/-- Control can come to the end of the statements, from their start or from a
label: a label stands after every terminator. -/
def Passable (before : List Stmt) : Prop :=
  ∀ p t q, before = p ++ t :: q → t.isTerminator = true → ∃ l, .label l ∈ q

/-- Jump code in which nothing is left to refuse. -/
structure Buildable (code : List Stmt) : Prop where
  plain : ∀ s ∈ code, s.isStructured = false
  named : ∀ l, .label l ∈ code → l ≠ entryLabel
  distinct : (code.filterMap Stmt.labelName?).Nodup
  resolved : ∀ before s after, code = before ++ s :: after → Passable before →
    ∀ l ∈ s.targets, l = entryLabel ∨ .label l ∈ code

/-! ## Blocks that lay out code -/

structure Cuts (b : Block) (segment : List Stmt) : Prop where
  unbroken : ∀ s ∈ b.stmts.dropLast, s.isTerminator = false
  rest : ∃ cut, segment = b.stmts ++ cut ∧ b.dropped = cut.length ∧
    (cut ≠ [] → b.terminated = true)

/-- Blocks in the order of the code, each behind its label. -/
inductive LaysOut : List Block → List Stmt → Prop
  | nil : LaysOut [] []
  | cons {b : Block} {segment : List Stmt} {blocks : List Block} {code : List Stmt}
      (hfree : ∀ l, .label l ∉ segment) (hcut : Cuts b segment) (hrest : LaysOut blocks code) :
      LaysOut (b :: blocks) (.label b.label :: segment ++ code)

/-- The blocks of the graph are the code from its start to its end. -/
structure Splits (g : Graph) (code : List Stmt) : Prop where
  entry : g.entry.label = entryLabel
  layout : ∃ segment rest, code = segment ++ rest ∧ (∀ l, .label l ∉ segment) ∧
    Cuts g.entry segment ∧ LaysOut g.labelled rest

/-! ## What is refused -/

theorem passable_cons {t : Stmt} {before : List Stmt} : Passable (t :: before) ↔
    Passable before ∧ (t.isTerminator = true → ∃ l, .label l ∈ before) := by
  constructor
  · intro h
    exact ⟨fun p u q hsplit => h (t :: p) u q (by rw [hsplit, List.cons_append]),
      h [] t before rfl⟩
  · rintro ⟨hbefore, ht⟩ p u q hsplit
    rcases List.cons_eq_append_iff.1 hsplit with ⟨-, hcons⟩ | ⟨p', -, hsplit⟩
    · cases hcons
      exact ht
    · exact hbefore p' u q hsplit

/-- A statement can run if control passes what stands before it, and a label is
there in case control has ended before. -/
theorem mem_live_iff {s : Stmt} {ended : Bool} {code : List Stmt} :
    s ∈ live ended code ↔ (∀ l, s ≠ .label l) ∧ ∃ before after, code = before ++ s :: after ∧
      Passable before ∧ (ended = true → ∃ l, .label l ∈ before) := by
  induction code using Stmt.code_induction generalizing ended with
  | nil => simp [live]
  | label l rest ih =>
      rw [live, ih]
      refine and_congr_right fun hs => ⟨?_, ?_⟩
      · rintro ⟨before, after, rfl, hpass, -⟩
        exact ⟨.label l :: before, after, rfl, passable_cons.2 ⟨hpass, Bool.noConfusion⟩,
          fun _ => ⟨l, .head _⟩⟩
      · rintro ⟨before, after, hsplit, hpass, -⟩
        rcases List.cons_eq_append_iff.1 hsplit with ⟨-, hcons⟩ | ⟨before', rfl, hrest⟩
        · exact absurd (List.cons.inj hcons).1 (hs l)
        · exact ⟨before', after, hrest, (passable_cons.1 hpass).1, Bool.noConfusion⟩
  | other t rest ht ih =>
      rw [live_cons ht]
      cases ended with
      | true =>
          -- nothing runs up to the next label, so one must stand in front
          rw [if_pos rfl, ih]
          refine and_congr_right fun hs => ⟨?_, ?_⟩
          · rintro ⟨before, after, rfl, hpass, hlabel⟩
            obtain ⟨l, hl⟩ := hlabel rfl
            exact ⟨t :: before, after, rfl, passable_cons.2 ⟨hpass, fun _ => ⟨l, hl⟩⟩,
              fun _ => ⟨l, .tail _ hl⟩⟩
          · rintro ⟨before, after, hsplit, hpass, hlabel⟩
            obtain ⟨l, hl⟩ := hlabel rfl
            rcases List.cons_eq_append_iff.1 hsplit with ⟨rfl, -⟩ | ⟨before', rfl, hrest⟩
            · cases hl
            · have hl := (List.mem_cons.1 hl).resolve_left (ht l).symm
              exact ⟨before', after, hrest, (passable_cons.1 hpass).1, fun _ => ⟨l, hl⟩⟩
      | false =>
          rw [if_neg Bool.noConfusion, List.mem_cons, ih]
          constructor
          · rintro (rfl | ⟨hs, before, after, rfl, hpass⟩)
            · exact ⟨ht, [], rest, rfl, by simp [Passable], Bool.noConfusion⟩
            · exact ⟨hs, t :: before, after, rfl, passable_cons.2 hpass, Bool.noConfusion⟩
          · rintro ⟨hs, before, after, hsplit, hpass, -⟩
            rcases List.cons_eq_append_iff.1 hsplit with ⟨-, hcons⟩ | ⟨before', rfl, hrest⟩
            · exact .inl (List.cons.inj hcons).1
            · exact .inr ⟨hs, before', after, hrest, passable_cons.1 hpass⟩

theorem labelsOf_eq_filterMap (code : List Stmt) :
    labelsOf code = code.filterMap Stmt.labelName? := by
  induction code using Stmt.code_induction with
  | nil => rfl
  | label l rest ih =>
      rw [labelsOf_cons_label, ih]
      rfl
  | other s rest hs ih =>
      rw [labelsOf_cons hs, ih]
      cases s <;> first | rfl | exact absurd rfl (hs _)

theorem Buildable.build_eq {code : List Stmt} (h : Buildable code) :
    build code = .ok (split code) := by
  refine build_of_resolved (labelsOf_eq_filterMap code ▸ h.distinct)
    (fun hentry => h.named _ (mem_labelsOf.1 hentry) rfl) h.plain fun b hb s hs l hl => ?_
  have hlive : s ∈ live false code := stmts_split code ▸ List.mem_flatMap.2 ⟨b, hb, hs⟩
  obtain ⟨-, before, after, hcode, hpass, -⟩ := mem_live_iff.1 hlive
  exact (h.resolved before s after hcode hpass l hl).imp_right mem_labelsOf.2

theorem buildable_of_build {code : List Stmt} {g : Graph} (h : build code = .ok g) :
    Buildable code := by
  have hg := describes_of_build h
  refine ⟨hg.plain, fun l hl hentry => hg.nonempty (hentry ▸ mem_labelsOf.2 hl),
    labelsOf_eq_filterMap code ▸ hg.nodup, fun before s after hcode hpass l hl => ?_⟩
  have hs : ∀ m, s ≠ .label m := by
    rintro m rfl
    cases hl
  have hlive : s ∈ live false code := mem_live_iff.2 ⟨hs, before, after, hcode, hpass, by simp⟩
  rw [← stmts_split, ← hg.eq_split] at hlive
  obtain ⟨b, hb, hmem⟩ := List.mem_flatMap.1 hlive
  by_cases hentry : l = entryLabel
  · exact .inl hentry
  · exact .inr (mem_labelsOf.1 (hg.resolved b hb s hmem l hl hentry))

/-! ## The layout -/

theorem any_isTerminator_of_lost {segment : List Stmt} (h : Block.lost segment ≠ []) :
    segment.any Stmt.isTerminator = true := by
  induction segment with
  | nil => exact absurd rfl h
  | cons s rest ih =>
      rw [List.any_cons, Bool.or_eq_true]
      by_cases hs : s.isTerminator = true
      · exact .inl hs
      · rw [Block.lost, if_neg hs] at h
        exact .inr (ih h)

theorem not_isTerminator_of_mem_dropLast {s : Stmt} {segment : List Stmt}
    (h : s ∈ (Block.keep segment).dropLast) : s.isTerminator = false := by
  induction segment with
  | nil => cases h
  | cons t rest ih =>
      unfold Block.keep at h
      split at h
      · cases h
      · next ht =>
          cases hkeep : Block.keep rest with
          | nil => simp [hkeep] at h
          | cons u more =>
              rw [hkeep, List.dropLast_cons_cons] at h
              rcases List.mem_cons.1 h with rfl | h
              · simpa using ht
              · exact ih (by rwa [hkeep])

theorem cuts_ofStmts (l : String) (segment : List Stmt) : Cuts (.ofStmts l segment) segment :=
  ⟨fun _ hs => not_isTerminator_of_mem_dropLast hs, Block.lost segment,
    (Block.keep_append_lost segment).symm, Block.dropped_ofStmts l segment,
    fun h => (terminated_ofStmts l segment).trans (any_isTerminator_of_lost h)⟩

theorem Cuts.keep_eq {b : Block} {segment : List Stmt} (h : Cuts b segment) :
    Block.keep segment = b.stmts := by
  obtain ⟨label, kept, dropped⟩ := b
  obtain ⟨hunbroken, cut, rfl, -, hend⟩ := h
  simp only at hunbroken hend ⊢
  induction kept with
  | nil =>
      cases cut with
      | nil => rfl
      | cons s rest => cases hend (List.cons_ne_nil s rest)
  | cons s kept ih =>
      rw [List.cons_append, Block.keep]
      cases kept with
      | nil =>
          -- the last statement that is kept: it is a terminator if anything is cut
          cases cut with
          | nil => simp [Block.keep]
          | cons t rest =>
              have hs : s.isTerminator = true := hend (List.cons_ne_nil t rest)
              rw [if_pos hs]
      | cons t kept =>
          rw [List.dropLast_cons_cons, List.forall_mem_cons] at hunbroken
          rw [if_neg (by simp [hunbroken.1]), ih hunbroken.2 hend]

/-- There is one way to cut a segment. -/
theorem Cuts.eq_ofStmts {b : Block} {segment : List Stmt} (h : Cuts b segment) :
    b = .ofStmts b.label segment := by
  obtain ⟨cut, hcut, hdropped, -⟩ := h.rest
  rw [Block.ofStmts, h.keep_eq, hcut, List.length_append, Nat.add_sub_cancel_left, ← hdropped]

theorem segments_append {segment : List Stmt} (hfree : ∀ l, .label l ∉ segment)
    (rest : List Stmt) :
    segments (segment ++ rest) = (segment ++ (segments rest).1, (segments rest).2) := by
  induction segment with
  | nil => rfl
  | cons s segment ih =>
      rw [List.cons_append, segments_cons fun l hl => hfree l (hl ▸ .head _),
        ih fun l hl => hfree l (.tail _ hl), List.cons_append]

theorem label_not_mem_entry (code : List Stmt) (l : String) : .label l ∉ (segments code).1 :=
  fun hmem => not_label_of_mem (List.mem_append_left _ hmem) l rfl

theorem labelled_split_label (l : String) (code : List Stmt) :
    (split (.label l :: code)).labelled = .ofStmts l (segments code).1 :: (split code).labelled :=
  rfl

theorem exists_laysOut (code : List Stmt) :
    ∃ rest, code = (segments code).1 ++ rest ∧ LaysOut (split code).labelled rest := by
  induction code using Stmt.code_induction with
  | nil => exact ⟨[], rfl, .nil⟩
  | label l code ih =>
      obtain ⟨rest, hcode, hrest⟩ := ih
      have hlays := LaysOut.cons (label_not_mem_entry code) (cuts_ofStmts l _) hrest
      rw [List.cons_append, ← hcode] at hlays
      exact ⟨.label l :: code, rfl, hlays⟩
  | other s code hs ih =>
      obtain ⟨rest, hcode, hrest⟩ := ih
      rw [split, segments_cons hs]
      exact ⟨rest, congrArg (s :: ·) hcode, hrest⟩

theorem LaysOut.segments_eq {blocks : List Block} {code : List Stmt} (h : LaysOut blocks code) :
    (segments code).1 = [] ∧ (split code).labelled = blocks := by
  induction h with
  | nil => exact ⟨rfl, rfl⟩
  | @cons b segment blocks code hfree hcut _ ih =>
      obtain ⟨hentry, hblocks⟩ := ih
      refine ⟨rfl, ?_⟩
      rw [List.cons_append, labelled_split_label, segments_append hfree, hentry, List.append_nil,
        ← hcut.eq_ofStmts, ← hblocks, split, segments_append hfree]
      rfl

/-- One graph lays out the code. -/
theorem splits_iff {g : Graph} {code : List Stmt} : Splits g code ↔ g = split code := by
  constructor
  · rintro ⟨hlabel, segment, rest, rfl, hfree, hcut, hrest⟩
    obtain ⟨hentry, hblocks⟩ := hrest.segments_eq
    obtain ⟨entry, labelled⟩ := g
    rw [split, segments_append hfree, hentry, List.append_nil, ← hlabel, ← hcut.eq_ofStmts]
    exact congrArg (Graph.mk entry) hblocks.symm
  · rintro rfl
    obtain ⟨rest, hcode, hrest⟩ := exists_laysOut code
    exact ⟨rfl, _, rest, hcode, label_not_mem_entry code, cuts_ofStmts .., hrest⟩

/-! ## Counting -/

theorem length_live_dead (code : List Stmt) (ended : Bool) :
    (labelsOf code).length + (live ended code).length + (dead ended code).length =
      code.length := by
  induction code using Stmt.code_induction generalizing ended with
  | nil => rfl
  | label l rest ih =>
      rw [labelsOf_cons_label, live, dead, List.length_cons, List.length_cons, ← ih false]
      omega
  | other s rest hs ih =>
      rw [labelsOf_cons hs, live_cons hs, dead_cons hs, List.length_cons,
        ← ih (ended || s.isTerminator)]
      cases ended <;> simp <;> omega

/-! ## Successors -/

theorem idxOf_lt_of_filter {p : String → Bool} {xs : List String} {a b : String}
    (ha : p a = true) (hb : p b = true) (h : (xs.filter p).idxOf a < (xs.filter p).idxOf b) :
    xs.idxOf a < xs.idxOf b := by
  induction xs with
  | nil => exact absurd h (Nat.lt_irrefl _)
  | cons x xs ih =>
      cases hx : p x with
      | false =>
          have hxa : x ≠ a := by
            rintro rfl
            simp [ha] at hx
          have hxb : x ≠ b := by
            rintro rfl
            simp [hb] at hx
          rw [List.filter_cons_of_neg (by simp [hx])] at h
          rw [List.idxOf_cons_ne _ hxa, List.idxOf_cons_ne _ hxb]
          exact Nat.succ_lt_succ (ih h)
      | true =>
          rw [List.filter_cons_of_pos hx] at h
          by_cases hxb : x = b
          · rw [hxb, List.idxOf_cons_self] at h
            exact absurd h (Nat.not_lt_zero _)
          · rw [List.idxOf_cons_ne _ hxb] at h ⊢
            by_cases hxa : x = a
            · rw [hxa, List.idxOf_cons_self]
              exact Nat.succ_pos _
            · rw [List.idxOf_cons_ne _ hxa] at h ⊢
              exact Nat.succ_lt_succ (ih (Nat.lt_of_succ_lt_succ h))

/-- What is left without repetition stands in the order of its first
occurrences. -/
theorem pairwise_eraseDups (xs : List String) :
    xs.eraseDups.Pairwise fun a b => xs.idxOf a < xs.idxOf b := by
  -- on the length: what is left to clear is the tail without its first element
  induction hlength : xs.length using Nat.strongRecOn generalizing xs with
  | ind n ih =>
      cases xs with
      | nil => exact .nil
      | cons x xs =>
          have hshort : (xs.filter fun y => !y == x).length < n := by
            rw [← hlength, List.length_cons]
            exact Nat.lt_succ_of_le (List.length_filter_le ..)
          have hne {y : String} (hy : y ∈ (xs.filter fun y => !y == x).eraseDups) : y ≠ x := by
            simpa using (List.mem_filter.1 (List.mem_eraseDups.1 hy)).2
          rw [List.eraseDups_cons]
          refine .cons (fun y hy => ?_) ((ih _ hshort _ rfl).imp_of_mem fun {a b} ha hb hab => ?_)
          · rw [List.idxOf_cons_self, List.idxOf_cons_ne _ (hne hy).symm]
            exact Nat.succ_pos _
          · rw [List.idxOf_cons_ne _ (hne ha).symm, List.idxOf_cons_ne _ (hne hb).symm]
            exact Nat.succ_lt_succ
              (idxOf_lt_of_filter (by simpa using hne ha) (by simpa using hne hb) hab)

/-- Code has a graph exactly if nothing in it is to be refused. The graph is then
the only one that lays out the code; no statement of the code is lost in it, and
each block leads to the targets of its statements, in the order in which they
first occur. -/
theorem build_partitions (code : List Stmt) :
    ((∃ g, build code = .ok g) ↔ Buildable code) ∧
      ∀ g, build code = .ok g →
        (∀ g', Splits g' code ↔ g' = g) ∧
        g.labels.length + (g.blocks.flatMap Block.stmts).length +
          g.blocks.foldl (fun n b => n + b.dropped) 0 = code.length ∧
        ∀ b ∈ g.blocks, (∀ l, l ∈ b.succs ↔ ∃ s ∈ b.stmts, l ∈ s.targets) ∧
          b.succs.Pairwise fun l m => (b.stmts.flatMap Stmt.targets).idxOf l <
            (b.stmts.flatMap Stmt.targets).idxOf m := by
  refine ⟨⟨fun h => h.elim fun _ hg => buildable_of_build hg, fun h => ⟨_, h.build_eq⟩⟩, ?_⟩
  intro g hg
  obtain rfl := (describes_of_build hg).eq_split
  refine ⟨fun g' => splits_iff, ?_, fun b _ => ⟨fun l => ?_, ?_⟩⟩
  · rw [labels_split, stmts_split, dropped_split, length_live_dead]
  · rw [Block.succs, List.mem_eraseDups, List.mem_flatMap]
  · exact pairwise_eraseDups _

end Graph

end Resumable
