import Resumable.Proofs.Pass.Expansion

/-!
# Well-formed programs

Every closure belongs to the function whose body names it, there is no jump code,
only generators yield, and no statement stands at two places. Lowering a function
leads from well-formed programs to well-formed programs, and verification finds no
fault with a function of such a program once it does not yield.
-/

namespace Resumable

namespace Program

/-- Every closure belongs to the function whose body names it and is named once,
there is no jump code, and only generators yield. -/
structure WellFormed (p : Program) : Prop extends Owned p where
  structured : ∀ fn, ∀ s ∈ allStmts (p.bodyOf fn), s.isJumpForm = false
  yields : ∀ fn, p.isGenerator fn = false → JumpCode.Unyielding (allStmts (p.bodyOf fn))

/-- No statement stands at two places, and the numbers in use have been drawn. -/
structure Separate (p : Program) : Prop where
  single : ∀ fn, (bodyNumbers (p.bodyOf fn)).Nodup
  apart : ∀ fn, p.Apart fn
  counted : ∀ fn, ∀ n ∈ bodyNumbers (p.bodyOf fn), n < p.shareCount

variable {p : Program} {id : FuncId}

theorem wellFormed_of_ids (hforest : p.Forest)
    (h : ∀ fn ∈ p.ids, (∀ c ∈ bodyClosures (p.bodyOf fn), p.parent c = fn) ∧
      (bodyLiterals (p.bodyOf fn)).Nodup ∧ ∀ s ∈ allStmts (p.bodyOf fn),
        s.isJumpForm = false ∧ (p.isGenerator fn = false → s.isYield = false)) : p.WellFormed where
  forest := hforest
  owned := forall_bodyOf (P := fun fn body => ∀ c ∈ bodyClosures body, p.parent c = fn)
    (by simp [mem_bodyClosures_iff]) fun fn hfn => (h fn hfn).1
  once := forall_bodyOf (P := fun _ body => (bodyLiterals body).Nodup) (by simp)
    fun fn hfn => (h fn hfn).2.1
  structured := forall_bodyOf (P := fun _ body => ∀ s ∈ allStmts body, s.isJumpForm = false)
    (by simp) fun fn hfn s hs => ((h fn hfn).2.2 s hs).1
  yields := forall_bodyOf (P := fun fn body => p.isGenerator fn = false →
    JumpCode.Unyielding (allStmts body)) (by simp)
    fun fn hfn hplain s hs => ((h fn hfn).2.2 s hs).2 hplain

theorem separate_of_ids (h : ∀ fn ∈ p.ids, (bodyNumbers (p.bodyOf fn)).Nodup ∧ p.Apart fn ∧
    ∀ n ∈ bodyNumbers (p.bodyOf fn), n < p.shareCount) : p.Separate where
  single := forall_bodyOf (P := fun _ body => (bodyNumbers body).Nodup) (by simp)
    fun fn hfn => (h fn hfn).1
  apart := forall_bodyOf (P := fun fn body => ∀ a, a ≠ fn → ∀ n ∈ bodyNumbers (p.bodyOf a),
    n ∉ bodyNumbers body) (by simp) fun fn hfn => (h fn hfn).2.1
  counted := forall_bodyOf (P := fun _ body => ∀ n ∈ bodyNumbers body, n < p.shareCount) (by simp)
    fun fn hfn => (h fn hfn).2.2

/-! ## Verification -/

theorem WellFormed.ownProblems (h : p.WellFormed) {f : Func} (hf : p.func? id = some f) {top : Bool}
    (htop : top = true → JumpCode.Unyielding (allStmts f.body)) :
    Verify.ownProblems p id f top = [] := by
  have hbody : p.bodyOf id = f.body := Pass.bodyOf_eq hf
  unfold Verify.ownProblems
  refine List.append_eq_nil_iff.2 ⟨?_, ?_⟩
  · refine List.filterMap_eq_nil_iff.2 fun s hs => ?_
    have hjump := h.structured id s (hbody ▸ hs)
    unfold Verify.stmtProblem?
    rw [hjump]
    simp only [Bool.false_eq_true, if_false]
    split
    · have hpending : (f.generator && !top) = true := by
        cases hgen : f.generator with
        | false =>
            have hplain := h.yields id ((isGenerator_eq hf).trans hgen) _ (hbody ▸ hs)
            exact absurd hplain (by simp [Stmt.isYield])
        | true =>
            cases htop' : top with
            | false => rfl
            | true => exact absurd (htop htop' _ hs) (by simp [Stmt.isYield])
      rw [if_pos hpending]
    · rfl
  · refine List.filterMap_eq_nil_iff.2 fun c hc => ?_
    rw [if_pos]
    exact h.owned id c (hbody ▸ hc)

theorem WellFormed.problemsAt (h : p.WellFormed) (fuel : Nat) {top : Bool}
    (htop : top = true → JumpCode.Unyielding (allStmts (p.bodyOf id))) :
    Verify.problemsAt p fuel top id = [] := by
  induction fuel generalizing id top with
  | zero => rfl
  | succ fuel ih =>
      unfold Verify.problemsAt
      cases hf : p.func? id with
      | none => rfl
      | some f =>
          rw [Pass.bodyOf_eq hf] at htop
          refine List.append_eq_nil_iff.2 ⟨h.ownProblems hf htop, ?_⟩
          exact List.flatMap_eq_nil_iff.2 fun c _ => ih (by simp)

theorem WellFormed.check (h : p.WellFormed) (hid : (p.func? id).isSome)
    (hbody : JumpCode.Unyielding (allStmts (p.bodyOf id))) : Verify.check p id = .ok () := by
  obtain ⟨f, hf⟩ := Option.isSome_iff_exists.1 hid
  have hproblems : Verify.problems p id = [] := by
    rw [Verify.problems, h.problemsAt _ fun _ => hbody, h.forest.ownershipProblems_eq_nil]
    rfl
  simp [Verify.check, hf, hproblems]

end Program

namespace Pass

open Elimination

/-! ## Numbers of statements -/

theorem numbers_of_fragmentBody {quiet : Prop} {stmts body : List Stmt}
    (h : FragmentBody quiet stmts body) :
    (bodyNumbers body).Sublist (stmts.filterMap Stmt.number?) := by
  rw [bodyNumbers_of_settled h.settled]
  exact h.numbers

def place (size id fn : Nat) : Nat :=
  if fn = id then 0 else fn - size

theorem place_injective {size id fn fn' : Nat} (hfn : fn = id ∨ size < fn)
    (hfn' : fn' = id ∨ size < fn') (h : place size id fn = place size id fn') : fn = fn' := by
  unfold place at h
  split at h <;> split at h <;> omega

section

variable {quiet : Prop} {id : FuncId} {code : List Stmt} {g : Graph} {p p' : Program}

/-- The body that a function has for a block, or none after the last block. -/
theorem Formed.block (h : Formed quiet id code g p p') {fn : FuncId} (hfn : fn = id ∨ p.size < fn) :
    p'.bodyOf fn = [] ∨
      ∃ b, g.blocks[place p.size id fn]? = some b ∧ FragmentBody quiet b.stmts (p'.bodyOf fn) := by
  by_cases hne : fn = id
  · refine .inr ⟨g.entry, ?_, ?_⟩
    · rw [place, if_pos hne]
      rfl
    · rw [hne]
      exact h.own
  · have hlt := hfn.resolve_left hne
    obtain ⟨i, rfl⟩ := Nat.exists_eq_add_of_lt hlt
    have hplace : place p.size id (p.size + i + 1) = i + 1 := by
      rw [place, if_neg hne]
      omega
    rw [hplace]
    cases hb : g.labelled[i]? with
    | none =>
        refine .inl ?_
        have hnone : p'.func? (p.size + i + 1) = none := by
          rw [← Option.not_isSome_iff_eq_none, Program.isSome_func?, h.size]
          have hlen := List.getElem?_eq_none_iff.1 hb
          omega
        rw [Program.bodyOf, hnone]
        rfl
    | some b =>
        have hbody := h.fragments i b hb
        rw [Nat.add_right_comm] at hbody
        exact .inr ⟨b, hb, hbody⟩

/-- The numbers in two blocks are different. -/
theorem disjoint_blocks {bs : List Block}
    (h : ((bs.flatMap Block.stmts).filterMap Stmt.number?).Nodup) {i j : Nat} {b c : Block}
    (hb : bs[i]? = some b) (hc : bs[j]? = some c) (hne : i ≠ j) {n : Nat}
    (hn : n ∈ b.stmts.filterMap Stmt.number?) : n ∉ c.stmts.filterMap Stmt.number? := by
  intro hn'
  rw [List.filterMap_flatMap, List.nodup_flatMap] at h
  have hpair := List.pairwise_iff_getElem.1 h.2
  obtain ⟨hi, rfl⟩ := List.getElem?_eq_some_iff.1 hb
  obtain ⟨hj, rfl⟩ := List.getElem?_eq_some_iff.1 hc
  rcases Nat.lt_or_gt_of_ne hne with hlt | hlt
  · exact hpair i j hi hj hlt hn hn'
  · exact hpair j i hj hi hlt hn' hn

theorem Formed.flat (h : Formed quiet id code g p p') :
    bodyNumbers code = code.filterMap Stmt.number? := by
  have hflat : ∀ s ∈ code, s.isStructured = false := by
    intro s hs
    obtain ⟨s', hs', hsame⟩ := (SameStmts.symm (Stmt.same_share code _)).exists_of_mem hs
    exact (Stmt.isStructured_of_same hsame).trans (h.describes.plain s' hs')
  rw [bodyNumbers, allStmts_of_flat hflat]

theorem Formed.blocks_sublist (h : Formed quiet id code g p p') :
    (g.blocks.flatMap Block.stmts).Sublist (code.mapIdx fun i s => s.share (p.shareCount + i)) := by
  rw [h.describes.eq_split]
  exact Graph.split_sublist _

/-- A number in the function or a new one is from its body or has just been drawn. -/
theorem Formed.numbers (h : Formed quiet id code g p p')
    (hcode : (bodyNumbers code).Perm (bodyNumbers (p.bodyOf id))) {fn : FuncId}
    (hfn : fn = id ∨ p.size < fn) {n : Nat} (hn : n ∈ bodyNumbers (p'.bodyOf fn)) :
    n ∈ bodyNumbers (p.bodyOf id) ∨ p.shareCount ≤ n ∧ n < p'.shareCount := by
  rcases h.block hfn with hempty | ⟨b, hb, hbody⟩
  · rw [hempty] at hn
    cases hn
  · have hmem : n ∈ (g.blocks.flatMap Block.stmts).filterMap Stmt.number? := by
      rw [List.filterMap_flatMap]
      exact List.mem_flatMap.2 ⟨b, List.mem_of_getElem? hb, (numbers_of_fragmentBody hbody).subset hn⟩
    rw [h.shareCount]
    refine (mem_numbers_share ((h.blocks_sublist.filterMap _).subset hmem)).imp_left fun hin => ?_
    rw [← h.flat] at hin
    exact hcode.mem_iff.1 hin

theorem Formed.bodyOf_eq (h : Formed quiet id code g p p') {fn : FuncId}
    (hfn : ¬ (fn = id ∨ p.size < fn)) : p'.bodyOf fn = p.bodyOf fn := by
  rw [not_or, Nat.not_lt] at hfn
  exact Program.bodyOf_of_code? (h.others fn hfn.2 hfn.1)

theorem Formed.separate (h : Formed quiet id code g p p') (hp : p.Separate)
    (hcode : (bodyNumbers code).Perm (bodyNumbers (p.bodyOf id))) : p'.Separate := by
  have hdistinct : ((g.blocks.flatMap Block.stmts).filterMap Stmt.number?).Nodup := by
    have hperm := hcode
    rw [h.flat] at hperm
    refine (nodup_numbers_share code p.shareCount (hperm.nodup_iff.2 (hp.single id))
      fun n hn => ?_).sublist (h.blocks_sublist.filterMap Stmt.number?)
    exact hp.counted id n (hperm.mem_iff.1 hn)
  refine ⟨fun fn => ?_, fun fn a hne n ha hn => ?_, fun fn n hn => ?_⟩
  · by_cases hfn : fn = id ∨ p.size < fn
    · rcases h.block hfn with hempty | ⟨b, hb, hbody⟩
      · rw [hempty]
        exact List.nodup_nil
      · rw [List.filterMap_flatMap, List.nodup_flatMap] at hdistinct
        exact (hdistinct.1 b (List.mem_of_getElem? hb)).sublist (numbers_of_fragmentBody hbody)
    · rw [h.bodyOf_eq hfn]
      exact hp.single fn
  · by_cases hfn : fn = id ∨ p.size < fn <;> by_cases hfa : a = id ∨ p.size < a
    · rcases h.block hfn with hempty | ⟨b, hb, hbody⟩
      · rw [hempty] at hn
        cases hn
      rcases h.block hfa with hempty | ⟨c, hc, hbody'⟩
      · rw [hempty] at ha
        cases ha
      refine disjoint_blocks hdistinct hc hb (fun heq => hne (place_injective hfa hfn heq))
        ((numbers_of_fragmentBody hbody').subset ha) ((numbers_of_fragmentBody hbody).subset hn)
    · rw [h.bodyOf_eq hfa] at ha
      rcases h.numbers hcode hfn hn with hown | hdrawn
      · exact hp.apart id a (fun h => hfa (.inl h)) n ha hown
      · exact Nat.not_le_of_lt (hp.counted a n ha) hdrawn.1
    · rw [h.bodyOf_eq hfn] at hn
      rcases h.numbers hcode hfa ha with hown | hdrawn
      · exact hp.apart id fn (fun h => hfn (.inl h)) n hn hown
      · exact Nat.not_le_of_lt (hp.counted fn n hn) hdrawn.1
    · rw [h.bodyOf_eq hfn] at hn
      rw [h.bodyOf_eq hfa] at ha
      exact hp.apart fn a hne n ha hn
  · have hle : p.shareCount ≤ p'.shareCount := h.shareCount ▸ Nat.le_add_right _ _
    by_cases hfn : fn = id ∨ p.size < fn
    · rcases h.numbers hcode hfn hn with hown | hdrawn
      · exact Nat.lt_of_lt_of_le (hp.counted id n hown) hle
      · exact hdrawn.2
    · rw [h.bodyOf_eq hfn] at hn
      exact Nat.lt_of_lt_of_le (hp.counted fn n hn) hle

end

/-! ## Well-formed programs -/

theorem jumps_of_fragmentBody {quiet : Prop} {stmts body : List Stmt}
    (h : FragmentBody quiet stmts body) :
    ∀ s ∈ allStmts body, s.isJumpForm = false := by
  intro s hs
  obtain ⟨t, ht, hs⟩ := mem_allStmts_iff.1 hs
  exact (h.settled t ht).jumps s hs

theorem unyielding_of_fragmentBody {quiet : Prop} {stmts body : List Stmt}
    (h : FragmentBody quiet stmts body) (hquiet : quiet) : JumpCode.Unyielding (allStmts body) := by
  intro s hs
  obtain ⟨t, ht, hs⟩ := mem_allStmts_iff.1 hs
  exact (h.settled t ht).yields (h.yields hquiet t ht) s hs

theorem unyielding_of_forms {body body' : List Stmt}
    (h : (allStmts body').map Stmt.form = (allStmts body).map Stmt.form)
    (hbody : JumpCode.Unyielding (allStmts body)) : JumpCode.Unyielding (allStmts body') := by
  have hform (s : Stmt) : s.form.isYield = s.isYield := by
    cases s with
    | simple x share => cases x <;> rfl
    | _ => rfl
  intro s hs
  have hmem : s.form ∈ (allStmts body).map Stmt.form := h ▸ List.mem_map_of_mem hs
  obtain ⟨t, ht, heq⟩ := List.mem_map.1 hmem
  rw [← hform, ← heq, hform]
  exact hbody t ht

/-- The bodies of a program whose expressions in one function are converted or
left alone. -/
structure Prepared (id : FuncId) (p p₁ : Program) : Prop where
  size : p.size ≤ p₁.size
  others : ∀ fn, fn ≤ p.size → fn ≠ id → p₁.bodyOf fn = p.bodyOf fn
  own : (allStmts (p₁.bodyOf id)).map Stmt.form = (allStmts (p.bodyOf id)).map Stmt.form
  new : ∀ fn, p.size < fn → FragmentBody True [] (p₁.bodyOf fn)
  shareCount : p₁.shareCount = p.shareCount
  settled : p₁.Settled id (bodyLiterals (p₁.bodyOf id))

section

variable {config : Config} {builtins : Option Generator.Builtins} {id : FuncId} {p p₁ : Program}
  {w w₁ w' : Workspace}

theorem bodyOf_of_size_lt {fn : FuncId} (h : p.size < fn) : p.bodyOf fn = [] := by
  have hnone : p.func? fn = none := by
    rw [← Option.not_isSome_iff_eq_none, Program.isSome_func?]
    exact fun hknown => Nat.not_le_of_lt h hknown.2
  rw [Program.bodyOf, hnone]
  rfl

theorem prepared_of_converted (hw : w.program.Owned) (happart : w.program.Apart id)
    (hid : (w.program.func? id).isSome) (h : Converted config id w w₁) :
    Prepared id w.program w₁.program := by
  have hexpanded : ∃ body, Expanded (fun _ => True) id body w w₁ :=
    expanded_of_converted hid happart (fun _ _ => trivial) h
  obtain ⟨body, hbody⟩ := hexpanded
  refine ⟨hbody.size, fun fn hfn hne => Program.bodyOf_of_code? (hbody.others fn hfn hne),
    hbody.bodyOf_own hid ▸ hbody.forms, fun fn hfn => ?_, hbody.shareCount,
    settled_of_converted hid happart hw h⟩
  rw [Program.bodyOf_eq_code?]
  cases hc : w₁.program.code? fn with
  | none => exact fragmentBody_leaves (by simp)
  | some c =>
      rcases (hbody.new fn c hfn hc).body with hempty | hbodied
      · rw [Option.map_some, Option.getD_some, hempty]
        exact fragmentBody_leaves (by simp)
      · exact hbodied.fragmentBody []

theorem Prepared.separate (h : Prepared id p p₁) (hp : p.Separate) : p₁.Separate := by
  -- A new body has no numbers, and the other bodies have those they had.
  have hnumbers (fn : FuncId) :
      bodyNumbers (p₁.bodyOf fn) = [] ∨ bodyNumbers (p₁.bodyOf fn) = bodyNumbers (p.bodyOf fn) := by
    by_cases hfn : fn ≤ p.size
    · by_cases hne : fn = id
      · subst hne
        exact .inr (bodyNumbers_of_forms h.own)
      · rw [h.others fn hfn hne]
        exact .inr rfl
    · have hsub := numbers_of_fragmentBody (h.new fn (Nat.lt_of_not_le hfn))
      exact .inl (List.sublist_nil.1 hsub)
  have hsubset (fn : FuncId) : bodyNumbers (p₁.bodyOf fn) ⊆ bodyNumbers (p.bodyOf fn) := by
    rcases hnumbers fn with hnil | heq
    · rw [hnil]
      exact List.nil_subset _
    · rw [heq]
      exact List.Subset.refl _
  refine ⟨fun fn => ?_, fun fn a hne n ha hn => ?_, fun fn n hn => ?_⟩
  · rcases hnumbers fn with hnil | heq
    · rw [hnil]
      exact List.nodup_nil
    · rw [heq]
      exact hp.single fn
  · exact hp.apart fn a hne n (hsubset a ha) (hsubset fn hn)
  · rw [h.shareCount]
    exact hp.counted fn n (hsubset fn hn)

/-- What a function that was lowered has for a body, and what the others have. The
new bodies do not yield if `quiet`. -/
structure Settles (quiet : Prop) (id : FuncId) (p p' : Program) : Prop where
  old : ∀ fn, fn ≤ p.size → fn ≠ id → p'.bodyOf fn = p.bodyOf fn
  new : ∀ fn, fn = id ∨ p.size < fn → ∃ stmts, FragmentBody quiet stmts (p'.bodyOf fn)
  separate : p'.Separate
  settled : p'.Settled id (bodyLiterals (p'.bodyOf id))

theorem settles_of_transform {quiet : Prop} {stats : Stats} (hw : w.program.Owned)
    (hseparate : w.program.Separate) (hyields : quiet → w.program.isGenerator id = false →
      JumpCode.Unyielding (allStmts (w.program.bodyOf id)))
    (h : transform config builtins id w = .ok stats w') :
    Settles quiet id w.program w'.program := by
  obtain ⟨f, w₁, hf, hconverted, hflow⟩ := flow_of_transform h
  have hid : (w.program.func? id).isSome := Option.isSome_of_eq_some hf
  have hprepared := prepared_of_converted hw (hseparate.apart id) hid hconverted
  have hyields₁ (hquiet : quiet) (hplain : f.generator = false) :
      JumpCode.Unyielding (allStmts (w₁.program.bodyOf id)) :=
    unyielding_of_forms hprepared.own (hyields hquiet ((Program.isGenerator_eq hf).trans hplain))
  obtain ⟨code, names, g, hcode, hformed⟩ := formed_of_flow hflow hprepared.settled.known hyields₁
  have hle := (Program.isSome_func?.1 hid).2
  refine ⟨fun fn hfn hne => ?_, fun fn hfn => ?_, ?_, settled_of_flow hflow hprepared.settled⟩
  · rw [Program.bodyOf_of_code? (hformed.others fn (Nat.le_trans hfn hprepared.size) hne)]
    exact hprepared.others fn hfn hne
  · by_cases hformedHere : fn = id ∨ w₁.program.size < fn
    · rcases hformed.block hformedHere with hempty | ⟨b, -, hbody⟩
      · rw [hempty]
        exact ⟨[], fragmentBody_leaves (by simp)⟩
      · exact ⟨_, hbody⟩
    · rw [not_or, Nat.not_lt] at hformedHere
      rw [Program.bodyOf_of_code? (hformed.others fn hformedHere.2 hformedHere.1)]
      obtain ⟨hsettled, hquiet, hnumbers⟩ := hprepared.new fn (hfn.resolve_left hformedHere.1)
      exact ⟨[], hsettled, fun _ => hquiet trivial, hnumbers⟩
  · exact hformed.separate (hprepared.separate hseparate) (JumpCode.ofBody_numbers hcode)

theorem Settles.wellFormed (h : Settles True id w.program w'.program) (hw : w.program.WellFormed)
    (hkept : Kept id w.program w'.program) : w'.program.WellFormed := by
  refine ⟨h.settled.all, fun fn => ?_, fun fn hplain => ?_⟩
  · by_cases hfn : fn = id ∨ w.program.size < fn
    · obtain ⟨stmts, hbody⟩ := h.new fn hfn
      exact jumps_of_fragmentBody hbody
    · rw [not_or, Nat.not_lt] at hfn
      rw [h.old fn hfn.2 hfn.1]
      exact hw.structured fn
  · by_cases hfn : fn = id ∨ w.program.size < fn
    · obtain ⟨stmts, hbody⟩ := h.new fn hfn
      exact unyielding_of_fragmentBody hbody trivial
    · rw [not_or, Nat.not_lt] at hfn
      rw [h.old fn hfn.2 hfn.1]
      refine hw.yields fn ?_
      rwa [Program.isGenerator, hkept.others fn hfn.2 hfn.1] at hplain

def Quiet (p : Program) (fn : FuncId) : Prop :=
  (p.func? fn).isSome ∧ JumpCode.Unyielding (allStmts (p.bodyOf fn))

/-- The program stays well formed, the function does not yield any more, and none
begins to. -/
theorem wellFormed_of_transform {stats : Stats} (hw : w.program.WellFormed)
    (hseparate : w.program.Separate) (h : transform config builtins id w = .ok stats w') :
    w'.program.WellFormed ∧ w'.program.Separate ∧ ∀ fn, fn = id ∨ Quiet w.program fn →
      Quiet w'.program fn := by
  have hsettles := settles_of_transform hw.toOwned hseparate (fun (_ : True) => hw.yields id) h
  obtain ⟨hkept, hsize, -⟩ :=
    (after_transform config builtins id w hw.forest (hw.owned id) (hseparate.apart id)).ok h
  obtain ⟨f, _, hf, -⟩ := flow_of_transform h
  have hle : w.program.size ≤ w'.program.size := by omega
  refine ⟨hsettles.wellFormed hw hkept, hsettles.separate, fun fn hfn => ?_⟩
  have hknown : (w.program.func? fn).isSome := by
    rcases hfn with rfl | hquiet
    · exact Option.isSome_of_eq_some hf
    · exact hquiet.1
  rw [Program.isSome_func?] at hknown
  refine ⟨Program.isSome_func?.2 ⟨hknown.1, Nat.le_trans hknown.2 hle⟩, ?_⟩
  by_cases heq : fn = id
  · obtain ⟨stmts, hbody⟩ := hsettles.new fn (.inl heq)
    exact unyielding_of_fragmentBody hbody trivial
  · rw [hsettles.old fn hknown.2 heq]
    exact (hfn.resolve_left heq).2

theorem wellFormed_of_transformEach {ids : List FuncId} {stats : List Stats}
    (hw : w.program.WellFormed) (hseparate : w.program.Separate)
    (h : transformEach config builtins ids w = (stats, none, w')) :
    w'.program.WellFormed ∧ w'.program.Separate ∧ ∀ fn, fn ∈ ids ∨ Quiet w.program fn →
      Quiet w'.program fn := by
  induction ids generalizing w stats with
  | nil =>
      cases h
      exact ⟨hw, hseparate, fun fn hfn => hfn.resolve_left List.not_mem_nil⟩
  | cons id rest ih =>
      unfold transformEach at h
      cases hfirst : transform config builtins id w with
      | error e w₁ =>
          rw [hfirst] at h
          cases h
      | ok first w₁ =>
          rw [hfirst] at h
          obtain ⟨hw₁, hseparate₁, hquiet₁⟩ := wellFormed_of_transform hw hseparate hfirst
          rcases hrest : transformEach config builtins rest w₁ with ⟨others, failure, w₂⟩
          simp only [hrest, Prod.mk.injEq] at h
          obtain ⟨-, rfl, rfl⟩ := h
          obtain ⟨hw₂, hseparate₂, hquiet₂⟩ := ih hw₁ hseparate₁ hrest
          refine ⟨hw₂, hseparate₂, fun fn hfn => hquiet₂ fn ?_⟩
          rw [List.mem_cons, or_right_comm] at hfn
          exact hfn.symm.imp_right fun hfn => hquiet₁ fn hfn

/-- Every function that was lowered verifies, after any number of functions were
lowered and in particular after all selected ones. -/
theorem transformEach_verifies (config : Config) (builtins : Option Generator.Builtins)
    (w : Workspace) (hw : w.program.WellFormed) (hseparate : w.program.Separate) :
    (∀ ids stats w', transformEach config builtins ids w = (stats, none, w') →
      w'.program.WellFormed ∧ ∀ id ∈ ids, Verify.check w'.program id = .ok ()) ∧
    ∀ stats w', transformAll config builtins w = (stats, none, w') →
      w'.program.WellFormed ∧ ∀ id f, w.program.func? id = some f → selected config f →
        Verify.check w'.program id = .ok () := by
  have heach (ids : List FuncId) (stats : List Stats) (w' : Workspace)
      (h : transformEach config builtins ids w = (stats, none, w')) :
      w'.program.WellFormed ∧ ∀ id ∈ ids, Verify.check w'.program id = .ok () := by
    obtain ⟨hw', -, hquiet⟩ := wellFormed_of_transformEach hw hseparate h
    refine ⟨hw', fun id hid => ?_⟩
    obtain ⟨hknown, hbody⟩ := hquiet id (.inl hid)
    exact hw'.check hknown hbody
  refine ⟨heach, fun stats w' h => ?_⟩
  obtain ⟨hw', hchecked⟩ := heach _ stats w' h
  refine ⟨hw', fun id f hf hselected => hchecked id ?_⟩
  rw [List.mem_filter, hf]
  exact ⟨Program.mem_ids.2 (Option.isSome_of_eq_some hf), hselected⟩

theorem transformEach_verifies_rounds : rounds.program.WellFormed ∧ rounds.program.Separate ∧
    ∃ stats w', transformEach {} none [1, 2] rounds = (stats, none, w') ∧
      Verify.check w'.program 1 = .ok () ∧ Verify.check w'.program 2 = .ok () := by
  have hw : rounds.program.WellFormed :=
    Program.wellFormed_of_ids (Program.forest_nested _ _) (by decide +kernel)
  have hseparate : rounds.program.Separate := Program.separate_of_ids (by decide +kernel)
  have hnone : (transformEach {} none [1, 2] rounds).2.1.isNone = true := by decide +kernel
  rcases hrun : transformEach {} none [1, 2] rounds with ⟨stats, failure, w'⟩
  rw [hrun, Option.isNone_iff_eq_none] at hnone
  dsimp only at hnone
  subst hnone
  have hchecked := ((transformEach_verifies {} none rounds hw hseparate).1 [1, 2] stats w' hrun).2
  exact ⟨hw, hseparate, stats, w', rfl, hchecked 1 (by simp), hchecked 2 (by simp)⟩

/-- If a function and its closure hold a statement in common, lowering the function
leaves a closure in both bodies. -/
theorem transform_fails_verification : ∃ w stats w', w.program.WellFormed ∧
    transform {} none 1 w = .ok stats w' ∧ Verify.check w'.program 1 ≠ .ok () := by
  let w : Workspace := { program := .nested [traced (some 0)] [traced (some 0)] }
  obtain ⟨stats, w', hok, hproblems⟩ := Lowering.ok_of_succeeds
    (show Lowering.succeeds (transform {} none 1) w
      (fun w' => (Verify.check w'.program 1).toOption.isNone) = true by decide +kernel)
  refine ⟨w, stats, w', Program.wellFormed_of_ids (Program.forest_nested _ _) (by decide +kernel),
    hok, fun hverified => ?_⟩
  rw [hverified] at hproblems
  cases hproblems

end

end Pass

end Resumable
