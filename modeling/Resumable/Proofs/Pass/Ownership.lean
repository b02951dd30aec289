import Resumable.Proofs.Pass.Frame

/-!
# Who owns the closures in a body

While a function is lowered, its closures are in hand: they belong to it until a
new function takes them over. The literals of every other body name closures of
the function with that body, each once, and nobody takes those over.
-/

namespace Resumable

namespace Program

variable {p q : Program} {id fn : FuncId} {hand : List FuncId}

theorem bodyOf_of_code? (h : q.code? fn = p.code? fn) : q.bodyOf fn = p.bodyOf fn := by
  rw [bodyOf_eq_code?, h, ← bodyOf_eq_code?]

/-- Every closure belongs to the function whose body names it and is named once. -/
structure Owned (p : Program) : Prop where
  forest : p.Forest
  owned : ∀ fn, ∀ c ∈ bodyClosures (p.bodyOf fn), p.parent c = fn
  once : ∀ fn, (bodyLiterals (p.bodyOf fn)).Nodup

/-- The literals of all bodies but one name closures of the function with the
body, each once; those in hand name closures of the one function. -/
structure Settled (p : Program) (id : FuncId) (hand : List FuncId) : Prop where
  forest : p.Forest
  known : (p.func? id).isSome
  nodup : hand.Nodup
  held : ∀ c ∈ hand, p.parent c = id
  owned : ∀ fn, fn ≠ id → ∀ c ∈ bodyLiterals (p.bodyOf fn), p.parent c = fn
  once : ∀ fn, fn ≠ id → (bodyLiterals (p.bodyOf fn)).Nodup

theorem Owned.settled (h : p.Owned) (hid : (p.func? id).isSome) :
    p.Settled id (bodyLiterals (p.bodyOf id)) where
  forest := h.forest
  known := hid
  nodup := h.once id
  held c hc := h.owned id c (mem_bodyClosures_iff.2 hc)
  owned fn _ c hc := h.owned fn c (mem_bodyClosures_iff.2 hc)
  once fn _ := h.once fn

namespace Settled

/-- The closures of the body itself are in hand. -/
theorem all (h : p.Settled id (bodyLiterals (p.bodyOf id))) : p.Owned where
  forest := h.forest
  owned fn c hc := by
    rw [mem_bodyClosures_iff] at hc
    by_cases hfn : fn = id
    · subst hfn
      exact h.held c hc
    · exact h.owned fn hfn c hc
  once fn := by
    by_cases hfn : fn = id
    · subst hfn
      exact h.nodup
    · exact h.once fn hfn

theorem fewer (h : p.Settled id hand) {hand' : List FuncId}
    (hcount : ∀ c, hand'.count c ≤ hand.count c) : p.Settled id hand' := by
  refine { h with nodup := ?_, held := fun c hc => h.held c ?_ }
  · refine List.nodup_iff_count_le_one.2 fun c => Nat.le_trans (hcount c) ?_
    exact List.nodup_iff_count_le_one.1 h.nodup c
  · exact List.count_pos_iff.1 (Nat.lt_of_lt_of_le (List.count_pos_iff.2 hc) (hcount c))

/-- Only parents and the literals of other bodies matter. -/
theorem congr (h : p.Settled id hand) (hknown : ∀ fn, (q.func? fn).isSome = (p.func? fn).isSome)
    (hparent : ∀ fn, q.parent fn = p.parent fn) (howns : ∀ a fn, q.owns a fn = p.owns a fn)
    (hbody : ∀ fn, fn ≠ id → q.bodyOf fn = p.bodyOf fn) : q.Settled id hand where
  forest := h.forest.congr hknown hparent howns
  known := (hknown id).trans h.known
  nodup := h.nodup
  held c hc := (hparent c).trans (h.held c hc)
  owned fn hfn c hc := by
    rw [hbody fn hfn] at hc
    exact (hparent c).trans (h.owned fn hfn c hc)
  once fn hfn := by
    rw [hbody fn hfn]
    exact h.once fn hfn

theorem of_funcs (h : p.Settled id hand) (hfuncs : q.funcs = p.funcs) : q.Settled id hand := by
  have hfunc (fn : FuncId) : q.func? fn = p.func? fn := by rw [func?, func?, hfuncs]
  refine h.congr (fun fn => ?_) (fun fn => ?_) (fun a fn => ?_) fun fn _ => ?_
  · rw [hfunc]
  · rw [parent, parent, hfunc]
  · rw [owns, owns, hfunc]
  · rw [bodyOf, bodyOf, hfunc]

/-- A change of the function itself. -/
theorem modifyOwn (h : p.Settled id hand) {change : Func → Func}
    (hparent : ∀ f, (change f).parent = f.parent) (hclosures : ∀ f, (change f).closures = f.closures) :
    (p.modifyFunc id change).Settled id hand := by
  refine h.congr (fun fn => isSome_func?_modifyFunc ..) (parent_modifyFunc hparent p id)
    (owns_modifyFunc hclosures p id) fun fn hfn => ?_
  rw [bodyOf, func?_modifyFunc, if_neg hfn, ← bodyOf]

/-- A change that bodies do not show. -/
theorem modifyFunc (h : p.Settled id hand) {change : Func → Func}
    (hparent : ∀ f, (change f).parent = f.parent) (hclosures : ∀ f, (change f).closures = f.closures)
    (hbody : ∀ f, (change f).body = f.body) (fn : FuncId) :
    (p.modifyFunc fn change).Settled id hand := by
  refine h.congr (fun fn => isSome_func?_modifyFunc ..) (parent_modifyFunc hparent p fn)
    (owns_modifyFunc hclosures p fn) fun a _ => ?_
  rw [bodyOf, func?_modifyFunc, bodyOf]
  split
  · cases p.func? a with
    | none => rfl
    | some f => exact hbody f
  · rfl

/-- A new function without a body comes to hand. -/
theorem newFunc (h : p.Settled id hand) (name : String) (params : List Variable) (result : Ty) :
    (p.newFunc id name params result).2.Settled id ([p.size + 1] ++ hand) := by
  have hroot : id ≠ noFunc := by
    rintro rfl
    exact absurd h.known (by simp [func?_noFunc])
  have hparent (c : FuncId) (hc : p.parent c ≠ noFunc) :
      (p.newFunc id name params result).2.parent c = p.parent c := by
    rw [parent_newFunc, if_neg]
    intro hlast
    have hsome := isSome_of_parent hc
    rw [hlast, isSome_func?] at hsome
    omega
  have hbody (fn : FuncId) (c : FuncId)
      (hc : c ∈ bodyLiterals ((p.newFunc id name params result).2.bodyOf fn)) :
      c ∈ bodyLiterals (p.bodyOf fn) := by
    rw [bodyOf_eq_code?, code?_newFunc] at hc
    split at hc
    · exact absurd hc List.not_mem_nil
    · rwa [← bodyOf_eq_code?] at hc
  refine ⟨h.forest.newFunc (.inr h.known) name params result, ?_, ?_, ?_, ?_, ?_⟩
  · have hknown := isSome_func?.1 h.known
    rw [isSome_func?, newFunc_size]
    exact ⟨hknown.1, Nat.le_succ_of_le hknown.2⟩
  · refine List.nodup_cons.2 ⟨fun hmem => ?_, h.nodup⟩
    have hsome : (p.func? (p.size + 1)).isSome :=
      isSome_of_parent (by rw [h.held _ hmem]; exact hroot)
    rw [isSome_func?] at hsome
    omega
  · intro c hc
    rcases List.mem_append.1 hc with hc | hc
    · rw [List.mem_singleton.1 hc, parent_newFunc, if_pos rfl]
    · rw [hparent c (by rw [h.held c hc]; exact hroot)]
      exact h.held c hc
  · intro fn hfn c hc
    have howned := h.owned fn hfn c (hbody fn c hc)
    rw [hparent c ?_, howned]
    rw [howned]
    rintro rfl
    exact absurd (hbody noFunc c hc) List.not_mem_nil
  · intro fn hfn
    rw [bodyOf_eq_code?, code?_newFunc]
    split
    · exact List.nodup_nil
    · rw [← bodyOf_eq_code?]
      exact h.once fn hfn

end Settled

end Program

/-! ## Taking over closures -/

namespace Lowering

variable {phase : Phase} {detail : String} {fn : FuncId} {w w' : Workspace}

theorem parent_of_forM {children : List FuncId} (hw : w.program.Forest)
    (h : (children.forM fun c => reparent phase detail c fn) w = .ok () w') :
    w'.program.Forest ∧
      ∀ c, w'.program.parent c = if c ∈ children then fn else w.program.parent c := by
  induction children generalizing w with
  | nil =>
      cases h
      exact ⟨hw, fun c => by simp⟩
  | cons child rest ih =>
      obtain ⟨_, w₁, hfirst, hrest⟩ := bind_eq_ok.1 h
      simp only [reparent] at hfirst
      split at hfirst
      · next hq =>
          cases hfirst
          obtain ⟨hforest, hparent⟩ := ih (hw.reparent hq) hrest
          obtain ⟨hchild, -, -, rfl⟩ := Program.reparent_eq_ok hq
          refine ⟨hforest, fun c => ?_⟩
          rw [hparent]
          change (if c ∈ rest then fn else (w.program.moveTo child fn).parent c) = _
          rw [Program.parent_moveTo hchild]
          by_cases hc : c = child <;> simp [hc]
      · cases hfirst

/-- The closures in a body that a function takes over belong to it, and nothing
else moves. -/
theorem parent_of_adoptBody {body : List Stmt} {n : Nat} (hw : w.program.Forest)
    (h : adoptBody phase detail fn body w = .ok n w') :
    w'.program.Forest ∧
      ∀ c, w'.program.parent c = if c ∈ bodyLiterals body then fn else w.program.parent c := by
  simp only [adoptBody, bind_eq_ok, pure_eq_ok] at h
  obtain ⟨_, w₁, ⟨⟩, _, w₂, hmove, -, rfl⟩ := h
  obtain ⟨hforest, hparent⟩ := parent_of_forM (hw.setBody fn body) hmove
  refine ⟨hforest, fun c => ?_⟩
  rw [hparent]
  change (if c ∈ bodyClosures body then fn
    else (w.program.modifyFunc fn fun f => { f with body }).parent c) = _
  rw [Program.parent_modifyFunc (by intro f; rfl)]
  simp only [mem_bodyClosures_iff]

theorem bodyOf_of_adoptBody {body : List Stmt} {n : Nat} (hfn : (w.program.func? fn).isSome)
    (h : adoptBody phase detail fn body w = .ok n w') (a : FuncId) :
    w'.program.bodyOf a = if a = fn then body else w.program.bodyOf a := by
  obtain ⟨f, hf⟩ := Option.isSome_iff_exists.1 hfn
  rw [Program.bodyOf_eq_code?, (keeps_of_adoptBody h).program.code, Program.code?_setBody]
  split
  · next heq =>
      rw [heq, Program.code?, hf]
      rfl
  · rw [← Program.bodyOf_eq_code?]

/-- A function in hand takes over the literals of its new body. -/
theorem settled_of_adoptBody {id : FuncId} {body : List Stmt} {ls : List FuncId} {n : Nat}
    (hfn : fn ≠ id) (hw : w.program.Settled id ([fn] ++ (bodyLiterals body ++ ls)))
    (h : adoptBody phase detail fn body w = .ok n w') : w'.program.Settled id ([fn] ++ ls) := by
  obtain ⟨hforest, hparent⟩ := parent_of_adoptBody hw.forest h
  have hroot : id ≠ noFunc := by
    rintro rfl
    exact absurd hw.known (by simp [Program.func?_noFunc])
  have hknown : (w.program.func? fn).isSome := by
    refine Program.isSome_of_parent ?_
    rw [hw.held fn (List.mem_append_left _ (List.mem_singleton.2 rfl))]
    exact hroot
  have hbody := bodyOf_of_adoptBody hknown h
  have hnodup : (fn :: (bodyLiterals body ++ ls)).Nodup := hw.nodup
  obtain ⟨hfirst, hrest⟩ := List.nodup_cons.1 hnodup
  obtain ⟨hlits, hls, hdisjoint⟩ := List.nodup_append.1 hrest
  have hsize : w'.program.size = w.program.size :=
    (keeps_of_adoptBody h).program.size.trans (Program.modifyFunc_size ..)
  refine ⟨hforest, ?_, ?_, ?_, ?_, ?_⟩
  · rw [Program.isSome_func?, hsize, ← Program.isSome_func?]
    exact hw.known
  · exact List.nodup_cons.2 ⟨fun hmem => hfirst (List.mem_append_right _ hmem), hls⟩
  · intro c hc
    have hout : c ∉ bodyLiterals body := by
      intro hin
      rcases List.mem_append.1 hc with hc | hc
      · rw [List.mem_singleton.1 hc] at hin
        exact hfirst (List.mem_append_left _ hin)
      · exact hdisjoint c hin c hc rfl
    rw [hparent, if_neg hout]
    refine hw.held c ?_
    rcases List.mem_append.1 hc with hc | hc
    · exact List.mem_append_left _ hc
    · exact List.mem_append_right _ (List.mem_append_right _ hc)
  · intro a ha c hc
    rw [hbody] at hc
    rw [hparent]
    split at hc
    · next heq => rw [if_pos hc, heq]
    · have howned := hw.owned a ha c hc
      rw [if_neg, howned]
      intro hin
      have hheld := hw.held c (List.mem_append_right _ (List.mem_append_left _ hin))
      exact ha (howned.symm.trans hheld)
  · intro a ha
    rw [hbody]
    split
    · exact hlits
    · exact hw.once a ha

end Lowering

namespace Pass

theorem settled_convert (id : FuncId) :
    Continuation.Upkeep id (fun ls _ _ w => w.program.Settled id ls) (fun _ => True) (· ≠ id) where
  failed _ := trivial
  fewer hcount h := h.fewer hcount
  narrow _ _ h := h
  fresh _ h := h.of_funcs rfl
  begun {ls _ _ w param} result _ h := by
    have hknown := (Program.isSome_func?.1 h.known).2
    exact ⟨Nat.ne_of_gt (Nat.lt_succ_of_le hknown), h.newFunc "" [param] result⟩
  declared {ls _ _ w fn} type _ h := by
    refine After.of_ok (Lowering.freshLocal_eq fn type w) ?_
    have hcounted : ({ w.program with varCount := w.program.varCount + 1 } : Program).Settled id ls :=
      h.of_funcs rfl
    exact hcounted.modifyFunc (by intro f; rfl) (by intro f; rfl) (by intro f; rfl) fn
  finished {ls _ _ w fn body} hfn _ _ h := by
    have hadopt : After (Lowering.adoptBody .cps "adopting continuation closure" fn body) w
        (fun _ w' => w'.program.Settled id ([fn] ++ ls)) fun _ => True :=
      .intro (fun _ _ hrun => Lowering.settled_of_adoptBody hfn h hrun) fun _ _ _ => trivial
    exact hadopt.bind fun _ _ h => After.pure h

theorem settled_eliminate (id : FuncId) :
    Elimination.Upkeep id (fun ls w => w.program.Settled id ls)
      (fun w => w.program.Settled id (bodyLiterals (w.program.bodyOf id))) (fun _ => True)
      (· ≠ id) where
  failed _ := trivial
  fewer hcount h := h.fewer hcount
  shared {ls w} h := by
    change (w.program.shareBody id).Settled id ls
    unfold Program.shareBody
    split
    · exact h
    · exact (h.modifyOwn (by intro f; rfl) (by intro f; rfl)).of_funcs rfl
  declared {ls w} l type h := by
    have hcounted : (w.program.newVariable l type).2.Settled id ls := h.of_funcs rfl
    exact hcounted.modifyOwn (by intro f; rfl) (by intro f; rfl)
  begun {ls w} result h := by
    have hknown := (Program.isSome_func?.1 h.known).2
    exact ⟨Nat.ne_of_gt (Nat.lt_succ_of_le hknown), h.newFunc "" [] result⟩
  adopted detail hfn h :=
    .intro (fun _ _ hrun => Lowering.settled_of_adoptBody hfn h hrun) fun _ _ _ => trivial
  closed {w body} h := by
    change (Program.modifyFunc ..).Settled id (bodyLiterals ((Program.modifyFunc ..).bodyOf id))
    rw [bodyOf_setBody h.known]
    exact h.modifyOwn (by intro f; rfl) (by intro f; rfl)

/-- Jump code in place of the body. -/
theorem settled_formed {id : FuncId} {w : Workspace} {code : List Stmt} {names names' : Names}
    (hcode : JumpCode.ofBody (w.program.bodyOf id) names' = .ok code names)
    (hw : w.program.Settled id (bodyLiterals (w.program.bodyOf id))) :
    (formed w id code names).program.Settled id
      (bodyLiterals ((formed w id code names).program.bodyOf id)) := by
  rw [formed, bodyOf_setBody hw.known]
  refine (hw.fewer fun c => ?_).modifyOwn (by intro f; rfl) (by intro f; rfl)
  exact Nat.le_of_eq ((JumpCode.ofBody_literals hcode).count_eq c)

theorem settled_of_eliminate {η : Type} {hook : Elimination.Hook η} (hhook : hook.Faithful)
    {id : FuncId} {result : Ty} {r : Elimination.Result} {w w' : Workspace} {n n' : η}
    (hw : w.program.Settled id (bodyLiterals (w.program.bodyOf id)))
    (h : Elimination.eliminate hook id result (w, n) = .ok r (w', n')) :
    w'.program.Settled id (bodyLiterals (w'.program.bodyOf id)) :=
  ((settled_eliminate id).eliminate hhook hw).ok h

/-- The closures in all bodies have their owners again once the control flow is
lowered. -/
theorem settled_of_flow {builtins : Option Generator.Builtins} {id : FuncId} {generator : Bool}
    {w w' : Workspace} (h : Flow builtins id generator w w')
    (hw : w.program.Settled id (bodyLiterals (w.program.bodyOf id))) :
    w'.program.Settled id (bodyLiterals (w'.program.bodyOf id)) := by
  cases h with
  | plain hcode hrun =>
      exact settled_of_eliminate Elimination.faithful_noHook (settled_formed hcode hw) hrun
  | @generator b registry types cls object start depth code names r n entry _ w₁ _ _ _ hcode hrun _ _
      _ =>
      have hobjected : (objected w id registry types object).program.Settled id
          (bodyLiterals ((objected w id registry types object).program.bodyOf id)) := by
        rw [bodyOf_objected]
        have htyped :
            ({ w.program with types, varCount := w.program.varCount + 1 } : Program).Settled id
            (bodyLiterals (w.program.bodyOf id)) := hw.of_funcs rfl
        exact htyped.modifyOwn (by intro f; rfl) (by intro f; rfl)
      rw [← bodyOf_objected w id registry types object id] at hcode
      have hremoved := settled_of_eliminate (Generator.faithful_hook object b.stop)
        (settled_formed hcode hobjected) hrun
      change (w₁.program.modifyFunc ..).Settled id (bodyLiterals ((w₁.program.modifyFunc ..).bodyOf id))
      rw [bodyOf_setBody hremoved.known]
      refine (hremoved.fewer fun c => ?_).modifyOwn (by intro f; rfl) (by intro f; rfl)
      exact (bodyLiterals_wrapped ..).count_le c

end Pass

end Resumable
