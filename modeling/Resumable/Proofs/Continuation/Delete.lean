import Resumable.Proofs.Difference
import Resumable.Proofs.Pass.Expansion

/-!
# Deletions after a conversion

A `delete` statement names the field to be removed by the form of its operand.
Converting expressions treats that operand like any value: what is handed to a
continuation is a call, and a call names no field. So a deletion that was
converted fails before it evaluates anything, whatever it was asked to remove.
-/

namespace Resumable

open Machine

namespace Continuation

variable {owner : FuncId} {w w' : Workspace}

/-- No expression names a field any more when it has been converted. -/
theorem convert_isPlaceless {e e' : Expr} (h : convert owner e none w = .ok e' w') :
    e'.isPlaceless = true := by
  rcases convert_eq_ok h with ⟨hwhole, rfl⟩ | ⟨x, -, c, w₁, hconvert⟩
  · exact hwhole.isPlaceless
  · have hcall := convert_isCall hconvert
    cases e' with
    | call => rfl
    | _ => cases hcall

/-- A field that was named turns into a call. -/
theorem convert_isCall_of_field {e e' : Expr} (he : e.isPlaceless = false)
    (h : convert owner e none w = .ok e' w') : e'.isCall = true := by
  rcases convert_eq_ok h with ⟨hwhole, -⟩ | ⟨x, -, c, w₁, hconvert⟩
  · cases he.symm.trans hwhole.isPlaceless
  · exact convert_isCall hconvert

/-- The slots of a body that has been converted name no fields. -/
theorem isPlaceless_of_convertBody {id : FuncId} (h : convertBody id w = .ok () w') {e : Expr}
    (he : e ∈ allExprs (w'.program.bodyOf id)) : e.isPlaceless = true := by
  obtain ⟨body, w₁, hrun, rfl⟩ := Pass.convertBody_eq_ok h
  have hbody : ∀ e ∈ visitedList body, e.isPlaceless = true := by
    refine replaceSlots_invariant (I := fun done _ _ => ∀ e ∈ done, e.isPlaceless = true)
      (F := fun _ => True) (fillsOnSuccess_convert id) (fun done e rest w hdone => ?_) hrun (by simp)
    refine .intro (fun e' w' he' => ?_) fun _ _ _ => trivial
    refine List.forall_mem_append.2 ⟨hdone, ?_⟩
    simpa using convert_isPlaceless he'
  by_cases hid : ((w₁.program.refresh body).func? id).isSome
  · change e ∈ allExprs ((w₁.program.refill id body).bodyOf id) at he
    rw [Program.refill, Pass.bodyOf_setBody hid] at he
    exact hbody e ((visitedList_perm body).mem_iff.2 he)
  · change e ∈ allExprs ((w₁.program.refill id body).bodyOf id) at he
    have hnone : (w₁.program.refill id body).func? id = none := by
      rw [Program.refill, ← Option.not_isSome_iff_eq_none, Program.isSome_func?_modifyFunc]
      exact hid
    rw [Program.bodyOf, hnone] at he
    cases he

end Continuation

/-- The form of the operand alone makes a deletion fail. -/
theorem Machine.stepDelete_of_isPlaceless (cx : Context) {x : Expr} (hx : x.isPlaceless = true)
    (env : Env) (stack : List Waiting) (depth : Nat) (store : Store) :
    stepDelete cx x env stack depth store =
      .halt (.error (.eval .typeError ("cannot delete " ++ x.nodeName))) store := by
  cases x with
  | property | binary => cases hx
  | _ => rfl

namespace Continuation

variable {id : FuncId} {w w' : Workspace}

/-- Converting the expressions of a function spoils its deletions: an operand
that named a field turns into a call, and each `delete` of the new body fails at
once with a type error, in every state. -/
theorem delete_halts_of_convertBody (h : convertBody id w = .ok () w') :
    (∀ e e' v v', e.isPlaceless = false → convert id e none v = .ok e' v' → e'.isCall = true) ∧
      ∀ x share, .simple (.delete x) share ∈ allStmts (w'.program.bodyOf id) →
        ∀ cx env stack depth store, stepExec cx (.simple (.delete x) share) env stack depth store =
          .halt (.error (.eval .typeError ("cannot delete " ++ x.nodeName))) store := by
  refine ⟨fun e e' v v' he hconvert => convert_isCall_of_field he hconvert, ?_⟩
  intro x share hx cx env stack depth store
  refine stepDelete_of_isPlaceless cx ?_ env stack depth store
  by_cases hmissing : x.isMissing = true
  · cases x with
    | missing => rfl
    | _ => cases hmissing
  · refine isPlaceless_of_convertBody h (List.mem_flatMap.2 ⟨_, hx, List.mem_filter.2 ⟨.head _, ?_⟩⟩)
    simpa using hmissing

def deletesFirst : List Stmt → Bool
  | .simple (.delete _) _ :: _ => true
  | _ => false

/-- A function that removes a field of a new object and says so, and the closure
that makes the object. -/
def erasing : Array Func :=
  #[{ name := "f"
      body := [.delete (.property (.mkCall (.lambda 2 .variant) []) "p" .variant),
        .expr (.mkCall (.ref ⟨1, "t", .variant⟩) [.str "gone"])] },
    { name := "", parent := 1, body := [.ret (.construct none [])] }]

theorem delete_halts_erasing : ∃ w' x share, convertBody 1 (sample erasing) = .ok () w' ∧
    .simple (.delete x) share ∈ allStmts (w'.program.bodyOf 1) ∧
    ∀ cx env stack depth store, stepExec cx (.simple (.delete x) share) env stack depth store =
      .halt (.error (.eval .typeError ("cannot delete " ++ x.nodeName))) store := by
  obtain ⟨_, w', hok, hdelete⟩ := Lowering.ok_of_succeeds
    (show Lowering.succeeds (convertBody 1) (sample erasing) (fun w' =>
      deletesFirst (w'.program.bodyOf 1)) = true by decide +kernel)
  unfold deletesFirst at hdelete
  split at hdelete
  · next x share rest hbody =>
      have hmem : .simple (.delete x) share ∈ allStmts (w'.program.bodyOf 1) := by
        rw [hbody]
        exact mem_allStmts (.head _)
      exact ⟨w', x, share, hok, hmem, (delete_halts_of_convertBody hok).2 x share hmem⟩
  · cases hdelete

/-- The function removes the field before the conversion and fails after it. -/
theorem convertBody_delete_differs :
    ∃ f, Differs erasing (convertBody 1) (step ⟨(sample erasing).program, 5⟩) f fun _ => true :=
  ⟨_, .of_observed 100 5 rfl (by decide +kernel) (by decide +kernel) (by decide +kernel)⟩

end Continuation

end Resumable
