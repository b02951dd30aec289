import Resumable.Proofs.Continuation.Assembly
import Resumable.Proofs.Difference

/-!
# Types of converted expressions

A converted expression has the type of the expression, or that of what its
continuation returns. Every station declares the type of what it returns, and
its parameter has the type of the operand whose value it receives. An absent type
counts as `void`.
-/

namespace Resumable.Continuation

theorem type_deliver (k : Option Expr) (e : Expr) : (deliver k e).type = resultOf k e.type := by
  cases k <;> rfl

def Job.type : Job → Ty
  | .expr e k => resultOf k e.type
  | .row _ _ inner => inner.type

section

variable {job : Job} {e' : Expr} {made : List Station}

/-- What goes to a station comes back as what the station returns. -/
theorem resultOf_literal (s : Station) (t : Ty) :
    resultOf (some s.literal) t = s.returned.type.orVoid := by
  simp [resultOf, Station.literal, Expr.type]

theorem Assembles.type (h : Assembles job e' made) : e'.type.orVoid = job.type.orVoid := by
  induction h with
  | whole k _ => exact congrArg Ty.orVoid (type_deliver ..)
  | @operates e f _ _ _ _ _ k _ _ htype _ ih =>
      calc _ = (deliver k f).type.orVoid := ih
        _ = (resultOf k e.type).orVoid := by rw [type_deliver, htype]
  | @chooses e x _ _ _ _ _ _ k _ s _ _ _ _ _ _ _ _ _ hreturned _ _ _ ih =>
      calc _ = (resultOf (some s.literal) x.type).orVoid := ih
        _ = s.returned.type.orVoid := by rw [resultOf_literal, Ty.orVoid_orVoid]
        _ = (resultOf k e.type).orVoid := by rw [hreturned, Expr.type, Ty.orVoid_orVoid]
  | done inner => rfl
  | @next e _ inner _ _ s _ _ _ _ _ _ _ _ ihrow ih =>
      calc _ = (resultOf (some s.literal) e.type).orVoid := ih
        _ = s.returned.type.orVoid := by rw [resultOf_literal, Ty.orVoid_orVoid]
        _ = inner.type.orVoid := ihrow

/-- A station is made for its operand: the parameter has its type, and it is
assembled so that its value goes there, with stations of the same job. -/
def Station.ServesIn (s : Station) (made : List Station) : Prop :=
  s.param.type = s.operand.type ∧
    ∃ x others, Assembles (.expr s.operand (some s.literal)) x others ∧ others ⊆ made

theorem Station.ServesIn.mono {s : Station} {made' : List Station} (h : s.ServesIn made)
    (hmade : made ⊆ made') : s.ServesIn made' := by
  obtain ⟨htype, x, others, hassembles, hothers⟩ := h
  exact ⟨htype, x, others, hassembles, List.Subset.trans hothers hmade⟩

theorem Assembles.servesIn (h : Assembles job e' made) : ∀ s ∈ made, s.ServesIn made := by
  induction h with
  | whole k _ => simp
  | operates k _ _ _ _ ih => exact ih
  | done inner => simp
  | @chooses _ _ _ _ _ _ _ _ _ _ s made made' made'' _ _ hoperand htype _ _ _ hx ihyes ihno ihx =>
      subst hoperand
      have hways : made ++ made' ⊆ s :: (made ++ made') ++ made'' :=
        List.Subset.trans (List.subset_cons_self ..) (List.subset_append_left ..)
      intro s' hs'
      rcases List.mem_append.1 hs' with hs' | hs'
      · rcases List.mem_cons.1 hs' with rfl | hs'
        · exact ⟨htype, _, _, hx, List.subset_append_right ..⟩
        · rcases List.mem_append.1 hs' with hs' | hs'
          · exact (ihyes s' hs').mono (List.Subset.trans (List.subset_append_left ..) hways)
          · exact (ihno s' hs').mono (List.Subset.trans (List.subset_append_right ..) hways)
      · exact (ihx s' hs').mono (List.subset_append_right ..)
  | @next _ _ _ _ _ s made made' _ _ _ hoperand htype hx ihrow ihx =>
      subst hoperand
      intro s' hs'
      rcases List.mem_append.1 hs' with hs' | hs'
      · rcases List.mem_append.1 hs' with hs' | hs'
        · exact (ihrow s' hs').mono
            (List.Subset.trans (List.subset_append_left ..) (List.subset_append_left ..))
        · rw [List.mem_singleton.1 hs']
          exact ⟨htype, _, _, hx, List.subset_append_right ..⟩
      · exact (ihx s' hs').mono (List.subset_append_right ..)

end

/-- A conversion keeps types. Its result is typed like the expression or, where
there is a continuation, like what that returns. The functions it adds are the
stations of its job: each declares the type of the expression it returns, and has
a parameter of the type of its operand, which is assembled so that its value goes
there. -/
theorem convert_keeps_types {owner : FuncId} {e e' : Expr} {k : Option Expr} {w w' : Workspace}
    (h : convert owner e k w = .ok e' w') :
    e'.type.orVoid = (resultOf k e.type).orVoid ∧
    ∃ made, Assembles (.expr e k) e' made ∧
      ∀ fn, w.program.size < fn → fn ≤ w'.program.size → ∃ f, w'.program.func? fn = some f ∧
        ∃ s ∈ made, s.id = fn ∧ f.params = [s.param] ∧
          f.body = s.prologue ++ [.ret s.returned] ∧ f.result = s.returned.type.orVoid ∧
          s.ServesIn made := by
  obtain ⟨made, hassembles, hadds⟩ := assembled owner e h
  refine ⟨hassembles.type, made, hassembles, fun fn hlt hle => ?_⟩
  have hid : fn ∈ made.map Station.id := by
    rw [hadds.ids.mem_iff, List.mem_range'_1, Nat.add_right_comm, ← hadds.size]
    exact ⟨hlt, Nat.lt_succ_of_le hle⟩
  obtain ⟨s, hs, rfl⟩ := List.mem_map.1 hid
  obtain ⟨f, hf, hcontent⟩ := Option.map_eq_some_iff.1 (hadds.new s hs)
  refine ⟨f, hf, s, hs, rfl, ?_, ?_, ?_, hassembles.servesIn s hs⟩
  · exact congrArg (·.params) hcontent
  · exact congrArg (·.body) hcontent
  · exact congrArg (·.result) hcontent

/-- A negated choice between a number and a text, neither of which has the type
of the choice. -/
def mixedChoice : Expr :=
  .unary .neg (.conditional (.ref ⟨0, "x", .boolean⟩) (.int 1) (.str "s") .variant) .number

theorem convert_keeps_types_mixed : ∃ e' w',
    convert 1 mixedChoice none (sample #[{ name := "f" }]) = .ok e' w' ∧
    w'.program.size = 3 ∧ e'.type.orVoid = .number ∧
    ∃ made, Assembles (.expr mixedChoice none) e' made ∧
      ∀ fn, 1 < fn → fn ≤ 3 → ∃ f, w'.program.func? fn = some f ∧
        ∃ s ∈ made, s.id = fn ∧ f.params = [s.param] ∧
          f.body = s.prologue ++ [.ret s.returned] ∧ f.result = s.returned.type.orVoid ∧
          s.ServesIn made := by
  obtain ⟨e', w', hrun, hsize⟩ := Lowering.ok_of_succeeds
    (show Lowering.succeeds (convert 1 mixedChoice none) (sample #[{ name := "f" }])
      (fun w' => w'.program.size == 3) = true by decide +kernel)
  have hsize : w'.program.size = 3 := by simpa using hsize
  obtain ⟨htype, made, hassembles, hmade⟩ := convert_keeps_types hrun
  rw [hsize] at hmade
  exact ⟨e', w', hrun, hsize, htype, made, hassembles, hmade⟩

end Resumable.Continuation
