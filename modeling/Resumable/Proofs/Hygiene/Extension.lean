import Resumable.Proofs.Hygiene.Laid
import Resumable.Proofs.Pass.WellFormed

/-!
# The variables that lowering a function adds

Lowering adds two kinds of variables. Those that it draws are declared by new
functions only, and their names and numbers count on together. Those of labels and
of the generator object are declared by the function itself; besides the function
only its fragments mention them, which declare nothing.
-/

namespace Resumable

theorem Program.declared_eq_code? (p : Program) (fn : FuncId) :
    p.declared fn = ((p.code? fn).map fun c => c.params ++ c.locals).getD [] := by
  rw [declared, code?, Option.map_map]
  rfl

theorem Program.declared_of_code? {p q : Program} {fn : FuncId} (h : q.code? fn = p.code? fn) :
    q.declared fn = p.declared fn := by
  rw [declared_eq_code?, h, ← declared_eq_code?]

theorem Continuation.Bodied.flat {body : List Stmt} (h : Bodied body) :
    ∀ s ∈ body, s.isStructured = false := by
  cases h with
  | ret e => exact List.forall_mem_singleton.2 rfl
  | shared v fn t e => exact List.forall_mem_cons.2 ⟨rfl, List.forall_mem_singleton.2 rfl⟩

/-- Continuations bind no variables. -/
theorem Continuation.Shape.mentioned {w : Workspace} {Var : Variable → Prop} {count : Nat} {c : Code}
    (h : Shape w Var count c) : Mentioned (Mentionable w Var count) c.body := by
  refine mentioned_of_flat ?_ h.refs
  rcases h.body with hempty | hbody
  · rw [hempty]
    simp
  · exact hbody.flat

namespace Pass

open Continuation (Drawn Mentionable)
open Label (Form)
open Program (Frame)

/-- What lowering a function declares and mentions: variables drawn up to some
count in new functions, and `more` in the function itself. -/
structure Extended (id : FuncId) (count : Nat) (more : List Variable) (w w' : Workspace) : Prop where
  frame : Frame w.program id w'.program
  own : w'.program.declared id = w.program.declared id ++ more
  new : ∀ fn, w.program.size < fn → ∀ u ∈ w'.program.declared fn, Drawn w u ∧ u.id < count
  apart : ∀ fn, w.program.size < fn → ((w'.program.declared fn).map Variable.id).Nodup
  mentioned : ∀ fn, fn = id ∨ w.program.size < fn → Mentioned (fun v =>
    Mentionable w (· ∈ bodyRefs (w.program.bodyOf id)) count v ∨
      v ∈ more ∧ (fn = id ∨ w'.program.declared fn = [] ∧ w'.program.parent fn = id))
        (w'.program.bodyOf fn)
  distinct : (more.map Variable.name).Nodup
  made : ∀ u ∈ more, ∃ a : Form, a.isProper = true ∧ (∀ n, a ≠ .fresh n) ∧ u.name = a.text
  ids : more.map Variable.id = List.range' count more.length
  varCount : w'.program.varCount = count + more.length
  count_ge : w.program.varCount ≤ count
  fresh : w'.names.fresh + w.program.varCount = w.names.fresh + count

variable {config : Config} {builtins : Option Generator.Builtins} {id : FuncId} {w w' : Workspace}

/-- Lowering keeps closures with the functions that name them and statements at one
place. -/
theorem owned_of_transform {stats : Stats} (howned : w.program.Owned)
    (hseparate : w.program.Separate) (h : transform config builtins id w = .ok stats w') :
    w'.program.Owned ∧ w'.program.Separate := by
  have hsettles := settles_of_transform howned hseparate (fun hquiet : False => hquiet.elim) h
  exact ⟨hsettles.settled.all, hsettles.separate⟩

theorem extended_of_transform {stats : Stats} (howned : w.program.Owned)
    (hseparate : w.program.Separate) (h : transform config builtins id w = .ok stats w') :
    ∃ count more, Extended id count more w w' := by
  have howned' := (owned_of_transform howned hseparate h).1
  have hframe := frame_of_transform howned.forest (hseparate.apart id) (howned.owned id) h
  obtain ⟨f, w₁, hf, hconverted, hflow⟩ := flow_of_transform h
  have hid : (w.program.func? id).isSome := Option.isSome_of_eq_some hf
  have hle := (Program.isSome_func?.1 hid).2
  have hne {fn : FuncId} (hfn : w.program.size < fn) : fn ≠ id :=
    Nat.ne_of_gt (Nat.lt_of_le_of_lt hle hfn)
  have hexpanded : ∃ body, Expanded (· ∈ bodyRefs (w.program.bodyOf id)) id body w w₁ :=
    expanded_of_converted hid (hseparate.apart id) (fun _ hv => hv) hconverted
  obtain ⟨body, hbody⟩ := hexpanded
  have hid₁ : (w₁.program.func? id).isSome := by
    rw [Program.isSome_func?] at hid ⊢
    exact ⟨hid.1, Nat.le_trans hid.2 hbody.size⟩
  obtain ⟨more, hlaid⟩ := laid_of_flow hflow hid₁
  obtain ⟨final, hown, hmentioned⟩ := hlaid.own
  have hcode : w.program.code? id = some f.code := by rw [Program.code?, hf]; rfl
  rw [hbody.own, hcode] at hown
  rw [hbody.bodyOf_own hid] at hmentioned
  have hfragments := hlaid.fragments
  rw [hbody.bodyOf_own hid] at hfragments
  -- A new function is a continuation or a fragment.
  have hnew {fn : FuncId} {c : Code} (hfn : w.program.size < fn) (hc : w'.program.code? fn = some c) :
      Continuation.Shape w (· ∈ bodyRefs (w.program.bodyOf id)) w₁.program.varCount c ∨
        (c.params ++ c.locals = [] ∧ w'.program.parent fn = id ∧ Mentioned (fun v =>
          Mentionable w (· ∈ bodyRefs (w.program.bodyOf id)) w₁.program.varCount v ∨ v ∈ more)
            c.body) := by
    by_cases hfn₁ : fn ≤ w₁.program.size
    · rw [hlaid.others fn hfn₁ (hne hfn)] at hc
      exact .inl (hbody.new fn c hfn hc)
    · obtain ⟨hparams, hlocals, hmem, hrefs⟩ := hfragments fn c (Nat.lt_of_not_le hfn₁) hc
      refine .inr ⟨by rw [hparams, hlocals]; rfl, ?_, hrefs.imp fun v hv => hv.imp_left (hbody.refs v)⟩
      exact howned'.owned id fn (mem_bodyClosures_iff.2 hmem)
  refine ⟨w₁.program.varCount, more, hframe, ?_, fun fn hfn u hu => ?_, fun fn hfn => ?_,
    fun fn hfn => ?_, hlaid.distinct, hlaid.made, hlaid.ids, hlaid.varCount, hbody.varCount, ?_⟩
  · rw [Program.declared_eq_code?, hown, Program.declared_eq_code?, hcode]
    exact (List.append_assoc ..).symm
  · rw [Program.declared_eq_code?] at hu
    cases hc : w'.program.code? fn with
    | none =>
        rw [hc] at hu
        exact absurd hu List.not_mem_nil
    | some c =>
        rw [hc] at hu
        rcases hnew hfn hc with hshape | ⟨hnone, -⟩
        · exact hshape.drawn u hu
        · rw [Option.map_some, Option.getD_some, hnone] at hu
          exact absurd hu List.not_mem_nil
  · rw [Program.declared_eq_code?]
    cases hc : w'.program.code? fn with
    | none => exact List.nodup_nil
    | some c =>
        rcases hnew hfn hc with hshape | ⟨hnone, -⟩
        · exact hshape.distinct
        · rw [Option.map_some, Option.getD_some, hnone]
          exact List.nodup_nil
  · rcases hfn with rfl | hfn
    · rw [Program.bodyOf_eq_code? w'.program, hown]
      refine hmentioned.imp fun v hv => ?_
      exact hv.imp (hbody.refs v) fun hmore => ⟨hmore, .inl rfl⟩
    · rw [Program.bodyOf_eq_code? w'.program]
      cases hc : w'.program.code? fn with
      | none => exact mentioned_nil
      | some c =>
          rcases hnew hfn hc with hshape | ⟨hnone, hparent, hrefs⟩
          · exact hshape.mentioned.imp fun v hv => .inl hv
          · refine hrefs.imp fun v hv => hv.imp_right fun hmore => ⟨hmore, .inr ⟨?_, hparent⟩⟩
            rw [Program.declared_eq_code?, hc]
            exact hnone
  · rw [hlaid.fresh]
    exact hbody.fresh

end Pass

end Resumable
