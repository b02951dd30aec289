import Resumable.Proofs.Lockstep.Step

/-!
# What corresponding steps show

A step can make a function value, take a value as the name of a field, or call a
native. Corresponding states do so together and with corresponding values.
-/

namespace Resumable

open Machine

def CallPair (S : Sides) (P : Pairing) (c c' : Nat × List Value) : Prop :=
  P.tag c.1 c'.1 ∧ List.Forall₂ (ValuePair S P) c.2 c'.2

/-- Steps on two states make a value of the same function, name fields by
corresponding values, and call corresponding natives. -/
structure ShowsAlike (S : Sides) (P : Pairing) (s s' : State) : Prop where
  literal : literal? s = literal? s'
  name : OptionPair S P (fieldName? s) (fieldName? s')
  native : Option.Rel (CallPair S P) (native? s) (native? s')

section

variable {S : Sides} {P Q : Pairing} {R : Nat → Prop} {T : Prop} {s s' : State}

theorem ShowsAlike.of_idle (h : Idle s) (h' : Idle s') : ShowsAlike S P s s' where
  literal := h.literal.trans h'.literal.symm
  name := by
    rw [h.name, h'.name]
    exact .none
  native := by
    rw [h.native, h'.native]
    exact .none

theorem ShowsAlike.mono (hle : P ≤ Q) (h : ShowsAlike S P s s') : ShowsAlike S Q s s' where
  literal := h.literal
  name := h.name.mono hle
  native := by
    have hnative := h.native
    generalize native? s = c at hnative ⊢
    generalize native? s' = c' at hnative ⊢
    cases hnative with
    | none => exact .none
    | some hcall => exact .some ⟨hle.tag hcall.1, valuesPair_mono hle hcall.2⟩

/-! ## Tasks -/

section

variable {task task' : Task} {vs vs' : List Value}

theorem TaskPair.fieldName? (ht : TaskPair S P R T task task')
    (hvs : List.Forall₂ (ValuePair S P) vs vs') :
    OptionPair S P (task.fieldName? vs) (task'.fieldName? vs') := by
  have hobject {n n' x x' : Value} (hn : ValuePair S P n n') (hx : ValuePair S P x x') :
      OptionPair S P (Task.deleteIndex.fieldName? [n, x]) (Task.deleteIndex.fieldName? [n', x']) := by
    cases hx <;> first | exact .none | exact .some hn
  have hfirst := ValuePair.headD hvs
  have hsecond := ValuePair.getD hvs 1
  cases ht with
  | binary op =>
      cases op
      case index => exact hobject hsecond hfirst
      case member => exact hobject hfirst hsecond
      all_goals exact .none
  | storeIndex => exact hobject hsecond hfirst
  | deleteIndex => exact hobject hfirst hsecond
  | _ => exact .none

theorem TaskPair.native? (ht : TaskPair S P R T task task')
    (hvs : List.Forall₂ (ValuePair S P) vs vs') :
    Option.Rel (CallPair S P) (task.native? vs) (task'.native? vs') := by
  cases ht with
  | call =>
      cases hvs with
      | nil => exact .none
      | cons hfirst hrest =>
          cases hfirst with
          | native name kind _ htag => exact .some ⟨htag, hrest⟩
          | _ => exact .none
  | _ => exact .none

end

/-! ## States -/

variable {focus focus' : Focus} {stack stack' : List Waiting} {depth depth' : Nat} {σ σ' : Store}

/-- Work for the same piece on top of the stack. -/
theorem ShowsAlike.of_top {w w' : Waiting} (hf : FocusPair S P focus focus')
    (hfocus : Focus.starts focus = false) (hw : WaitingPair S P w w') :
    ShowsAlike S P ⟨focus, w :: stack, depth, σ⟩ ⟨focus', w' :: stack', depth', σ'⟩ := by
  cases hf with
  | eval | exec => cases hfocus
  | complete | thrown => exact .of_idle ⟨rfl, rfl, rfl⟩ ⟨rfl, rfl, rfl⟩
  | value hv =>
      cases hw with
      | operands hview htask hdone hrest =>
          cases hrest with
          | nil =>
              have hvs := List.rel_append hdone (.cons hv .nil)
              exact ⟨rfl, htask.fieldName? hvs, htask.native? hvs⟩
          | cons => exact .of_idle ⟨rfl, rfl, rfl⟩ ⟨rfl, rfl, rfl⟩
      | _ => exact .of_idle ⟨rfl, rfl, rfl⟩ ⟨rfl, rfl, rfl⟩

/-- An expression or a statement that both sides share. -/
theorem ShowsAlike.of_starts (hf : FocusPair S P focus focus') (hfocus : Focus.starts focus = true)
    (hshared : ∀ e e' env env', focus = .eval e env → focus' = .eval e' env' → e = e') :
    ShowsAlike S P ⟨focus, stack, depth, σ⟩ ⟨focus', stack', depth', σ'⟩ := by
  cases hf with
  | eval _ he =>
      refine ⟨?_, .none, .none⟩
      rw [hshared _ _ _ _ rfl rfl]
      rfl
  | exec => exact .of_idle ⟨rfl, rfl, rfl⟩ ⟨rfl, rfl, rfl⟩
  | _ => cases hfocus

end

end Resumable
