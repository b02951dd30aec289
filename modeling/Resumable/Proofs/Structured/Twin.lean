import Resumable.Proofs.Locality
import Resumable.Proofs.Lowering.Effect

/-!
# Programs that differ in one body

Two programs that differ in the body of one function at most take the same
steps as long as the function is not called.
-/

namespace Resumable

/-- The programs differ in the body of the function at most. -/
structure Twins (id : FuncId) (p q : Program) : Prop where
  types : q.types = p.types
  others : ∀ fn, fn ≠ id → q.code? fn = p.code? fn
  own : (q.code? id).map (fun c => { c with body := [] }) =
    (p.code? id).map fun c => { c with body := [] }

namespace Twins

variable {id : FuncId} {p q : Program}

theorem name_eq (h : Twins id p q) (fn : FuncId) :
    (q.func? fn).map Func.name = (p.func? fn).map Func.name := by
  by_cases hfn : fn = id
  · subst hfn
    have hown := congrArg (Option.map Code.name) h.own
    simpa [Program.code?, Function.comp_def, Func.code] using hown
  · have hother := congrArg (Option.map Code.name) (h.others fn hfn)
    simpa [Program.code?, Function.comp_def, Func.code] using hother

theorem isSome_eq (h : Twins id p q) (fn : FuncId) :
    (q.func? fn).isSome = (p.func? fn).isSome := by
  simpa using congrArg Option.isSome (h.name_eq fn)

theorem nameOf_eq (h : Twins id p q) (fn : FuncId) : q.nameOf fn = p.nameOf fn := by
  have hname := h.name_eq fn
  unfold Program.nameOf Program.displayName
  cases hq : q.func? fn <;> cases hp : p.func? fn <;> simp_all

theorem format_eq (h : Twins id p q) : Value.format q = Value.format p := by
  funext v
  cases v with
  | closure tag fn env => simp only [Value.format, h.nameOf_eq fn]
  | object ref cls => cases cls <;> simp only [Value.format, h.types]
  | _ => rfl

theorem display_eq (h : Twins id p q) : Value.display q = Value.display p := by
  funext v
  cases v <;> simp only [Value.display, h.format_eq]

theorem key_eq (h : Twins id p q) (σ : Store) : σ.key q = σ.key p := by
  funext v
  cases v with
  | closure tag fn env =>
      have hsome := h.isSome_eq fn
      simp only [Store.key]
      cases hq : q.func? fn <;> cases hp : p.func? fn <;> simp_all
  | object ref cls => simp only [Store.key, h.types]
  | _ => rfl

theorem unary_eq (h : Twins id p q) : Operation.unary q = Operation.unary p := by
  funext op x
  simp only [Operation.unary, h.format_eq]

theorem compare_eq (h : Twins id p q) : Operation.compare q = Operation.compare p := by
  funext op x y
  simp only [Operation.compare, h.format_eq]

theorem arithmetic_eq (h : Twins id p q) : Operation.arithmetic q = Operation.arithmetic p := by
  funext op x y
  have hnumbers : Operation.onNumbers q op x y = Operation.onNumbers p op x y := by
    simp only [Operation.onNumbers, h.format_eq]
  unfold Operation.arithmetic
  simp only [hnumbers, h.display_eq]

open Machine

theorem binary_eq (h : Twins id p q) (d : Nat) : Machine.binary ⟨q, d⟩ = Machine.binary ⟨p, d⟩ := by
  funext op x y σ
  simp only [Machine.binary, h.compare_eq, h.arithmetic_eq, h.key_eq, h.format_eq]

theorem newFields_eq (h : Twins id p q) (d : Nat) :
    Machine.newFields ⟨q, d⟩ = Machine.newFields ⟨p, d⟩ := by
  funext cls
  simp only [Machine.newFields, h.types]

/-- A call of any other function. -/
theorem callValue_eq (h : Twins id p q) (d : Nat) {callee : Value}
    (hcallee : ∀ tag env, callee ≠ .closure tag id env) (args : List Value)
    (stack : List Waiting) (depth : Nat) (σ : Store) :
    callValue ⟨q, d⟩ callee args stack depth σ = callValue ⟨p, d⟩ callee args stack depth σ := by
  cases callee with
  | closure tag fn env =>
      have hfn : fn ≠ id := by
        rintro rfl
        exact hcallee tag env rfl
      have hcode := h.others fn hfn
      simp only [callValue, Program.code?] at hcode ⊢
      cases hq : q.func? fn with
      | none =>
          have hp : p.func? fn = none := by simpa [hq] using hcode.symm
          rw [hp]
      | some g =>
          rw [hq] at hcode
          obtain ⟨f, hp, hfg⟩ := Option.map_eq_some_iff.1 hcode.symm
          simp only [Func.code, Code.mk.injEq] at hfg
          rw [hp]
          simp only [activation, hfg]
  | native tag name kind => cases kind <;> simp only [callValue, callNative, h.format_eq]
  | _ => simp only [callValue, h.format_eq]

theorem perform_eq (h : Twins id p q) (d : Nat) {task : Task} {vs : List Value}
    (hcall : ∀ tag env, task = .call → vs.headD .null ≠ .closure tag id env) (env : Env)
    (stack : List Waiting) (depth : Nat) (σ : Store) :
    perform ⟨q, d⟩ task vs env stack depth σ = perform ⟨p, d⟩ task vs env stack depth σ := by
  cases task
  case call => exact h.callValue_eq d (fun tag env => hcall tag env rfl) _ stack depth σ
  all_goals simp only [perform, h.unary_eq, h.binary_eq, h.arithmetic_eq, h.format_eq,
    h.display_eq, h.key_eq, h.newFields_eq]

theorem operands_eq (h : Twins id p q) (d : Nat) {task : Task} (htask : task ≠ .call)
    (es : List Expr) (env : Env) (stack : List Waiting) (depth : Nat) (σ : Store) :
    operands ⟨q, d⟩ task es env stack depth σ = operands ⟨p, d⟩ task es env stack depth σ := by
  cases es with
  | nil => exact h.perform_eq d (fun _ _ hcall => absurd hcall htask) env stack depth σ
  | cons e rest => rfl

/-- The step that a state takes unless it calls the function. -/
theorem free_eq (h : Twins id p q) {s : State} (hs : callee? s ≠ some id) :
    Machine.free q s = Machine.free p s := by
  obtain ⟨focus, stack, depth, σ⟩ := s
  cases focus
  case eval e env =>
      cases e
      case lambda fn t =>
          have hsome := h.isSome_eq fn
          simp only [Machine.free, step, stepEval]
          cases hq : q.func? fn <;> cases hp : p.func? fn <;> simp_all
      case construct cls args => exact h.operands_eq _ Task.noConfusion args env stack depth σ
      all_goals rfl
  case exec st env =>
      cases st
      case simple s share =>
          cases s
          case log args => exact h.operands_eq _ Task.noConfusion args env stack depth σ
          case super cls args => exact h.operands_eq _ Task.noConfusion args env stack depth σ
          all_goals rfl
      all_goals rfl
  case value v =>
      cases stack with
      | nil => rfl
      | cons w stack =>
          cases w with
          | operands task done rest env =>
              cases rest with
              | cons e rest => rfl
              | nil =>
                  refine h.perform_eq _ (fun tag env' htask hhead => hs ?_) env stack depth σ
                  subst htask
                  simp only [callee?, hhead]
          | _ => rfl
  case complete c =>
      cases stack with
      | nil => rfl
      | cons w stack =>
          cases w with
          | call fn => cases c <;> simp only [Machine.free, step, stepComplete, h.nameOf_eq]
          | _ => rfl
  case thrown v => rfl

end Twins

end Resumable
