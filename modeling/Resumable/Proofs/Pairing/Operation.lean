import Resumable.Proofs.Pairing.Field

/-!
# Operations on paired values

Paired values have the same truth, text and kind, are equal to the same values,
and operators give paired results on them or fail alike.
-/

namespace Resumable

structure Sides.Shows (S : Sides) : Prop where
  types : S.source.types = S.target.types
  funcs : ∀ {fn}, S.known fn → ∃ f f', S.source.func? fn = some f ∧ S.target.func? fn = some f' ∧
    f.name = f'.name

theorem Failure.report_ne_thrown (r : Report) (v : Value) : Failure.report r ≠ .thrown v :=
  nofun

/-- Two runs end alike: with paired values, paired thrown values or the same
failure. -/
inductive ResultPair (S : Sides) (P : Pairing) :
    Except Failure Value → Except Failure Value → Prop where
  | ok {v v' : Value} : ValuePair S P v v' → ResultPair S P (.ok v) (.ok v')
  | thrown {v v' : Value} : ValuePair S P v v' →
      ResultPair S P (.error (.thrown v)) (.error (.thrown v'))
  | failure {f : Failure} : (∀ v, f ≠ .thrown v) → ResultPair S P (.error f) (.error f)

theorem ResultPair.mono {S : Sides} {P Q : Pairing} (h : P ≤ Q) {r r' : Except Failure Value}
    (hr : ResultPair S P r r') : ResultPair S Q r r' := by
  cases hr with
  | ok hv => exact .ok (hv.mono h)
  | thrown hv => exact .thrown (hv.mono h)
  | failure hf => exact .failure hf

theorem Sides.Shows.nameOf_eq {S : Sides} (hS : S.Shows) {fn : FuncId} (h : S.known fn) :
    S.source.nameOf fn = S.target.nameOf fn := by
  obtain ⟨f, f', hf, hf', hname⟩ := hS.funcs h
  simp [Program.nameOf, hf, hf', Program.displayName, hname]

namespace ValuePair

variable {S : Sides} {P : Pairing} {v v' w w' : Value}

theorem ofLiteral (l : Literal) : ValuePair S P (.ofLiteral l) (.ofLiteral l) := by
  cases l with
  | null => exact .null
  | bool b => exact .bool b
  | int n => exact .int n
  | num x => exact .num x
  | str s => exact .str s

theorem truthy_eq (h : ValuePair S P v v') : v.truthy = v'.truthy := by
  cases h <;> rfl

theorem typeName_eq (h : ValuePair S P v v') : v.typeName = v'.typeName := by
  cases h <;> rfl

theorem number?_eq (h : ValuePair S P v v') : v.number? = v'.number? := by
  cases h <;> rfl

theorem format_eq (hS : S.Shows) (h : ValuePair S P v v') :
    v.format S.source = v'.format S.target := by
  cases h with
  | closure _ hfn => simp only [Value.format, hS.nameOf_eq hfn]
  | object cls _ => cases cls <;> simp only [Value.format, hS.types]
  | _ => rfl

theorem display_eq (hS : S.Shows) (h : ValuePair S P v v') :
    v.display S.source = v'.display S.target := by
  have hformat := h.format_eq hS
  cases h <;> first | rfl | exact hformat

theorem equal_eq {σ σ' : Store} (hσ : StorePair S P σ σ') (h : ValuePair S P v v')
    (hw : ValuePair S P w w') : v.equal w = v'.equal w' := by
  cases h <;> cases hw <;> try rfl
  case closure.closure h₁ _ _ _ _ _ _ _ _ h₂ _ _ _ => exact decide_eq_decide.2 (hσ.tags.eq_iff h₁ h₂)
  case native.native _ h₁ _ _ _ _ _ h₂ => exact decide_eq_decide.2 (hσ.tags.eq_iff h₁ h₂)
  case object.object h₁ _ _ _ h₂ => exact decide_eq_decide.2 (hσ.objects.eq_iff h₁ h₂)

end ValuePair

namespace ResultPair

variable {S : Sides} {P : Pairing} {x x' y y' : Value}

theorem unary (hS : S.Shows) (op : UnaryOp) (hx : ValuePair S P x x') :
    ResultPair S P (Operation.unary S.source op x) (Operation.unary S.target op x') := by
  have hformat := hx.format_eq hS
  cases op
  case not => exact .ok (by rw [hx.truthy_eq]; exact .bool _)
  case typeof => exact .ok (by rw [hx.typeName_eq]; exact .str _)
  all_goals
    simp only [Operation.unary, hformat]
    cases hx <;> first
      | exact .ok (.int _)
      | exact .ok (.num _)
      | exact .failure (Failure.report_ne_thrown _)

theorem compare (hS : S.Shows) (op : BinaryOp) (hx : ValuePair S P x x')
    (hy : ValuePair S P y y') :
    ResultPair S P (Operation.compare S.source op x y) (Operation.compare S.target op x' y') := by
  have hfx := hx.format_eq hS
  have hfy := hy.format_eq hS
  have hnx := hx.number?_eq
  have hny := hy.number?_eq
  unfold Operation.compare
  cases hx <;> cases hy <;> simp only [hfx, hfy, hnx, hny] <;> try exact .ok (.bool _)
  all_goals
    split
    · exact .ok (.bool _)
    · exact .failure (Failure.report_ne_thrown _)

theorem onNumbers (hS : S.Shows) (op : BinaryOp) (hx : ValuePair S P x x')
    (hy : ValuePair S P y y') :
    ResultPair S P (Operation.onNumbers S.source op x y) (Operation.onNumbers S.target op x' y') := by
  have hfx := hx.format_eq hS
  have hfy := hy.format_eq hS
  have hnx := hx.number?_eq
  have hny := hy.number?_eq
  unfold Operation.onNumbers
  cases hx <;> cases hy <;> simp only [hfx, hfy, hnx, hny]
  all_goals
    repeat' split
    all_goals first
      | exact .ok (.int _)
      | exact .ok (.num _)
      | exact .failure (Failure.report_ne_thrown _)

theorem arithmetic (hS : S.Shows) (op : BinaryOp) (hx : ValuePair S P x x')
    (hy : ValuePair S P y y') :
    ResultPair S P (Operation.arithmetic S.source op x y)
      (Operation.arithmetic S.target op x' y') := by
  have hdx := hx.display_eq hS
  have hdy := hy.display_eq hS
  have hnumbers := onNumbers hS op hx hy
  by_cases hop : op = .add
  · subst hop
    cases hx <;> cases hy <;> simp only [Operation.arithmetic, hdx, hdy] <;>
      first
      | exact .ok (.str _)
      | exact hnumbers
  · have hplain (p : Program) (a b : Value) :
        Operation.arithmetic p op a b = Operation.onNumbers p op a b := by
      cases op <;> first | rfl | exact absurd rfl hop
    rw [hplain, hplain]
    exact hnumbers

end ResultPair

end Resumable
