import Resumable.Proofs.Locality

/-!
# Regular states

What a step can tell apart although programs that mean the same may differ in
it: how many calls are under way, which function numbers are in use, and the
frame that a function was made in, which shows only where the function names a
field.
-/

namespace Resumable

def Task.fieldName? (task : Task) (vs : List Value) : Option Value :=
  let ofObject (x name : Value) : Option Value :=
    match x with
    | .object .. => some name
    | _ => none
  match task with
  | .binary .index | .storeIndex .. => ofObject (vs.headD .null) (vs.getD 1 .null)
  | .binary .member | .deleteIndex => ofObject (vs.getD 1 .null) (vs.headD .null)
  | _ => none

theorem Task.fieldName?_nil (task : Task) : task.fieldName? [] = none := by
  cases task <;> first | rfl | (next op => cases op <;> rfl)

def Task.native? (task : Task) (vs : List Value) : Option (Nat × List Value) :=
  match task, vs with
  | .call, .native tag _ _ :: args => some (tag, args)
  | _, _ => none

namespace Machine

def fieldName? (s : State) : Option Value :=
  match s.focus, s.stack with
  | .value v, .operands task done [] _ :: _ => task.fieldName? (done ++ [v])
  | _, _ => none

def native? (s : State) : Option (Nat × List Value) :=
  match s.focus, s.stack with
  | .value v, .operands task done [] _ :: _ => task.native? (done ++ [v])
  | _, _ => none

def literal? (s : State) : Option FuncId :=
  match s.focus with
  | .eval e _ => e.lambdaId?
  | _ => none

/-- A step on this state makes no function value, names no field and calls no
native. -/
structure Idle (s : State) : Prop where
  literal : literal? s = none
  name : fieldName? s = none
  native : native? s = none

/-- A step on this state makes at most a value of a function of `makes`, names no
field and calls no native. -/
structure Calm (makes : FuncId → Prop) (s : State) : Prop where
  literal : ∀ fn, literal? s = some fn → makes fn
  name : fieldName? s = none
  native : native? s = none

theorem Idle.calm {s : State} (h : Idle s) (makes : FuncId → Prop) : Calm makes s where
  literal fn hfn := by
    rw [h.literal] at hfn
    cases hfn
  name := h.name
  native := h.native

/-- Evaluating a function literal. -/
theorem calm_lambda {fn : FuncId} {makes : FuncId → Prop} (h : makes fn) (t : Ty) (env : Env)
    (stack : List Waiting) (depth : Nat) (store : Store) :
    Calm makes ⟨.eval (.lambda fn t) env, stack, depth, store⟩ where
  literal _ hfn := Option.some.inj hfn ▸ h
  name := rfl
  native := rfl

/-- Whether a step on this state makes values of `known` functions only and
takes no `loose` function as the name of a field. -/
def regular (known loose : FuncId → Bool) (s : State) : Bool :=
  (match literal? s with
    | some fn => known fn
    | none => true) &&
  match fieldName? s with
  | some (.closure _ fn _) => !loose fn
  | _ => true

/-- Whether a step on this state stays within a limit on calls. -/
def withinLimit (limit : Nat) (s : State) : Bool :=
  match callee? s with
  | some _ => s.depth < limit
  | none => true

theorem known_of_regular {known loose : FuncId → Bool} {s : State} (h : regular known loose s)
    {fn : FuncId} (hfn : literal? s = some fn) : known fn = true := by
  simp only [regular, hfn, Bool.and_eq_true] at h
  exact h.1

theorem not_loose_of_regular {known loose : FuncId → Bool} {s : State}
    (h : regular known loose s) {tag : Nat} {fn : FuncId} {env : Env}
    (hname : fieldName? s = some (.closure tag fn env)) : loose fn = false := by
  simp only [regular, hname, Bool.and_eq_true, Bool.not_eq_true'] at h
  exact h.2

theorem regular_mono {known known' loose loose' : FuncId → Bool}
    (hknown : ∀ fn, known fn = true → known' fn = true)
    (hloose : ∀ fn, loose' fn = true → loose fn = true) {s : State}
    (h : regular known loose s = true) : regular known' loose' s = true := by
  simp only [regular, Bool.and_eq_true] at h ⊢
  constructor
  · cases hs : literal? s with
    | none => rfl
    | some fn => exact hknown fn (by simpa [hs] using h.1)
  · cases hs : fieldName? s with
    | none => rfl
    | some v =>
        cases v with
        | closure tag fn env =>
            have hnot : loose fn = false := by simpa [hs] using h.2
            have hnot' : loose' fn = false := Bool.eq_false_iff.2 fun hl => by
              rw [hloose fn hl] at hnot
              cases hnot
            simp only [hnot', Bool.not_false]
        | _ => rfl

theorem step_eq_free_of_withinLimit {p : Program} {limit : Nat} {s : State}
    (h : withinLimit limit s) : step ⟨p, limit⟩ s = free p s := by
  refine step_eq_free fun fn hfn => ?_
  simpa [withinLimit, hfn] using h

/-- Setting a variable of the innermost frame to a function. -/
theorem runs_setting {p : Program} {v : Variable} {fn : FuncId} {f : Func} {t : Ty}
    (hf : p.func? fn = some f) {j : FrameId} {env : Env} {rest : List Stmt}
    {stack : List Waiting} {depth : Nat} {σ : Store} (h : (σ.binding j v.id).isSome) :
    Steps (free p) (fun s => Calm (· = fn) s ∧ callee? s = none)
      ⟨.complete .normal,
        .block (.expr (.assign (.ref v) (.lambda fn t)) :: rest) (j :: env) :: stack, depth, σ⟩
      ⟨.complete .normal, .block rest (j :: env) :: stack, depth,
        σ.newTag.2.setBinding j v (.closure σ.tags fn (j :: env))⟩ := by
  have hidle {focus : Focus} {stack : List Waiting} {τ : Store}
      (hidle : Idle ⟨focus, stack, depth, τ⟩) (hcallee : callee? ⟨focus, stack, depth, τ⟩ = none) :
      Calm (· = fn) ⟨focus, stack, depth, τ⟩ ∧ callee? ⟨focus, stack, depth, τ⟩ = none :=
    ⟨hidle.calm _, hcallee⟩
  refine .head (hidle ⟨rfl, rfl, rfl⟩ rfl) rfl (.head (hidle ⟨rfl, rfl, rfl⟩ rfl) rfl
    (.head (hidle ⟨rfl, rfl, rfl⟩ rfl) rfl (.head ⟨calm_lambda (by rfl) .., rfl⟩ (free_lambda hf) ?_)))
  exact .head (hidle ⟨rfl, rfl, rfl⟩ rfl) (free_assign h) (.single (hidle ⟨rfl, rfl, rfl⟩ rfl) rfl)

/-! ## Calls under every limit -/

theorem run_of_watch {p : Program} {limit depth : Nat} (hle : limit ≤ depth) {fuel : Nat}
    {s : State} {answer : Except Failure Value × Store}
    (h : watch (step ⟨p, limit⟩) (withinLimit limit) fuel s = some answer) :
    run ⟨p, depth⟩ fuel s = some answer := by
  induction fuel generalizing s with
  | zero => cases h
  | succ fuel ih =>
      unfold watch at h
      split at h
      · next hwithin =>
          have hstep : step ⟨p, depth⟩ s = step ⟨p, limit⟩ s := step_limit fun fn hfn => by
            have hlt : s.depth < limit := by simpa [withinLimit, hfn] using hwithin
            exact ⟨Nat.lt_of_lt_of_le hlt hle, hlt⟩
          rw [run, hstep]
          cases hnext : step ⟨p, limit⟩ s with
          | halt result store =>
              simp only [hnext] at h ⊢
              exact h
          | next t =>
              simp only [hnext] at h ⊢
              exact ih h
      · cases h

def endsWell (p : Program) (limit fuel : Nat) (callee : Value) (args : List Value) (store : Store)
    (good : Except Failure Value × Store → Bool) : Bool :=
  (match start ⟨p, limit + 1⟩ callee args store with
    | .halt r σ => good (r, σ)
    | .next s => (watch (step ⟨p, limit + 1⟩) (withinLimit (limit + 1)) fuel s).any good) &&
  (List.range (limit + 1)).all fun d => (call ⟨p, d⟩ fuel callee args store).any good

/-- A call that ends well up to a limit that it does not reach ends well under
every limit. -/
theorem good_of_endsWell {p : Program} {limit fuel : Nat} {callee : Value} {args : List Value}
    {store : Store} {good : Except Failure Value × Store → Bool}
    (h : endsWell p limit fuel callee args store good = true) {depth fuel' : Nat}
    {answer : Except Failure Value × Store}
    (hcall : call ⟨p, depth⟩ fuel' callee args store = some answer) : good answer = true := by
  simp only [endsWell, Bool.and_eq_true, List.all_eq_true, List.mem_range] at h
  obtain ⟨hreached, hbelow⟩ := h
  have hgood : (call ⟨p, depth⟩ fuel callee args store).any good = true := by
    rcases Nat.lt_or_ge depth (limit + 1) with hlt | hge
    · exact hbelow depth hlt
    · have hstart : start ⟨p, depth⟩ callee args store = start ⟨p, limit + 1⟩ callee args store :=
        callValue_limit fun _ _ _ _ => by omega
      rw [call, hstart]
      cases hs : start ⟨p, limit + 1⟩ callee args store with
      | halt r σ => rw [hs] at hreached; exact hreached
      | next s =>
          rw [hs] at hreached
          obtain ⟨answer, hwatch, hanswer⟩ := (Option.any_eq_true _ _).1 hreached
          rw [finish, run_of_watch hge hwatch]
          exact hanswer
  obtain ⟨answer', hcall', hgood⟩ := (Option.any_eq_true _ _).1 hgood
  rw [call_unique hcall hcall']
  exact hgood

end Machine

end Resumable
