import Resumable.Proofs.Unreachable.Confinement

/-!
# Calls from outside

What a program and its surroundings exchange: the surroundings call functions
and resume generator objects in any order, with values of their own and with
values that they got before. Main statement: a program that keeps a seal never
lets a function under it out, and never enters one.
-/

namespace Resumable

namespace Machine

/-- A call enters a function: the function is under way in some state of the
call. -/
def Enters (cx : Context) (callee : Value) (args : List Value) (store : Store) (fn : FuncId) :
    Prop :=
  ∃ s t, start cx callee args store = .next s ∧ Steps (step cx) (fun _ => True) s t ∧
    .call fn ∈ t.stack

def isCallOf (fn : FuncId) : Waiting → Bool
  | .call g => g = fn
  | _ => false

def comesWithin (cx : Context) (wanted : State → Bool) : Nat → State → Bool
  | 0, _ => false
  | fuel + 1, s => wanted s ||
      match step cx s with
      | .next t => comesWithin cx wanted fuel t
      | .halt .. => false

theorem steps_of_comesWithin {cx : Context} {wanted : State → Bool} {fuel : Nat} {s : State}
    (h : comesWithin cx wanted fuel s = true) :
    ∃ t, Steps (step cx) (fun _ => True) s t ∧ wanted t = true := by
  induction fuel generalizing s with
  | zero => cases h
  | succ fuel ih =>
      rw [comesWithin, Bool.or_eq_true] at h
      rcases h with h | h
      · exact ⟨s, .refl s, h⟩
      · split at h
        · next t hstep =>
            obtain ⟨u, hsteps, hu⟩ := ih h
            exact ⟨u, .head trivial hstep hsteps, hu⟩
        · cases h

def callComes (cx : Context) (fuel : Nat) (callee : Value) (args : List Value) (store : Store)
    (wanted : State → Bool) : Bool :=
  match start cx callee args store with
  | .next s => comesWithin cx wanted fuel s
  | .halt .. => false

theorem exists_of_callComes {cx : Context} {fuel : Nat} {callee : Value} {args : List Value}
    {store : Store} {wanted : State → Bool} (h : callComes cx fuel callee args store wanted = true) :
    ∃ s t, start cx callee args store = .next s ∧ Steps (step cx) (fun _ => True) s t ∧
      wanted t = true := by
  unfold callComes at h
  split at h
  · next s hstart =>
      obtain ⟨t, hsteps, ht⟩ := steps_of_comesWithin h
      exact ⟨s, t, hstart, hsteps, ht⟩
  · cases h

def callEnters (cx : Context) (fuel : Nat) (callee : Value) (args : List Value) (store : Store)
    (fn : FuncId) : Bool :=
  callComes cx fuel callee args store (·.stack.any (isCallOf fn))

theorem enters_of_callEnters {cx : Context} {fuel : Nat} {callee : Value} {args : List Value}
    {store : Store} {fn : FuncId} (h : callEnters cx fuel callee args store fn = true) :
    Enters cx callee args store fn := by
  obtain ⟨s, t, hstart, hsteps, ht⟩ := exists_of_callComes h
  obtain ⟨w, hw, hcall⟩ := List.any_eq_true.1 ht
  refine ⟨s, t, hstart, hsteps, ?_⟩
  cases w with
  | call g => exact of_decide_eq_true hcall ▸ hw
  | _ => cases hcall

def nextOf (store : Store) (ref : Nat) : Value :=
  Fields.get (store.fields ref) (.text Generator.nextField)

/-- A resumption of an object is a call. One that ends with an instance of the stop
class is the end. -/
theorem exists_call_of_resume {cx : Context} {fuel ref : Nat} {cls : Option ClassId} {σ τ : Store}
    {answer : Resumption} (h : resume cx fuel (.object ref cls) σ = some (answer, τ)) :
    ∃ r, call cx fuel (nextOf σ ref) [] σ = some (r, τ) ∧
      ∀ v, r = .error (.thrown v) → v.isInstance cx.program Generator.stopClass = true →
        answer = .done := by
  obtain ⟨⟨r, τ'⟩, hcall, h⟩ := Option.bind_eq_some_iff.1 h
  cases r with
  | ok v =>
      cases h
      exact ⟨.ok v, hcall, by simp⟩
  | error f =>
      cases f with
      | thrown v =>
          dsimp only at h
          split at h
          · cases h
            exact ⟨_, hcall, fun _ _ _ => rfl⟩
          · next hstop =>
              cases h
              refine ⟨_, hcall, ?_⟩
              rintro _ ⟨⟩ hinstance
              exact absurd hinstance hstop
      | _ =>
          cases h
          exact ⟨_, hcall, by simp⟩

def handed : Except Failure Value → List Value
  | .ok v | .error (.thrown v) => [v]
  | .error _ => []

def Resumption.handed : Resumption → List Value
  | .yielded v | .failed (.thrown v) => [v]
  | _ => []

/-- The surroundings have brought the first store to the second and got some
values. They have the values in `own` from the start. -/
inductive Exchange (cx : Context) (own : Value → Prop) (first : Store) : Store → List Value → Prop
  where
  | start : Exchange cx own first first []
  | call {store store' : Store} {got args : List Value} {callee : Value} {fuel : Nat}
      {r : Except Failure Value} :
      Exchange cx own first store got → (∀ v ∈ callee :: args, own v ∨ v ∈ got) →
      Machine.call cx fuel callee args store = some (r, store') →
      Exchange cx own first store' (handed r ++ got)
  | resume {store store' : Store} {got : List Value} {gen : Value} {fuel : Nat} {r : Resumption} :
      Exchange cx own first store got → Machine.resume cx fuel gen store = some (r, store') →
      Exchange cx own first store' (r.handed ++ got)

/-- The surroundings keep what every call keeps. -/
theorem Exchange.keeps {cx : Context} {own : Value → Prop} {first store : Store} {got : List Value}
    {P : Store → Prop}
    (hcall : ∀ fuel callee args σ r τ, P σ → Machine.call cx fuel callee args σ = some (r, τ) → P τ)
    (hfirst : P first) (h : Exchange cx own first store got) : P store := by
  induction h with
  | start => exact hfirst
  | call _ _ hrun ih => exact hcall _ _ _ _ _ _ ih hrun
  | @resume _ _ _ gen _ _ _ hrun ih =>
      cases gen with
      | object ref cls =>
          obtain ⟨r, hrun, -⟩ := exists_call_of_resume hrun
          exact hcall _ _ _ _ _ _ ih hrun
      | _ =>
          cases hrun
          exact ih

/-- At some time the surroundings make a call or resume an object, and a function
is entered. -/
def EverEnters (cx : Context) (own : Value → Prop) (first : Store) (fn : FuncId) : Prop :=
  ∃ store got, Exchange cx own first store got ∧
    ((∃ callee args, (∀ v ∈ callee :: args, own v ∨ v ∈ got) ∧ Enters cx callee args store fn) ∨
      ∃ ref, Enters cx (nextOf store ref) [] store fn)

end Machine

namespace Seal

open Machine

variable {S : Seal} {cx : Context} {store : Store}

theorem free_of_mem_handed {r : Except Failure Value} (h : S.rule.OfResult r) :
    ∀ v ∈ handed r, S.Free v := by
  intro v hv
  cases r with
  | ok x => exact List.mem_singleton.1 hv ▸ h
  | error f =>
      cases f with
      | thrown x => exact List.mem_singleton.1 hv ▸ h
      | _ => cases hv

/-- A call of a free function keeps the seal. -/
theorem clear_of_call (hp : S.Guards cx.program) (hstore : S.ClearStore store) {callee : Value}
    (hcallee : S.Free callee) {args : List Value} (hargs : ∀ v ∈ args, S.Free v) {fuel : Nat}
    {r : Except Failure Value} {σ : Store} (h : call cx fuel callee args store = some (r, σ)) :
    S.rule.OfResult r ∧ S.ClearStore σ :=
  call_keeps (fun _ hs => Kept.leadsKept hp hs) (leadsKept_start hp hcallee hargs hstore) h

theorem clear_of_resume (hp : S.Guards cx.program) (hstore : S.ClearStore store) {gen : Value}
    {fuel : Nat} {r : Resumption} {σ : Store} (h : resume cx fuel gen store = some (r, σ)) :
    (∀ v ∈ r.handed, S.Free v) ∧ S.ClearStore σ := by
  cases gen with
  | object ref cls =>
      obtain ⟨⟨result, σ'⟩, hcall, h⟩ := Option.bind_eq_some_iff.1 h
      obtain ⟨hresult, hσ⟩ := clear_of_call hp hstore ((hstore.fields ref).get _) (by simp) hcall
      cases result with
      | ok v =>
          cases h
          refine ⟨fun x hx => ?_, hσ⟩
          exact List.mem_singleton.1 hx ▸ (hσ.fields ref).get _
      | error f =>
          cases f with
          | thrown v =>
              dsimp only at h
              split at h
              · cases h
                exact ⟨by simp [Resumption.handed], hσ⟩
              · cases h
                exact ⟨fun x hx => List.mem_singleton.1 hx ▸ hresult, hσ⟩
          | _ =>
              cases h
              exact ⟨by simp [Resumption.handed], hσ⟩
  | _ =>
      cases h
      exact ⟨by simp [Resumption.handed, Failure.eval], hstore⟩

variable {own : Value → Prop} {first : Store} {got : List Value}

/-- Whatever the surroundings do, they get no function under the seal. -/
theorem clear_of_exchange (hp : S.Guards cx.program) (hown : ∀ v, own v → S.Free v)
    (hfirst : S.ClearStore first) (h : Exchange cx own first store got) :
    S.ClearStore store ∧ ∀ v ∈ got, S.Free v := by
  induction h with
  | start => exact ⟨hfirst, by simp⟩
  | call _ hargs hcall ih =>
      obtain ⟨hcallee, hargs⟩ := List.forall_mem_cons.1 fun v hv =>
        (hargs v hv).elim (hown v) (ih.2 v)
      obtain ⟨hr, hσ⟩ := clear_of_call hp ih.1 hcallee hargs hcall
      exact ⟨hσ, List.forall_mem_append.2 ⟨free_of_mem_handed hr, ih.2⟩⟩
  | resume _ hresume ih =>
      obtain ⟨hr, hσ⟩ := clear_of_resume hp ih.1 hresume
      exact ⟨hσ, List.forall_mem_append.2 ⟨hr, ih.2⟩⟩

/-- A call of a free function enters none under the seal. -/
theorem not_enters (hp : S.Guards cx.program) (hstore : S.ClearStore store) {callee : Value}
    (hcallee : S.Free callee) {args : List Value} (hargs : ∀ v ∈ args, S.Free v) {fn : FuncId}
    (h : Enters cx callee args store fn) : ¬ S.func fn := by
  obtain ⟨s, t, hstart, hsteps, hfn⟩ := h
  have hleads := leadsKept_start hp hcallee hargs hstore
  rw [hstart] at hleads
  exact (hsteps.keeps (fun _ hs => Kept.leadsKept hp hs) hleads).not_call hfn

/-- Whatever the surroundings do, no function under the seal is entered. -/
theorem not_everEnters (hp : S.Guards cx.program) (hown : ∀ v, own v → S.Free v)
    (hfirst : S.ClearStore first) {fn : FuncId} (h : EverEnters cx own first fn) : ¬ S.func fn := by
  obtain ⟨store, got, hexchange, ⟨callee, args, hvalues, henters⟩ | ⟨ref, henters⟩⟩ := h
  · obtain ⟨hstore, hgot⟩ := clear_of_exchange hp hown hfirst hexchange
    obtain ⟨hcallee, hargs⟩ := List.forall_mem_cons.1 fun v hv =>
      (hvalues v hv).elim (hown v) (hgot v)
    exact not_enters hp hstore hcallee hargs henters
  · have hstore := (clear_of_exchange hp hown hfirst hexchange).1
    exact not_enters hp hstore ((hstore.fields ref).get _) (by simp) henters

end Seal

end Resumable
