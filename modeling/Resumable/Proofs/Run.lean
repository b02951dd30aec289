import Resumable.Machine.Interpreter

/-!
# Runs

Runs of a machine as relations between states. A machine is any function from
states to steps, so that the same notions serve the machine of the language and
the machine of jump code. Every state that a run leaves can be held to a
condition.
-/

namespace Resumable.Machine

/-- From the first state the machine gets to the second, and the states that it
leaves on the way satisfy `ok`. -/
inductive Steps (next : State → Step) (ok : State → Prop) : State → State → Prop where
  | refl (s : State) : Steps next ok s s
  | head {s t u : State} : ok s → next s = .next t → Steps next ok t u → Steps next ok s u

/-- The run from a state ends, and all its states satisfy `ok`. -/
def Ends (next : State → Step) (ok : State → Prop) (s : State) (r : Except Failure Value)
    (σ : Store) : Prop :=
  ∃ t, Steps next ok s t ∧ ok t ∧ next t = .halt r σ

section

variable {next next' : State → Step} {ok ok' : State → Prop}

namespace Steps

theorem trans {s t u : State} (first : Steps next ok s t) (second : Steps next ok t u) :
    Steps next ok s u := by
  induction first with
  | refl => exact second
  | head hok h _ ih => exact .head hok h (ih second)

theorem single {s t : State} (hok : ok s) (h : next s = .next t) : Steps next ok s t :=
  .head hok h (.refl t)

/-- Steps of a machine are steps of another one that agrees with it wherever
`ok` holds. -/
theorem transfer {s t : State} (agree : ∀ s, ok s → ok' s ∧ next' s = next s)
    (h : Steps next ok s t) : Steps next' ok' s t := by
  induction h with
  | refl s => exact .refl s
  | head hok hnext _ ih => exact .head (agree _ hok).1 ((agree _ hok).2.trans hnext) ih

theorem ends {s t : State} {r : Except Failure Value} {σ : Store}
    (first : Steps next ok s t) (rest : Ends next ok t r σ) : Ends next ok s r σ := by
  obtain ⟨u, hu, hhalt⟩ := rest
  exact ⟨u, first.trans hu, hhalt⟩

end Steps

namespace Ends

variable {s t : State} {r r' : Except Failure Value} {σ σ' : Store}

theorem of_halt (hok : ok s) (h : next s = .halt r σ) : Ends next ok s r σ :=
  ⟨s, .refl s, hok, h⟩

theorem of_step (hok : ok s) (h : next s = .next t) (rest : Ends next ok t r σ) :
    Ends next ok s r σ :=
  (Steps.single hok h).ends rest

theorem transfer (agree : ∀ s, ok s → ok' s ∧ next' s = next s) (h : Ends next ok s r σ) :
    Ends next' ok' s r σ := by
  obtain ⟨t, hsteps, hok, hhalt⟩ := h
  exact ⟨t, hsteps.transfer agree, (agree t hok).1, (agree t hok).2.trans hhalt⟩

/-- A run that ends goes on where its first step leads. -/
theorem tail (h : Ends next ok s r σ) (hstep : next s = .next t) : Ends next ok t r σ := by
  obtain ⟨u, hsteps, hok, hhalt⟩ := h
  cases hsteps with
  | refl => rw [hstep] at hhalt; cases hhalt
  | head _ hnext hrest =>
      rw [hstep] at hnext
      cases hnext
      exact ⟨u, hrest, hok, hhalt⟩

/-- A run whose first step is its last one ends with what that step gives. -/
theorem result (h : Ends next ok s r σ) (hhalt : next s = .halt r' σ') : r = r' ∧ σ = σ' := by
  obtain ⟨u, hsteps, -, hu⟩ := h
  cases hsteps with
  | refl =>
      rw [hhalt] at hu
      cases hu
      exact ⟨rfl, rfl⟩
  | head _ hnext _ => rw [hhalt] at hnext; cases hnext

/-- A run has one end. -/
theorem unique (h : Ends next ok s r σ) (h' : Ends next ok' s r' σ') : r = r' ∧ σ = σ' := by
  obtain ⟨t, hsteps, -, hhalt⟩ := h
  induction hsteps with
  | refl =>
      obtain ⟨hr, hσ⟩ := h'.result hhalt
      exact ⟨hr.symm, hσ.symm⟩
  | head _ hnext _ ih => exact ih (h'.tail hnext) hhalt

end Ends

/-! ## Simulations -/

/-- Related states stay related: a step of the first machine is followed by
steps of the second, and where the first one halts so does the second. -/
structure Simulates (next : State → Step) (ok : State → Prop) (next' : State → Step)
    (ok' : State → Prop) (Related : State → State → Prop)
    (Alike : Except Failure Value → Store → Except Failure Value → Store → Prop) : Prop where
  step : ∀ {s s' t : State}, Related s s' → ok s → next s = .next t →
    ∃ t', Steps next' ok' s' t' ∧ Related t t'
  halt : ∀ {s s' : State} {r : Except Failure Value} {σ : Store}, Related s s' → ok s →
    next s = .halt r σ → ∃ r' σ', Ends next' ok' s' r' σ' ∧ Alike r σ r' σ'

namespace Simulates

variable {Related : State → State → Prop}
  {Alike : Except Failure Value → Store → Except Failure Value → Store → Prop}

theorem steps (sim : Simulates next ok next' ok' Related Alike) {s s' t : State}
    (h : Steps next ok s t) (hrel : Related s s') : ∃ t', Steps next' ok' s' t' ∧ Related t t' := by
  induction h generalizing s' with
  | refl s => exact ⟨s', .refl s', hrel⟩
  | head hok hnext _ ih =>
      obtain ⟨m', hm, hrel⟩ := sim.step hrel hok hnext
      obtain ⟨t', ht, hrel⟩ := ih hrel
      exact ⟨t', hm.trans ht, hrel⟩

theorem ends (sim : Simulates next ok next' ok' Related Alike) {s s' : State}
    {r : Except Failure Value} {σ : Store} (h : Ends next ok s r σ) (hrel : Related s s') :
    ∃ r' σ', Ends next' ok' s' r' σ' ∧ Alike r σ r' σ' := by
  obtain ⟨t, hsteps, hok, hhalt⟩ := h
  obtain ⟨t', hsteps', hrel⟩ := sim.steps hsteps hrel
  obtain ⟨r', σ', hends, halike⟩ := sim.halt hrel hok hhalt
  exact ⟨r', σ', hsteps'.ends hends, halike⟩

end Simulates

/-! ## Invariants -/

/-- A step leads to a state with one property, or to an end with another. -/
def Leads (Inv : State → Prop) (Done : Except Failure Value → Store → Prop) : Step → Prop
  | .next s => Inv s
  | .halt r σ => Done r σ

section

variable {Inv : State → Prop} {Done : Except Failure Value → Store → Prop} {cx : Context} {fuel : Nat}
  {r : Except Failure Value} {σ : Store}

theorem Steps.keeps (hstep : ∀ s, Inv s → Leads Inv Done (next s)) {s t : State}
    (h : Steps next ok s t) (hs : Inv s) : Inv t := by
  induction h with
  | refl s => exact hs
  | head _ hnext _ ih =>
      have hleads := hstep _ hs
      rw [hnext] at hleads
      exact ih hleads

theorem run_keeps (hstep : ∀ s, Inv s → Leads Inv Done (step cx s)) {s : State} (hs : Inv s)
    (h : run cx fuel s = some (r, σ)) : Done r σ := by
  induction fuel generalizing s with
  | zero => cases h
  | succ fuel ih =>
      have hleads := hstep s hs
      simp only [run] at h
      cases hnext : step cx s with
      | next t =>
          rw [hnext] at h hleads
          exact ih hleads h
      | halt r' σ' =>
          rw [hnext] at h hleads
          cases h
          exact hleads

theorem call_keeps (hstep : ∀ s, Inv s → Leads Inv Done (step cx s)) {callee : Value}
    {args : List Value} {store : Store} (hstart : Leads Inv Done (start cx callee args store))
    (h : call cx fuel callee args store = some (r, σ)) : Done r σ := by
  rw [call] at h
  cases hfirst : start cx callee args store with
  | halt r' σ' =>
      rw [hfirst] at h hstart
      cases h
      exact hstart
  | next s =>
      rw [hfirst] at h hstart
      exact run_keeps hstep hstart h

end

/-! ## Runs with fuel -/

/-- Runs a machine at most `fuel` steps and holds every state to a condition;
nothing if the run is not over by then or a state fails the condition. -/
def watch (next : State → Step) (ok : State → Bool) :
    Nat → State → Option (Except Failure Value × Store)
  | 0, _ => none
  | fuel + 1, s =>
      if ok s then
        match next s with
        | .halt result store => some (result, store)
        | .next s => watch next ok fuel s
      else none

theorem ends_of_watch {ok : State → Bool} {fuel : Nat} {s : State} {r : Except Failure Value}
    {σ : Store} (h : watch next ok fuel s = some (r, σ)) :
    Ends next (fun s => ok s = true) s r σ := by
  induction fuel generalizing s with
  | zero => simp [watch] at h
  | succ fuel ih =>
      unfold watch at h
      split at h
      · next hok =>
          split at h
          · next hhalt =>
              cases h
              exact .of_halt hok hhalt
          · next hnext => exact .of_step hok hnext (ih h)
      · cases h

theorem watch_of_ends {ok : State → Bool} {s : State} {r : Except Failure Value} {σ : Store}
    (h : Ends next (fun s => ok s = true) s r σ) :
    ∃ fuel, watch next ok fuel s = some (r, σ) := by
  obtain ⟨t, hsteps, hok, hhalt⟩ := h
  induction hsteps with
  | refl s => exact ⟨1, by simp [watch, hok, hhalt]⟩
  | head hs hnext _ ih =>
      obtain ⟨fuel, hfuel⟩ := ih hok hhalt
      exact ⟨fuel + 1, by simp [watch, hs, hnext, hfuel]⟩

/-- Steps that a run takes use up fuel. -/
theorem watch_of_steps {ok : State → Bool} {fuel : Nat} {s t u : State}
    {answer : Except Failure Value × Store} (hstep : next s = .next t) (hsteps : Steps next ok' t u)
    (h : watch next ok fuel s = some answer) :
    ∃ fuel', fuel' < fuel ∧ watch next ok fuel' u = some answer := by
  have hfirst {s t : State} {fuel : Nat} (hstep : next s = .next t)
      (h : watch next ok fuel s = some answer) :
      ∃ fuel', fuel' < fuel ∧ watch next ok fuel' t = some answer := by
    cases fuel with
    | zero => cases h
    | succ fuel =>
        unfold watch at h
        split at h
        · rw [hstep] at h
          exact ⟨fuel, Nat.lt_succ_self _, h⟩
        · cases h
  induction hsteps generalizing s fuel with
  | refl => exact hfirst hstep h
  | head _ hnext _ ih =>
      obtain ⟨fuel₁, hlt, h₁⟩ := hfirst hstep h
      obtain ⟨fuel₂, hlt₂, h₂⟩ := ih hnext h₁
      exact ⟨fuel₂, Nat.lt_trans hlt₂ hlt, h₂⟩

end

theorem run_of_ends {cx : Context} {ok : State → Prop} {s : State} {r : Except Failure Value}
    {σ : Store} (h : Ends (step cx) ok s r σ) : ∃ fuel, run cx fuel s = some (r, σ) := by
  obtain ⟨t, hsteps, -, hhalt⟩ := h
  induction hsteps with
  | refl s => exact ⟨1, by simp [run, hhalt]⟩
  | head _ hnext _ ih =>
      obtain ⟨fuel, hfuel⟩ := ih hhalt
      exact ⟨fuel + 1, by simp [run, hnext, hfuel]⟩

/-- A call that ends in finitely many steps of the machine. -/
theorem call_of_ends {cx : Context} {callee : Value} {args : List Value} {store : Store}
    {ok : State → Prop} {s : State} (hstart : start cx callee args store = .next s)
    {r : Except Failure Value} {σ : Store} (h : Ends (step cx) ok s r σ) :
    ∃ fuel, call cx fuel callee args store = some (r, σ) := by
  obtain ⟨fuel, hfuel⟩ := run_of_ends h
  exact ⟨fuel, by rw [call, hstart]; exact hfuel⟩

/-- More fuel keeps the answer of a run that has ended. -/
theorem run_mono {cx : Context} {fuel more : Nat} {s : State}
    {answer : Except Failure Value × Store} (hle : fuel ≤ more)
    (h : run cx fuel s = some answer) : run cx more s = some answer := by
  induction fuel generalizing s more with
  | zero => simp [run] at h
  | succ fuel ih =>
      obtain ⟨more, rfl⟩ : ∃ k, more = k + 1 := ⟨more - 1, by omega⟩
      cases hs : step cx s with
      | halt result store => simpa [run, hs] using h
      | next t =>
          simp only [run, hs] at h ⊢
          exact ih (by omega) h

/-- A call has one answer. -/
theorem call_unique {cx : Context} {fuel fuel' : Nat} {callee : Value} {args : List Value}
    {store : Store} {answer answer' : Except Failure Value × Store}
    (h : call cx fuel callee args store = some answer)
    (h' : call cx fuel' callee args store = some answer') : answer = answer' := by
  unfold call at h h'
  cases hstart : start cx callee args store with
  | halt r σ =>
      rw [hstart] at h h'
      exact Option.some.inj (h.symm.trans h')
  | next s =>
      rw [hstart] at h h'
      have hmore := run_mono (Nat.le_max_left fuel fuel') h
      exact Option.some.inj (hmore.symm.trans (run_mono (Nat.le_max_right fuel fuel') h'))

theorem callFunc_unique {cx : Context} {fuel fuel' : Nat} {id : FuncId} {args : List Value}
    {store : Store} {answer answer' : Except Failure Value × Store}
    (h : callFunc cx fuel id args store = some answer)
    (h' : callFunc cx fuel' id args store = some answer') : answer = answer' := by
  unfold callFunc at h h'
  cases hf : cx.program.func? id with
  | none =>
      rw [hf] at h h'
      exact Option.some.inj (h.symm.trans h')
  | some f =>
      rw [hf] at h h'
      exact call_unique h h'

end Resumable.Machine
