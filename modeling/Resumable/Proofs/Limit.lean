import Resumable.Proofs.Depth
import Resumable.Proofs.Regular

/-!
# The limit on calls

Whoever uses an interpreter asks it for one call or resumption after the other,
and may choose each by the answers so far. The limit on calls is looked at in
one place only, where a closure is called. If the check never fires, the limit
has no part in the answers, and a higher one gives the same. If it fires, the
run is over: what waits on the stack, handlers and loops included, is never
asked, and the failure is the answer.
-/

namespace Resumable.Machine

/-! ## The check on calls -/

/-- The failure of a call under as many calls as the limit allows. -/
def tooDeep (limit : Nat) : Failure := .eval .invalidInput s!"call depth exceeds {limit}"

/-- In the run from a state the check on calls fires, with this store. -/
def Fires (cx : Context) (s : State) (σ : Store) : Prop :=
  ∃ t, Steps (step cx) (fun _ => True) s t ∧ withinLimit cx.maxDepth t = false ∧ t.store = σ

section

variable {p : Program} {d d' : Nat} {s t : State} {σ : Store}

theorem exists_callee_of_not_withinLimit (h : withinLimit d s = false) :
    ∃ fn, callee? s = some fn ∧ d ≤ s.depth := by
  unfold withinLimit at h
  cases hcallee : callee? s with
  | none => simp [hcallee] at h
  | some fn => exact ⟨fn, rfl, by simpa [hcallee] using h⟩

/-- The state before a call of a closure. -/
theorem exists_closure_of_callee? {fn : FuncId} (h : callee? s = some fn) :
    ∃ v done tag base args env stack, s.focus = .value v ∧
      s.stack = .operands .call done [] env :: stack ∧ done ++ [v] = .closure tag fn base :: args := by
  obtain ⟨focus, stack, depth, store⟩ := s
  simp only [callee?] at h
  split at h
  · next v done env stack =>
      split at h
      · next tag fn base hhead =>
          cases h
          cases hargs : done ++ [v] with
          | nil => simp at hargs
          | cons callee args =>
              rw [hargs, List.headD_cons] at hhead
              exact ⟨v, done, tag, base, args, env, stack, rfl, rfl, by rw [hargs, hhead]⟩
      · cases h
  · cases h

/-- Where the check fires the run is over, whatever waits on the stack. -/
theorem step_of_not_withinLimit (h : withinLimit d s = false) :
    step ⟨p, d⟩ s = .halt (.error (tooDeep d)) s.store := by
  obtain ⟨fn, hcallee, hdepth⟩ := exists_callee_of_not_withinLimit h
  obtain ⟨v, done, tag, base, args, env, stack, hfocus, hstack, hargs⟩ :=
    exists_closure_of_callee? hcallee
  obtain ⟨focus, stack', depth, store⟩ := s
  obtain rfl : focus = .value v := hfocus
  obtain rfl : stack' = .operands .call done [] env :: stack := hstack
  simp [step, stepValue, perform, hargs, callValue, fail, tooDeep, show d ≤ depth from hdepth]

theorem Fires.of_step (hstep : step ⟨p, d⟩ s = .next t) (h : Fires ⟨p, d⟩ t σ) :
    Fires ⟨p, d⟩ s σ := by
  obtain ⟨u, hsteps, hlimit⟩ := h
  exact ⟨u, .head trivial hstep hsteps, hlimit⟩

/-- A run in which the check fires ends with its failure, and with the store of
that moment. -/
theorem run_of_fires (h : Fires ⟨p, d⟩ s σ) :
    ∃ enough, ∀ fuel, enough ≤ fuel → run ⟨p, d⟩ fuel s = some (.error (tooDeep d), σ) := by
  obtain ⟨t, hsteps, hlimit, rfl⟩ := h
  obtain ⟨enough, hrun⟩ := run_of_ends ⟨t, hsteps, trivial, step_of_not_withinLimit hlimit⟩
  exact ⟨enough, fun fuel hle => run_mono hle hrun⟩

/-- A run in which the check does not fire is the same under a higher limit. -/
theorem run_of_not_fires (hle : d ≤ d') {fuel : Nat} (h : ∀ σ, ¬ Fires ⟨p, d⟩ s σ) :
    run ⟨p, d'⟩ fuel s = run ⟨p, d⟩ fuel s := by
  induction fuel generalizing s with
  | zero => rfl
  | succ fuel ih =>
      have hwithin : withinLimit d s = true := by
        refine Bool.of_not_eq_false fun hlimit => ?_
        exact h s.store ⟨s, .refl s, hlimit, rfl⟩
      have hstep : step ⟨p, d'⟩ s = step ⟨p, d⟩ s := step_limit fun fn hfn => by
        have hlt : s.depth < d := by simpa [withinLimit, hfn] using hwithin
        exact ⟨Nat.lt_of_lt_of_le hlt hle, hlt⟩
      rw [run, run, hstep]
      cases hnext : step ⟨p, d⟩ s with
      | halt r σ => rfl
      | next t => exact ih fun σ hfires => h σ (hfires.of_step hnext)

theorem Level.steps {cx : Context} (hsteps : Steps (Machine.step cx) (fun _ => True) s t)
    (h : Level s) :
    Level t := by
  induction hsteps with
  | refl => exact h
  | head _ hnext _ ih => exact ih (h.step hnext)

end

/-! ## Requests -/

def calling (callee : Value) (args : List Value) (store : Store) : State :=
  ⟨.value ((callee :: args).getLast (List.cons_ne_nil _ _)),
    [.operands .call (callee :: args).dropLast [] []], 0, store⟩

theorem step_calling (cx : Context) (callee : Value) (args : List Value) (store : Store) :
    step cx (calling callee args store) = start cx callee args store := by
  simp only [calling, step, stepValue, perform, List.dropLast_concat_getLast]
  rfl

theorem call_eq_run (cx : Context) (fuel : Nat) (callee : Value) (args : List Value)
    (store : Store) :
    call cx fuel callee args store = run cx (fuel + 1) (calling callee args store) := by
  rw [call, run, step_calling]
  cases start cx callee args store <;> rfl

theorem level_calling (callee : Value) (args : List Value) (store : Store) :
    Level (calling callee args store) where
  orderly := ⟨rfl, rfl⟩
  depth := rfl

inductive Request where
  | call (callee : Value) (args : List Value)
  | callFunc (id : FuncId) (args : List Value)
  | resume (gen : Value)
  | setGlobal (v : Variable) (x : Value)

inductive Answer where
  | returned (result : Except Failure Value)
  | resumed (result : Resumption)
  | bound

def serve (cx : Context) (fuel : Nat) : Request → Store → Option (Answer × Store)
  | .call callee args, store => (call cx fuel callee args store).map (Prod.map .returned id)
  | .callFunc fn args, store => (callFunc cx fuel fn args store).map (Prod.map .returned id)
  | .resume gen, store => (resume cx fuel gen store).map (Prod.map .resumed id)
  | .setGlobal v x, store => some (.bound, store.setGlobal v x)

namespace Request

/-- The state from which the machine runs for a request, if it runs at all. -/
def entry? (p : Program) (store : Store) : Request → Option State
  | .call callee args => some (calling callee args store)
  | .callFunc id args =>
      if (p.func? id).isSome then some (calling (.closure 0 id []) args store) else none
  | .resume (.object ref _) =>
      some (calling (Fields.get (store.fields ref) (.text Generator.nextField)) [] store)
  | .resume _ | .setGlobal .. => none

/-- The answer to a request whose run ends with a failure that is not a thrown
value. -/
def failed (f : Failure) : Request → Answer
  | .resume _ => .resumed (.failed f)
  | _ => .returned (.error f)

def report (p : Program) : Request → Except Failure Value × Store → Answer × Store
  | .resume (.object ref _), (.ok _, σ) =>
      (.resumed (.yielded (Fields.get (σ.fields ref) (.text Generator.valueField))), σ)
  | .resume _, (.error (.thrown v), σ) =>
      (.resumed (if v.isInstance p Generator.stopClass then .done else .failed (.thrown v)), σ)
  | .resume _, (.error f, σ) => (.resumed (.failed f), σ)
  | _, (r, σ) => (.returned r, σ)

/-- In the run for a request the check on calls fires, with the store `σ`. -/
def Fires (cx : Context) (request : Request) (store σ : Store) : Prop :=
  ∃ s, request.entry? cx.program store = some s ∧ Machine.Fires cx s σ

end Request

section

variable {p : Program} {d d' : Nat} {s : State} {store σ : Store} {request : Request}

theorem report_tooDeep (p : Program) (request : Request) (d : Nat) (σ : Store) :
    request.report p (.error (tooDeep d), σ) = (request.failed (tooDeep d), σ) := by
  cases request with
  | resume gen => cases gen <;> rfl
  | _ => rfl

/-- A request for which the machine runs is answered with what the run gives. -/
theorem serve_of_entry (hentry : request.entry? p store = some s) (d fuel : Nat) :
    serve ⟨p, d⟩ fuel request store = (run ⟨p, d⟩ (fuel + 1) s).map (request.report p) := by
  cases request with
  | call callee args =>
      cases hentry
      rw [serve, call_eq_run]
      rfl
  | callFunc fn args =>
      simp only [Request.entry?] at hentry
      split at hentry
      · next hf =>
          cases hentry
          obtain ⟨f, hf⟩ := Option.isSome_iff_exists.1 hf
          simp only [serve, callFunc, hf, call_eq_run]
          rfl
      · cases hentry
  | resume gen =>
      cases gen with
      | object ref template =>
          cases hentry
          simp only [serve, resume, call_eq_run]
          cases run ⟨p, d⟩ (fuel + 1) _ with
          | none => rfl
          | some answer =>
              obtain ⟨r, σ⟩ := answer
              cases r with
              | ok v => rfl
              | error f =>
                  cases f with
                  | thrown v =>
                      by_cases hstop : v.isInstance p Generator.stopClass <;>
                        simp [Request.report, hstop]
                  | _ => rfl
      | _ => cases hentry
  | setGlobal v x => cases hentry

/-- A request for which the machine does not run is answered under any limit
alike. -/
theorem serve_of_no_entry (hentry : request.entry? p store = none) (d d' fuel : Nat) :
    serve ⟨p, d⟩ fuel request store = serve ⟨p, d'⟩ fuel request store := by
  cases request with
  | call callee args => cases hentry
  | callFunc fn args =>
      cases hf : p.func? fn with
      | none => simp only [serve, callFunc, hf]
      | some f => simp [Request.entry?, hf] at hentry
  | resume gen =>
      cases gen with
      | object ref template => cases hentry
      | _ => rfl
  | setGlobal v x => rfl

/-- A request in whose run the check fires is answered with its failure. -/
theorem serve_of_fires (h : request.Fires ⟨p, d⟩ store σ) :
    ∃ enough, ∀ fuel, enough ≤ fuel →
      serve ⟨p, d⟩ fuel request store = some (request.failed (tooDeep d), σ) := by
  obtain ⟨s, hentry, hfires⟩ := h
  obtain ⟨enough, hrun⟩ := run_of_fires hfires
  refine ⟨enough, fun fuel hle => ?_⟩
  rw [serve_of_entry hentry, hrun (fuel + 1) (by omega), Option.map_some, report_tooDeep]

/-- A request in whose run the check does not fire is answered in the same way
under a higher limit. -/
theorem serve_of_not_fires (hle : d ≤ d') (fuel : Nat) (h : ∀ σ, ¬ request.Fires ⟨p, d⟩ store σ) :
    serve ⟨p, d'⟩ fuel request store = serve ⟨p, d⟩ fuel request store := by
  cases hentry : request.entry? p store with
  | none => exact serve_of_no_entry hentry d' d fuel
  | some s =>
      have hrun : ∀ σ, ¬ Fires ⟨p, d⟩ s σ := fun σ hfires => h σ ⟨s, hentry, hfires⟩
      rw [serve_of_entry hentry, serve_of_entry hentry, run_of_not_fires hle hrun]

theorem level_entry (h : request.entry? p store = some s) : Level s := by
  unfold Request.entry? at h
  split at h
  · cases h
    exact level_calling ..
  · split at h
    · cases h
      exact level_calling ..
    · cases h
  · cases h
    exact level_calling ..
  all_goals cases h

/-- Draining a generator object passes the failure on. -/
theorem drainFrom_of_fires {gen : Value} (h : (Request.resume gen).Fires ⟨p, d⟩ store σ) :
    ∃ enough, ∀ fuel, enough ≤ fuel → ∀ limit rounds found,
      drainFrom ⟨p, d⟩ fuel gen limit (rounds + 1) found store = some (found, some (tooDeep d), σ) := by
  obtain ⟨enough, hserve⟩ := serve_of_fires h
  refine ⟨enough, fun fuel hle limit rounds found => ?_⟩
  obtain ⟨⟨outcome, σ'⟩, hresume, hanswer⟩ := Option.map_eq_some_iff.1 (hserve fuel hle)
  cases hanswer
  simp [drainFrom, hresume]

end

/-! ## Sessions -/

/-- Who uses an interpreter: the request that comes after these answers, the
latest first, with this store. -/
abbrev Client := List Answer → Store → Request

/-- Serves the next `n` requests of a client. -/
def session (cx : Context) (fuel : Nat) (client : Client) :
    Nat → List Answer → Store → Option (List Answer × Store)
  | 0, answers, store => some (answers, store)
  | n + 1, answers, store => do
      let (answer, store) ← serve cx fuel (client answers store) store
      session cx fuel client n (answer :: answers) store

/-- The check on calls fires while the next `n` requests are served. -/
def SessionFires (cx : Context) (fuel : Nat) (client : Client) :
    Nat → List Answer → Store → Prop
  | 0, _, _ => False
  | n + 1, answers, store =>
      (∃ σ, (client answers store).Fires cx store σ) ∨
        ∃ answer σ, serve cx fuel (client answers store) store = some (answer, σ) ∧
          SessionFires cx fuel client n (answer :: answers) σ

theorem session_of_not_fires {p : Program} {d d' : Nat} (hle : d ≤ d') {fuel : Nat}
    {client : Client} {n : Nat} {answers : List Answer} {store : Store}
    (h : ¬ SessionFires ⟨p, d⟩ fuel client n answers store) :
    session ⟨p, d'⟩ fuel client n answers store = session ⟨p, d⟩ fuel client n answers store := by
  induction n generalizing answers store with
  | zero => rfl
  | succ n ih =>
      obtain ⟨hfirst, hrest⟩ := not_or.1 h
      rw [session, session, serve_of_not_fires hle fuel fun σ hfires => hfirst ⟨σ, hfires⟩]
      cases hserve : serve ⟨p, d⟩ fuel (client answers store) store with
      | none => rfl
      | some answer =>
          obtain ⟨answer, σ⟩ := answer
          exact ih fun hfires => hrest ⟨answer, σ, hserve, hfires⟩

/-- The limit on calls has no part in a session in which the check does not
fire. Here `d` is the limit in force, as a context has it once a default stands in
for a limit that was not given: a higher one gives the same answers, or runs on in the same way, and
leaves the same store, with its trace, output, variables and objects. A request
in whose run the check fires is answered with its failure, also when handlers
and loops wait on the stack, and draining passes it on. In every state of every
run the counter counts the calls that wait, so leaving them takes it back to
where it was. -/
theorem limit_transparent {p : Program} {d d' : Nat} (hle : d ≤ d') :
    (∀ fuel client n answers store, ¬ SessionFires ⟨p, d⟩ fuel client n answers store →
      session ⟨p, d'⟩ fuel client n answers store = session ⟨p, d⟩ fuel client n answers store) ∧
    (∀ request store σ, request.Fires ⟨p, d⟩ store σ → ∃ enough, ∀ fuel, enough ≤ fuel →
      serve ⟨p, d⟩ fuel request store = some (request.failed (tooDeep d), σ)) ∧
    (∀ gen store σ, (Request.resume gen).Fires ⟨p, d⟩ store σ → ∃ enough, ∀ fuel, enough ≤ fuel →
      ∀ limit rounds found,
        drainFrom ⟨p, d⟩ fuel gen limit (rounds + 1) found store =
          some (found, some (tooDeep d), σ)) ∧
    ∀ request store s t, Request.entry? p store request = some s →
      Steps (step ⟨p, d⟩) (fun _ => True) s t → t.depth = calls t.stack :=
  ⟨fun _ _ _ _ _ => session_of_not_fires hle, fun _ _ _ => serve_of_fires,
    fun _ _ _ => drainFrom_of_fires,
    fun _ _ _ _ hentry hsteps => (Level.steps hsteps (level_entry hentry)).depth⟩

/-! A program that would hide the failure if it could. -/

def firesWithin (cx : Context) : Nat → State → Bool
  | 0, s => !withinLimit cx.maxDepth s
  | n + 1, s =>
      !withinLimit cx.maxDepth s ||
        match step cx s with
        | .halt .. => false
        | .next t => firesWithin cx n t

theorem fires_of_firesWithin {p : Program} {d n : Nat} {s : State}
    (h : firesWithin ⟨p, d⟩ n s = true) : ∃ σ, Fires ⟨p, d⟩ s σ := by
  induction n generalizing s with
  | zero => exact ⟨s.store, s, .refl s, by simpa [firesWithin] using h, rfl⟩
  | succ n ih =>
      rw [firesWithin, Bool.or_eq_true] at h
      rcases h with hnow | hlater
      · exact ⟨s.store, s, .refl s, by simpa using hnow, rfl⟩
      · cases hstep : step ⟨p, d⟩ s with
        | halt r σ => simp [hstep] at hlater
        | next t =>
            obtain ⟨σ, hfires⟩ := ih (by simpa [hstep] using hlater)
            exact ⟨σ, hfires.of_step hstep⟩

/-- A run that ends with another result has not fired the check. -/
theorem not_fires_of_run {p : Program} {d fuel : Nat} {s : State} {v : Value} {σ : Store}
    (h : run ⟨p, d⟩ fuel s = some (.ok v, σ)) (τ : Store) : ¬ Fires ⟨p, d⟩ s τ := by
  intro hfires
  obtain ⟨enough, hrun⟩ := run_of_fires hfires
  have hends := run_mono (Nat.le_max_left fuel enough) h
  rw [hrun _ (Nat.le_max_right fuel enough)] at hends
  cases hends

/-- A function that calls itself under a handler, and one that gives 7. -/
def stubborn : Program where
  funcs := #[
    { name := "stubborn"
      body := [.tryCatch [.simple (.expr (.call (.lambda 1 .variant) [] .variant)) none]
        [.mk none [.simple (.ret (.int 7)) none]]] },
    { name := "seven", body := [.simple (.ret (.int 7)) none] }]

theorem limit_transparent_stubborn :
    (∃ σ, session ⟨stubborn, 1⟩ 50 (fun _ _ => .callFunc 2 []) 2 [] {} =
        some ([.returned (.ok (.int 7)), .returned (.ok (.int 7))], σ) ∧
      session ⟨stubborn, 9⟩ 50 (fun _ _ => .callFunc 2 []) 2 [] {} =
        some ([.returned (.ok (.int 7)), .returned (.ok (.int 7))], σ)) ∧
    ∃ σ fuel, serve ⟨stubborn, 9⟩ fuel (.callFunc 1 []) {} =
      some (.returned (.error (tooDeep 9)), σ) := by
  constructor
  · have hquiet : ¬ SessionFires ⟨stubborn, 1⟩ 50 (fun _ _ => .callFunc 2 []) 2 [] {} := by
      rintro (⟨σ, s, hentry, hfires⟩ | ⟨answer, σ, hserve, hrest⟩)
      · cases hentry
        exact not_fires_of_run (show run _ 50 _ = some (.ok (.int 7), _) from rfl) σ hfires
      · cases hserve
        rcases hrest with ⟨σ, s, hentry, hfires⟩ | ⟨_, _, _, hnone⟩
        · cases hentry
          exact not_fires_of_run (show run _ 50 _ = some (.ok (.int 7), _) from rfl) σ hfires
        · exact hnone
    exact ⟨_, rfl, (limit_transparent (by decide : 1 ≤ 9)).1 50 _ 2 [] {} hquiet⟩
  · have hfires : firesWithin ⟨stubborn, 9⟩ 100 (calling (.closure 0 1 []) [] {}) = true := by
      decide +kernel
    obtain ⟨σ, hfires⟩ := fires_of_firesWithin hfires
    obtain ⟨fuel, hserve⟩ :=
      (limit_transparent (Nat.le_refl 9)).2.1 (.callFunc 1 []) {} σ ⟨_, rfl, hfires⟩
    exact ⟨σ, fuel, hserve fuel (Nat.le_refl fuel)⟩

end Resumable.Machine
