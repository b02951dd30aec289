import Resumable.Proofs.Lowering.Effect

/-!
# What holds after work that may fail

Work on a workspace may stop in the middle and leave what it has changed.
Statements about it therefore say two things: what holds of the result if the
work succeeds, and what holds of the workspace it leaves behind if it fails.
-/

namespace Resumable

section

variable {ε σ α β : Type}

/-- After work `done` holds of its result, or `failed` of what a failure left. -/
def After (x : EStateM ε σ α) (s : σ) (done : α → σ → Prop) (failed : σ → Prop) : Prop :=
  match x s with
  | .ok a t => done a t
  | .error _ t => failed t

variable {x : EStateM ε σ α} {s : σ} {done done' : α → σ → Prop} {failed failed' : σ → Prop}

theorem After.ok (h : After x s done failed) {a : α} {t : σ} (hx : x s = .ok a t) : done a t := by
  unfold After at h
  rwa [hx] at h

theorem After.error (h : After x s done failed) {e : ε} {t : σ} (hx : x s = .error e t) :
    failed t := by
  unfold After at h
  rwa [hx] at h

theorem After.intro (hok : ∀ a t, x s = .ok a t → done a t)
    (herror : ∀ e t, x s = .error e t → failed t) : After x s done failed := by
  unfold After
  split
  · next a t hx => exact hok a t hx
  · next e t hx => exact herror e t hx

theorem After.of_ok {a : α} {t : σ} (hx : x s = .ok a t) (h : done a t) : After x s done failed := by
  unfold After
  rwa [hx]

theorem After.imp (h : After x s done failed) (hdone : ∀ a t, done a t → done' a t)
    (hfailed : ∀ t, failed t → failed' t) : After x s done' failed' :=
  .intro (fun a t hx => hdone a t (h.ok hx)) fun _ t hx => hfailed t (h.error hx)

theorem After.pure {a : α} (h : done a s) : After (pure a : EStateM ε σ α) s done failed := h

theorem After.throw {e : ε} (h : failed s) : After (throw e : EStateM ε σ α) s done failed := h

theorem After.bind {f : α → EStateM ε σ β} {wanted : β → σ → Prop} (h : After x s done failed)
    (hf : ∀ a t, done a t → After (f a) t wanted failed) : After (x >>= f) s wanted failed := by
  change match EStateM.bind x f s with
    | .ok b t => wanted b t
    | .error _ t => failed t
  unfold EStateM.bind
  cases hx : x s with
  | ok a t => exact hf a t (h.ok hx)
  | error e t => exact h.error hx

/-- Work that starts with a step of a known outcome. -/
theorem After.bind_ok {f : α → EStateM ε σ β} {wanted : β → σ → Prop} {a : α} {t : σ}
    (hx : x s = .ok a t) (h : After (f a) t wanted failed) : After (x >>= f) s wanted failed := by
  change match EStateM.bind x f s with
    | .ok b t => wanted b t
    | .error _ t => failed t
  unfold EStateM.bind
  rw [hx]
  exact h

/-- Work that starts with a step which may be left out. -/
theorem After.ite_bind {c : Prop} [Decidable c] {y : EStateM ε σ PUnit} {f : PUnit → EStateM ε σ β}
    {held : PUnit → σ → Prop} {wanted : β → σ → Prop}
    (h : After (if c then y else Pure.pure ⟨⟩) s held failed)
    (hf : ∀ a t, held a t → After (f a) t wanted failed) :
    After (if c then y >>= f else f ⟨⟩) s wanted failed := by
  by_cases hc : c
  · rw [if_pos hc] at h ⊢
    exact h.bind hf
  · rw [if_neg hc] at h ⊢
    exact hf _ _ h

/-- What each step of a row keeps up, the whole row keeps up. -/
theorem After.forM {γ : Type} {I : σ → Prop} {f : γ → EStateM ε σ PUnit} (xs : List γ)
    (hstep : ∀ x ∈ xs, ∀ s, I s → After (f x) s (fun _ t => I t) failed) (hs : I s) :
    After (xs.forM f) s (fun _ t => I t) failed := by
  induction xs generalizing s with
  | nil => exact hs
  | cons x xs ih =>
      obtain ⟨hx, hxs⟩ := List.forall_mem_cons.1 hstep
      exact (hx s hs).bind fun _ t ht => ih hxs ht

end

namespace Lowering

variable {α : Type} {w : Workspace} {done : α → Workspace → Prop} {failed : Workspace → Prop}

theorem after_lift {r : Except Failure α} (hok : ∀ a, r = .ok a → done a w) (hw : failed w) :
    After (lift r) w done failed := by
  cases r with
  | ok a => exact hok a rfl
  | error e => exact hw

theorem after_withNames {m : EStateM Failure Names α}
    (hok : ∀ a names, m w.names = .ok a names → done a { w with names })
    (hw : ∀ names, failed { w with names }) : After (withNames m) w done failed := by
  unfold After withNames
  cases h : m w.names with
  | ok a names => exact hok a names h
  | error e names => exact hw names

theorem after_lambda {id : FuncId} {done : Expr → Workspace → Prop}
    (h : ∀ t, done (.lambda id t) w) : After (lambda id) w done failed := by
  change done (w.program.lambda id) w
  unfold Program.lambda
  split
  · exact h _
  · exact h _

end Lowering

end Resumable
