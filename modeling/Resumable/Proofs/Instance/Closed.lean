import Resumable.Proofs.Continuation.Bodies
import Resumable.Proofs.Hygiene.Laid
import Resumable.Proofs.Instance.Twin

/-!
# Lowering looks no further out

A continuation has the variables that it was made for as parameters and locals,
or a function around it has them; a fragment finds labels and the object in the
function that made it. So a lowered function looks up no variable outside of its
own that it did not look up before.
-/

namespace Resumable

def Expr.Looks (L : FuncId → Prop) (x : Nat) (e : Expr) : Prop :=
  x ∈ e.vars.map Variable.id ∨ ∃ g ∈ e.literals, L g

def bodyLooks (L : FuncId → Prop) (x : Nat) (body : List Stmt) : Prop :=
  x ∈ (bodyRefs body).map Variable.id ∨ ∃ g ∈ bodyLiterals body, L g

def Code.vars (c : Code) : List Nat :=
  (c.params ++ c.locals).map Variable.id

section

variable {L : FuncId → Prop} {x : Nat}

theorem bodyLooks_iff {body : List Stmt} :
    bodyLooks L x body ↔ ∃ e ∈ visitedList body, e.Looks L x := by
  have hmem (e : Expr) : e ∈ allExprs body ↔ e ∈ visitedList body :=
    (visitedList_perm body).mem_iff.symm
  simp only [bodyLooks, Expr.Looks, bodyRefs, bodyLiterals, List.mem_map, List.mem_flatMap, hmem]
  constructor
  · rintro (⟨v, ⟨e, he, hv⟩, hx⟩ | ⟨g, ⟨e, he, hg⟩, hL⟩)
    · exact ⟨e, he, .inl ⟨v, hv, hx⟩⟩
    · exact ⟨e, he, .inr ⟨g, hg, hL⟩⟩
  · rintro ⟨e, he, ⟨v, hv, hx⟩ | ⟨g, hg, hL⟩⟩
    · exact .inl ⟨v, ⟨e, he, hv⟩, hx⟩
    · exact .inr ⟨g, ⟨e, he, hg⟩, hL⟩

theorem Expr.exists_looks {R : Expr → Expr → Prop} {es es' : List Expr} (h : List.Forall₂ R es es')
    (hx : ∃ e' ∈ es', e'.Looks L x) (hR : ∀ e e', R e e' → e'.Looks L x → e.Looks L x) :
    ∃ e ∈ es, e.Looks L x := by
  obtain ⟨e', he', hx⟩ := hx
  induction h with
  | nil => cases he'
  | @cons e d es ds hfirst _ ih =>
      rcases List.mem_cons.1 he' with rfl | he'
      · exact ⟨e, .head _, hR e e' hfirst hx⟩
      · obtain ⟨e, he, hx⟩ := ih he'
        exact ⟨e, .tail _ he, hx⟩

/-- An expression looks up what its operands do. -/
theorem Expr.Looks.of_child {d e : Expr} (hd : d ∈ e.children) (h : d.Looks L x) : e.Looks L x := by
  have hnodes := Expr.nodes_subset hd
  rcases h with hx | ⟨g, hg, hL⟩
  · exact .inl (List.map_subset _ (List.filterMap_subset _ hnodes) hx)
  · exact .inr ⟨g, List.filterMap_subset _ hnodes hg, hL⟩

theorem bodyLooks.of_append {first rest : List Stmt} (h : bodyLooks L x (first ++ rest)) :
    bodyLooks L x first ∨ bodyLooks L x rest := by
  simp only [bodyLooks, bodyRefs_append, bodyLiterals_append] at h ⊢
  simpa [or_and_right, exists_or, or_assoc, or_comm, or_left_comm] using h

theorem bodyLooks.imp {L' : FuncId → Prop} {body : List Stmt}
    (himp : ∀ g ∈ bodyLiterals body, L g → L' g) (h : bodyLooks L x body) : bodyLooks L' x body := by
  rcases h with hx | ⟨g, hg, hL⟩
  · exact .inl hx
  · exact .inr ⟨g, hg, himp g hg hL⟩

end

namespace Program

/-- A function looks up a variable outside of its own, and what mentions it is less
than so many functions deep. -/
def LooksWithin (p : Program) (x : Nat) : Nat → FuncId → Prop
  | 0, _ => False
  | n + 1, fn => ∃ c, p.code? fn = some c ∧ x ∉ c.vars ∧ bodyLooks (p.LooksWithin x n) x c.body

section

variable {p : Program} {x n : Nat} {fn : FuncId}

theorem LooksWithin.succ (h : p.LooksWithin x n fn) : p.LooksWithin x (n + 1) fn := by
  induction n generalizing fn with
  | zero => exact h.elim
  | succ n ih =>
      obtain ⟨c, hc, hown, hbody⟩ := h
      exact ⟨c, hc, hown, hbody.imp fun _ _ => ih⟩

theorem LooksWithin.of_code {c : Code} (hc : p.code? fn = some c) (h : p.LooksWithin x n fn) :
    x ∉ c.vars ∧ bodyLooks (p.LooksWithin x n) x c.body := by
  cases n with
  | zero => exact h.elim
  | succ n =>
      obtain ⟨c', hc', hown, hbody⟩ := h
      cases hc.symm.trans hc'
      exact ⟨hown, hbody.imp fun _ _ => succ⟩

/-- A function looks up a variable if its code does. -/
theorem Looks.of_code {c : Code} (hc : p.code? fn = some c) (hown : x ∉ c.vars)
    (h : bodyLooks (p.Looks x) x c.body) : p.Looks x fn := by
  obtain ⟨f, hf, rfl⟩ := Option.map_eq_some_iff.1 hc
  rcases h with hx | ⟨g, hg, hL⟩
  · exact .mentions hf hx hown
  · exact .inner hf hg hL hown

theorem Looks.within (h : p.Looks x fn) : ∃ n, p.LooksWithin x n fn := by
  induction h with
  | @mentions fn f hf hx hown => exact ⟨1, f.code, congrArg (Option.map Func.code) hf, hown, .inl hx⟩
  | @inner fn g f hf hg _ hown ih =>
      obtain ⟨n, hn⟩ := ih
      exact ⟨n + 1, f.code, congrArg (Option.map Func.code) hf, hown, .inr ⟨g, hg, hn⟩⟩

end

end Program

/-! ## Continuations -/

namespace Continuation

section

variable {L : FuncId → Prop} {x : Nat} {e f : Expr} {task : Task}

theorem looks_deliver {k : Option Expr} (h : (deliver k e).Looks L x) :
    e.Looks L x ∨ ∃ f ∈ k, f.Looks L x := by
  cases k with
  | none => exact .inl h
  | some f =>
      simp only [deliver, Expr.Looks, Expr.vars_call, Expr.literals_call] at h
      simpa [Expr.Looks, or_and_right, exists_or, or_assoc, or_comm, or_left_comm] using h

theorem not_looks_ref {q : Variable} (hq : x ≠ q.id) : ¬ (Expr.ref q).Looks L x := by
  simpa [Expr.Looks, Expr.literals, Expr.nodes, Expr.lambdaId?] using hq

/-- Operations for one task mention their operands and what the task mentions. -/
theorem Operates.vars_of_task {es fs : List Expr} (he : Operates e task es)
    (hf : Operates f task fs) : f.vars ⊆ fs.flatMap Expr.vars ++ e.vars := by
  cases he <;> cases hf <;> simp

theorem looks_lambda {c : FuncId} {t : Ty} (h : (Expr.lambda c t).Looks L x) : L c := by
  simpa [Expr.Looks] using h

theorem bodyLooks_ret {e : Expr} (h : bodyLooks L x [.ret e]) : e.Looks L x := by
  simpa [bodyLooks, Expr.Looks, Simple.slots] using h

theorem looks_conditional {a b : Expr} {t : Ty} (h : (Expr.conditional e a b t).Looks L x) :
    e.Looks L x ∨ a.Looks L x ∨ b.Looks L x := by
  simp only [Expr.Looks, Expr.vars_conditional, Expr.literals_conditional] at h
  simpa [Expr.Looks, or_and_right, exists_or, or_assoc, or_comm, or_left_comm] using h

/-- Ways that share a continuation look up what the continuation does. -/
theorem Shares.looks {k shared : Option Expr} {locals : List Variable} {prologue : List Stmt}
    (h : Shares k locals prologue shared) (hown : x ∉ locals.map Variable.id)
    (hx : bodyLooks L x prologue ∨ ∃ f ∈ shared, f.Looks L x) : ∃ f ∈ k, f.Looks L x := by
  cases h with
  | lambda fn t s =>
      have hs : x ≠ s.id := by simpa using hown
      rcases hx with hx | ⟨_, ⟨⟩, hx⟩
      · exact ⟨_, rfl, by simpa [bodyLooks, Expr.Looks, Stmt.setVar, Simple.slots, hs] using hx⟩
      · exact absurd hx (not_looks_ref hs)
  | same => exact hx.resolve_left (by simp [bodyLooks])

theorem Operates.looks_rebuilt {es : List Expr} {qs : List Variable} (he : Operates e task es)
    (hf : Operates f task (qs.map .ref)) (h : f.Looks L x) : e.Looks L x ∨ x ∈ qs.map Variable.id := by
  rcases h with hx | ⟨g, hg, -⟩
  · obtain ⟨v, hv, rfl⟩ := List.mem_map.1 hx
    rcases List.mem_append.1 (he.vars_of_task hf hv) with hv | hv
    · rw [List.flatMap_map] at hv
      obtain ⟨q, hq, hv⟩ := List.mem_flatMap.1 hv
      cases List.mem_singleton.1 hv
      exact .inr (List.mem_map_of_mem hq)
    · exact .inl (.inl (List.mem_map_of_mem hv))
  · rw [hf.literals_eq, List.flatMap_map] at hg
    obtain ⟨q, -, hg⟩ := List.mem_flatMap.1 hg
    cases hg

/-- A rebuilt expression looks up what the expression or its continuation does: the
variables drawn for it are parameters and locals of the functions that mention them. -/
theorem Passes.looks {p : Program} {n : Nat} {e e' : Expr} {k : Option Expr}
    (hL : ∀ fn c, p.code? fn = some c → L fn → x ∉ c.vars ∧ bodyLooks L x c.body)
    (h : Passes p n e k e') (hx : e'.Looks L x) : e.Looks L x ∨ ∃ f ∈ k, f.Looks L x := by
  refine @Passes.rec p (fun _ e k e' _ => e'.Looks L x → e.Looks L x ∨ ∃ f ∈ k, f.Looks L x)
    (fun _ es qs inner e' _ => e'.Looks L x →
      (∃ e ∈ es, e.Looks L x) ∨ x ∉ qs.map Variable.id ∧ inner.Looks L x)
    (fun _ q k y y' _ => x ≠ q.id → y'.Looks L x → (∃ e ∈ y, e.Looks L x) ∨ ∃ f ∈ k, f.Looks L x)
    ?_ ?_ ?_ ?_ ?_ ?_ ?_ n e k e' h hx
  · intro _ e k _ hx
    exact looks_deliver hx
  · intro n m e f e' task y es q qs k he hf _ _ _ ih hx
    rcases ih hx with ⟨d, hd, hx⟩ | ⟨hown, hx⟩
    · exact .inl (hx.of_child (he.mem_children hd))
    rcases looks_deliver hx with hx | hx
    · exact .inl ((he.looks_rebuilt hf hx).resolve_right hown)
    · exact .inr hx
  · intro n m m' e y e' task yes no q locals prologue k shared a b c result t he hshares _ _ _ _ hc _ _
      iha ihb ihe hx
    obtain ⟨hchild, hyes, hno⟩ := he.mem_children
    rcases ihe hx with hx | ⟨_, ⟨⟩, hx⟩
    · exact .inl (hx.of_child hchild)
    obtain ⟨hown, hbody⟩ := hL c _ hc (looks_lambda hx)
    simp only [Code.vars, List.singleton_append, List.map_cons, List.mem_cons, not_or] at hown
    rcases hbody.of_append with hx | hx
    · exact .inr (hshares.looks hown.2 (.inl hx))
    have hway {o : Option Expr} (ho : ∀ y ∈ o, y ∈ e.children)
        (hx : (∃ y ∈ o, y.Looks L x) ∨ ∃ f ∈ shared, f.Looks L x) :
        e.Looks L x ∨ ∃ f ∈ k, f.Looks L x := by
      rcases hx with ⟨y, hy, hx⟩ | hx
      · exact .inl (hx.of_child (ho y hy))
      · exact .inr (hshares.looks hown.2 (.inr hx))
    rcases looks_conditional (bodyLooks_ret hx) with hx | hx | hx
    · exact absurd hx (not_looks_ref hown.1)
    · exact hway hyes (iha hown.1 hx)
    · exact hway hno (ihb hown.1 hx)
  · intro _ inner hx
    exact .inr ⟨List.not_mem_nil, hx⟩
  · intro m m' e e' rest inner es q qs c t _ hc _ _ ihrest ihe hx
    rcases ihe hx with hx | ⟨_, ⟨⟩, hx⟩
    · exact .inl ⟨e, .head _, hx⟩
    obtain ⟨hown, hbody⟩ := hL c _ hc (looks_lambda hx)
    rcases ihrest (bodyLooks_ret hbody) with ⟨d, hd, hx⟩ | ⟨hrest, hx⟩
    · exact .inl ⟨d, .tail _ hd, hx⟩
    · exact .inr ⟨by simp_all [Code.vars], hx⟩
  · intro _ q k hq hx
    rcases looks_deliver hx with hx | hx
    · exact absurd hx (not_looks_ref hq)
    · exact .inr hx
  · intro _ _ q k y y' _ _ ih hq hx
    rcases ih hx with hx | hx
    · exact .inl ⟨y, rfl, hx⟩
    · exact .inr hx

end

end Continuation

/-! ## Lowered functions -/

theorem Program.Owned.isSome_literal {p : Program} (h : p.Owned) {fn g : FuncId}
    (hg : g ∈ bodyLiterals (p.bodyOf fn)) : (p.func? g).isSome := by
  have hparent := h.owned fn g (mem_bodyClosures_iff.2 hg)
  rw [Program.parent] at hparent
  split at hparent
  · next f hf => exact Option.isSome_of_eq_some hf
  · subst hparent
    cases hg

namespace Pass

open Program (LooksWithin)

variable {builtins : Option Generator.Builtins} {id : FuncId} {w w' : Workspace} {x : Nat}

/-- What a converted function looks up outside of its own it looked up before. -/
theorem looks_of_converted {config : Config} (hid : (w.program.func? id).isSome)
    (happart : w.program.Apart id) (howned : w.program.Owned) (h : Converted config id w w')
    {fn : FuncId} (hfn : fn ≤ w.program.size) (hx : w'.program.Looks x fn) : w.program.Looks x fn := by
  unfold Converted at h
  split at h
  · rwa [h]
  obtain ⟨body, w₁, hrun, rfl⟩ := convertBody_eq_ok h
  obtain ⟨hgrown, hpasses⟩ := Continuation.passes_of_replaceSlots hrun
  have hslots := hpasses _ (Continuation.keeps_refill hid hrun)
  have hknown {fn g : FuncId} (hg : g ∈ bodyLiterals (w.program.bodyOf fn)) : g ≤ w.program.size :=
    (Program.isSome_func?.1 (howned.isSome_literal hg)).2
  obtain ⟨n, hn⟩ := hx.within
  clear hx
  -- the literals of old functions are old, so that all new functions are continuations of the body
  induction n generalizing fn with
  | zero => exact hn.elim
  | succ n ih =>
      obtain ⟨c, hc, hown, hbody⟩ := hn
      by_cases hne : fn = id
      · subst hne
        rw [Program.code?_refill_self, hgrown.code fn hfn] at hc
        obtain ⟨c₀, hc₀, rfl⟩ := Option.map_eq_some_iff.1 hc
        obtain ⟨e, he, hx⟩ := Expr.exists_looks hslots (bodyLooks_iff.1 hbody) (by
          rintro e e' ⟨m, -, hpasses⟩ hx
          exact (hpasses.looks (fun _ _ => LooksWithin.of_code) hx).resolve_right (by simp))
        have hold := Program.bodyOf_of_eq_some hc₀
        refine .of_code hc₀ hown ((bodyLooks_iff.2 ⟨e, hold ▸ he, hx⟩).imp fun g hg => ih ?_)
        exact hknown (hold ▸ hg)
      · rw [code?_refill_of_replaceSlots happart hrun hne, hgrown.code fn hfn] at hc
        have hold := Program.bodyOf_of_eq_some hc
        exact .of_code hc hown (hbody.imp fun g hg => ih (hknown (hold ▸ hg)))

/-- What a function whose control flow was lowered looks up outside of its own it
looked up before; and what a fragment looks up outside of the function. -/
theorem looks_of_laid {more : List Variable} {c₀ : Code} (hc₀ : w.program.code? id = some c₀)
    (howned : w.program.Owned) (h : Laid id more w w') {n : Nat} {fn : FuncId}
    (hx : w'.program.LooksWithin x n fn) :
    (fn ≤ w.program.size → w.program.Looks x fn) ∧
      (w.program.size < fn → x ∉ c₀.vars → x ∉ more.map Variable.id → w.program.Looks x id) := by
  have hknown {fn g : FuncId} (hg : g ∈ bodyLiterals (w.program.bodyOf fn)) : g ≤ w.program.size :=
    (Program.isSome_func?.1 (howned.isSome_literal hg)).2
  have hbody₀ := Program.bodyOf_of_eq_some hc₀
  induction n generalizing fn with
  | zero => exact hx.elim
  | succ n ih =>
      obtain ⟨c, hc, hown, hbody⟩ := hx
      -- the function and its fragments mention what the function did and the new variables
      have hlaid (hfn : fn = id ∨ w.program.size < fn)
          (hmentioned : Mentioned (fun v => v ∈ bodyRefs (w.program.bodyOf id) ∨ v ∈ more) c.body)
          (hx₀ : x ∉ c₀.vars) (hmore : x ∉ more.map Variable.id) : w.program.Looks x id := by
        rcases hbody with hx | ⟨g, hg, hx⟩
        · obtain ⟨v, hv, rfl⟩ := List.mem_map.1 hx
          rcases hmentioned v (mem_mentions_of_refs hv) with hv | hv
          · exact .of_code hc₀ hx₀ (.inl (hbody₀ ▸ List.mem_map_of_mem hv))
          · exact absurd (List.mem_map_of_mem hv) hmore
        · rw [← Program.bodyOf_of_eq_some hc] at hg
          rcases h.literals fn hfn g hg with hnew | hold
          · exact (ih hx).2 hnew hx₀ hmore
          · exact .of_code hc₀ hx₀ (.inr ⟨g, hbody₀ ▸ hold, (ih hx).1 (hknown hold)⟩)
      refine ⟨fun hfn => ?_, fun hfn hx₀ hmore => ?_⟩
      · by_cases hne : fn = id
        · subst hne
          obtain ⟨body, hcode, hmentioned⟩ := h.own
          rw [hc, hc₀] at hcode
          cases hcode
          simp only [Code.vars, List.map_append, List.mem_append, not_or] at hown
          have hx₀ : x ∉ c₀.vars := by
            rw [Code.vars, List.map_append, List.mem_append, not_or]
            exact ⟨hown.1, hown.2.1⟩
          exact hlaid (.inl rfl) hmentioned hx₀ hown.2.2
        · rw [h.others fn hfn hne] at hc
          exact .of_code hc hown (hbody.imp fun g hg hg' =>
            (ih hg').1 (hknown (Program.bodyOf_of_eq_some hc ▸ hg)))
      · exact hlaid (.inr hfn) (h.fragments fn c hfn hc).2.2.2 hx₀ hmore

/-- What a lowered function looks up outside of its own it looked up before. -/
theorem looks_of_transform {config : Config} {stats : Stats} (howned : w.program.Owned)
    (happart : w.program.Apart id) (h : transform config builtins id w = .ok stats w')
    (hx : w'.program.Looks x id) : w.program.Looks x id := by
  obtain ⟨f, w₁, hf, hconverted, hflow⟩ := flow_of_transform h
  have hid := Option.isSome_of_eq_some hf
  have hsettled := settled_of_converted hid happart howned hconverted
  obtain ⟨f₁, hf₁⟩ := Option.isSome_iff_exists.1 hsettled.known
  obtain ⟨more, hlaid⟩ := laid_of_flow hflow hsettled.known
  obtain ⟨n, hn⟩ := hx.within
  have hx₁ := (looks_of_laid (congrArg (Option.map Func.code) hf₁) hsettled.all hlaid hn).1
    (Program.isSome_func?.1 hsettled.known).2
  exact looks_of_converted hid happart howned hconverted (Program.isSome_func?.1 hid).2 hx₁

end Pass

end Resumable
