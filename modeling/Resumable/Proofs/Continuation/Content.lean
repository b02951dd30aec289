import Resumable.Proofs.Continuation.Upkeep

/-!
# What converting expressions makes

A conversion leaves the code of the functions that are there and makes
continuations. These declare only variables drawn on the way, and a body does no
more than to set a shared continuation and return.
-/

namespace Resumable

namespace Continuation

/-- A variable drawn since some moment: its number and its name count on
together. -/
def Drawn (w₀ : Workspace) (v : Variable) : Prop :=
  ∃ i, v.id = w₀.program.varCount + i ∧ v.name = "$a" ++ toString (w₀.names.fresh + i + 1)

/-- A variable that bodies may mention: one of those before, or one drawn so
far. -/
def Mentionable (w₀ : Workspace) (Var : Variable → Prop) (count : Nat) (v : Variable) : Prop :=
  Var v ∨ Drawn w₀ v ∧ v.id < count

structure Shape (w₀ : Workspace) (Var : Variable → Prop) (count : Nat) (c : Code) : Prop where
  body : c.body = [] ∨ Bodied c.body
  refs : ∀ v ∈ bodyRefs c.body, Mentionable w₀ Var count v
  drawn : ∀ v ∈ c.params ++ c.locals, Drawn w₀ v ∧ v.id < count
  distinct : ((c.params ++ c.locals).map Variable.id).Nodup

/-- What a conversion has made since some moment, with drawn variables and those
that bodies may mention in hand. -/
structure Continued (w₀ : Workspace) (Var : Variable → Prop) (ps vs : List Variable)
    (w : Workspace) : Prop where
  size : w₀.program.size ≤ w.program.size
  old : ∀ fn, fn ≤ w₀.program.size → w.program.code? fn = w₀.program.code? fn
  new : ∀ fn c, w₀.program.size < fn → w.program.code? fn = some c →
    Shape w₀ Var w.program.varCount c
  hand : ∀ v ∈ ps, Drawn w₀ v ∧ v.id < w.program.varCount
  mentionable : ∀ v ∈ vs, Mentionable w₀ Var w.program.varCount v
  varCount : w₀.program.varCount ≤ w.program.varCount
  fresh : w.names.fresh + w₀.program.varCount = w₀.names.fresh + w.program.varCount
  counters : w.names.counters = w₀.names.counters
  shareCount : w.program.shareCount = w₀.program.shareCount

section

variable {w₀ w : Workspace} {Var : Variable → Prop} {ps vs : List Variable}

theorem Mentionable.mono {count count' : Nat} {v : Variable} (h : Mentionable w₀ Var count v)
    (hle : count ≤ count') : Mentionable w₀ Var count' v :=
  h.imp_right fun h => ⟨h.1, Nat.lt_of_lt_of_le h.2 hle⟩

theorem Continued.start (w₀ : Workspace) (hvs : ∀ v ∈ vs, Var v) : Continued w₀ Var [] vs w₀ where
  size := Nat.le_refl _
  old _ _ := rfl
  new fn c hfn hc := by
    obtain ⟨f, hf, -⟩ := Option.map_eq_some_iff.1 hc
    have hle := (Program.isSome_func?.1 (Option.isSome_of_eq_some hf)).2
    omega
  hand v hv := absurd hv List.not_mem_nil
  mentionable v hv := .inl (hvs v hv)
  varCount := Nat.le_refl _
  fresh := rfl
  counters := rfl
  shareCount := rfl

theorem Shape.mono {count count' : Nat} {c : Code} (h : Shape w₀ Var count c)
    (hle : count ≤ count') : Shape w₀ Var count' c :=
  { h with
    refs := fun v hv => (h.refs v hv).mono hle
    drawn := fun v hv => ⟨(h.drawn v hv).1, Nat.lt_of_lt_of_le (h.drawn v hv).2 hle⟩ }

theorem Continued.drawn (h : Continued w₀ Var ps vs w) (type : Ty) :
    Drawn w₀ (Lowering.drawn w type) := by
  have hvars := h.varCount
  have hfresh := h.fresh
  refine ⟨w.program.varCount - w₀.program.varCount, ?_, ?_⟩
  · change w.program.varCount = _
    omega
  · have hcount : w.names.fresh + 1 =
        w₀.names.fresh + (w.program.varCount - w₀.program.varCount) + 1 := by omega
    rw [← hcount]
    rfl

/-- A variable is drawn. -/
theorem Continued.next (h : Continued w₀ Var ps vs w) (type : Ty) :
    Continued w₀ Var (Lowering.drawn w type :: ps) (Lowering.drawn w type :: vs)
      { w with
        program := { w.program with varCount := w.program.varCount + 1 }
        names := w.names.freshName.2 } where
  size := h.size
  old := h.old
  new fn c hfn hc := (h.new fn c hfn hc).mono (Nat.le_succ _)
  hand := by
    refine List.forall_mem_cons.2 ⟨⟨h.drawn type, Nat.lt_succ_self _⟩, fun v hv => ?_⟩
    exact ⟨(h.hand v hv).1, Nat.lt_succ_of_lt (h.hand v hv).2⟩
  mentionable := by
    refine List.forall_mem_cons.2 ⟨.inr ⟨h.drawn type, Nat.lt_succ_self _⟩, fun v hv => ?_⟩
    exact (h.mentionable v hv).mono (Nat.le_succ _)
  varCount := Nat.le_succ_of_le h.varCount
  fresh := by
    have hfresh := h.fresh
    change w.names.fresh + 1 + _ = _ + (w.program.varCount + 1)
    omega
  counters := h.counters
  shareCount := h.shareCount

/-- A change of a continuation, before which variables may have been drawn. -/
theorem Continued.modifyNew {w₁ w' : Workspace} (h : Continued w₀ Var ps vs w)
    {ps' vs' : List Variable} (hdrawn : Continued w₀ Var ps' vs' w₁) {fn : FuncId}
    (hfn : w₀.program.size < fn)
    (effect : Code → Code)
    (hcode : ∀ a, w'.program.code? a =
      if a = fn then (w.program.code? a).map effect else w.program.code? a)
    (hshape : ∀ c, Shape w₀ Var w.program.varCount c → Shape w₀ Var w₁.program.varCount (effect c))
    (hvars : w.program.varCount ≤ w₁.program.varCount) (hsize : w'.program.size = w.program.size)
    (hcount : w'.program.varCount = w₁.program.varCount)
    (hshares : w'.program.shareCount = w₁.program.shareCount) (hnames : w'.names = w₁.names) :
    Continued w₀ Var ps' vs' w' where
  size := hsize ▸ h.size
  old a ha := by
    rw [hcode, if_neg (Nat.ne_of_lt (Nat.lt_of_le_of_lt ha hfn))]
    exact h.old a ha
  new a c ha hc := by
    rw [hcount]
    rw [hcode] at hc
    split at hc
    · obtain ⟨d, hd, rfl⟩ := Option.map_eq_some_iff.1 hc
      exact hshape d (h.new a d ha hd)
    · exact (h.new a c ha hc).mono hvars
  hand := hcount ▸ hdrawn.hand
  mentionable := hcount ▸ hdrawn.mentionable
  varCount := hcount ▸ hdrawn.varCount
  fresh := by rw [hnames, hcount, hdrawn.fresh]
  counters := by rw [hnames, hdrawn.counters]
  shareCount := hshares.trans hdrawn.shareCount

/-- A drawn variable becomes a local. -/
theorem Shape.addLocal {count : Nat} {c : Code} (h : Shape w₀ Var count c) {v : Variable}
    (hv : Drawn w₀ v) (hid : v.id = count) :
    Shape w₀ Var (count + 1) { c with locals := c.locals ++ [v] } where
  body := h.body
  refs v hv := (h.refs v hv).mono (Nat.le_succ _)
  drawn u hu := by
    rw [← List.append_assoc, List.mem_append, List.mem_singleton] at hu
    rcases hu with hu | rfl
    · exact ⟨(h.drawn u hu).1, Nat.lt_succ_of_lt (h.drawn u hu).2⟩
    · exact ⟨hv, by omega⟩
  distinct := by
    have hnew : ∀ i ∈ (c.params ++ c.locals).map Variable.id, i ≠ count := by
      intro i hi
      obtain ⟨u, hu, rfl⟩ := List.mem_map.1 hi
      exact Nat.ne_of_lt (h.drawn u hu).2
    rw [← List.append_assoc, List.map_append, List.map_cons, List.map_nil, hid]
    refine List.nodup_append.2 ⟨h.distinct, by simp, fun i hi j hj => ?_⟩
    rw [List.mem_singleton.1 hj]
    exact hnew i hi

theorem continued_convert (w₀ : Workspace) (Var : Variable → Prop) (owner : FuncId) :
    Upkeep owner (fun _ => Continued w₀ Var) (fun _ => True) (w₀.program.size < ·) where
  failed _ := trivial
  fewer _ h := h
  narrow hps hvs h :=
    { h with
      hand := fun v hv => h.hand v (hps hv)
      mentionable := fun v hv => h.mentionable v (hvs hv) }
  fresh type h := h.next type
  begun {_ ps vs w param} result hparam h := by
    have hsize := h.size
    refine ⟨Nat.lt_succ_of_le hsize, ?_, ?_, ?_, ?_, ?_, ?_, ?_, h.counters, ?_⟩
    · change w₀.program.size ≤ (w.program.newFunc owner "" [param] result).2.size
      rw [Program.newFunc_size]
      omega
    · intro fn hfn
      refine (Program.code?_newFunc ..).trans ?_
      rw [if_neg (by omega)]
      exact h.old fn hfn
    · intro fn c hfn hc
      change (w.program.newFunc owner "" [param] result).2.code? fn = some c at hc
      change Shape w₀ Var (w.program.newFunc owner "" [param] result).2.varCount c
      rw [Program.newFunc_varCount]
      rw [Program.code?_newFunc] at hc
      split at hc
      · cases hc
        exact ⟨.inl rfl, by simp, by simpa using h.hand param hparam, by simp⟩
      · exact h.new fn c hfn hc
    · intro v hv
      refine ⟨(h.hand v hv).1, Nat.lt_of_lt_of_eq (h.hand v hv).2 ?_⟩
      exact (Program.newFunc_varCount ..).symm
    · intro v hv
      exact (h.mentionable v hv).mono (Nat.le_of_eq (Program.newFunc_varCount ..).symm)
    · exact Nat.le_trans h.varCount (Nat.le_of_eq (Program.newFunc_varCount ..).symm)
    · exact h.fresh.trans (congrArg (w₀.names.fresh + ·) (Program.newFunc_varCount ..).symm)
    · exact (Program.newFunc_shareCount ..).trans h.shareCount
  declared {_ ps vs w fn} type hfn h := by
    refine After.of_ok (Lowering.freshLocal_eq fn type w) ?_
    have hnext := h.next type
    refine h.modifyNew { hnext with hand := fun v hv => hnext.hand v (.tail _ hv) } hfn
      (fun c => { c with locals := c.locals ++ [Lowering.drawn w type] })
      (fun a => Program.code?_addLocal ..) (fun c hc => hc.addLocal (h.drawn type) rfl)
      (Nat.le_succ _) (Program.modifyFunc_size ..) (Program.modifyFunc_varCount ..)
      (Program.modifyFunc_shareCount ..) rfl
  finished {_ ps vs w fn body} hfn hbodied hrefs h := by
    have hadopt : After (Lowering.adoptBody .cps "adopting continuation closure" fn body) w
        (fun _ w' => Continued w₀ Var ps vs w') fun _ => True := by
      refine .intro (fun _ w' hrun => ?_) fun _ _ _ => trivial
      have hkeeps := Lowering.keeps_of_adoptBody hrun
      refine h.modifyNew h hfn (fun c => { c with body }) (fun a => ?_) (fun c hc => ?_)
        (Nat.le_refl _) (hkeeps.program.size.trans (Program.modifyFunc_size ..))
        (hkeeps.program.varCount.trans (Program.modifyFunc_varCount ..))
        (hkeeps.program.shareCount.trans (Program.modifyFunc_shareCount ..)) hkeeps.names
      · rw [hkeeps.program.code]
        exact Program.code?_setBody ..
      · exact { hc with body := .inr hbodied, refs := fun v hv => h.mentionable v (hrefs hv) }
    exact hadopt.bind fun _ _ h => After.pure h

end

end Continuation

end Resumable
