import Resumable.Proofs.Generator.Compiled
import Resumable.Proofs.Scope

/-!
# Generator objects

A call of a compiled generator makes an object and the fragments, calls nothing
and does nothing that can be seen. The frame of the call holds the object and, in
the variable of each label, its fragment.
-/

namespace Resumable

open Machine

theorem Store.lookup_of_binding {σ : Store} {j : FrameId} {v : Variable} {x : Value}
    (h : σ.binding j v.id = some x) (env : Env) : σ.lookup (j :: env) v = .ok x := by
  simp [lookup_eq, find?, frameOf?_cons, h]

theorem Pairing.lt_of_same_knows {σ : Store} {j : FrameId} (h : (Pairing.same σ).Knows j) :
    j < σ.frames.size := by
  rcases h with h | ⟨i, rfl, hi⟩
  · exact h.elim
  · exact hi

namespace Generator

open Elimination

/-! ## Settings -/

section

variable {p : Program} {types : TypeTable} {object : Variable} {env : Env} {rest : List Stmt}
  {stack : List Waiting} {depth : Nat} {σ : Store}

/-- A new object in a variable. -/
theorem runs_construct {cls : ClassId} {j : FrameId} (h : (σ.binding j object.id).isSome) :
    Steps (free p) (fun s => callee? s = none)
      ⟨.complete .normal,
        .block (.setVar object (.construct (some cls) []) :: rest) (j :: env) :: stack,
        depth, σ⟩
      ⟨.complete .normal, .block rest (j :: env) :: stack, depth,
        (σ.newObject (newFields ⟨p, 0⟩ (some cls))).2.setBinding j object
          (.object σ.objects.size (some cls))⟩ :=
  .head rfl rfl (.head rfl rfl (.head rfl rfl (.head rfl rfl
    (.head rfl (free_assign h) (.single rfl rfl)))))

/-- The value of a variable in a field of an object. -/
theorem runs_setField {ref : Nat} {cls : Option ClassId} {u : Variable} {v : Value}
    (hobject : σ.lookup env object = .ok (.object ref cls)) (hu : σ.lookup env u = .ok v)
    (field : String) :
    Steps (free p) (fun s => callee? s = none)
      ⟨.complete .normal, .block (setField types object field (.ref u) :: rest) env :: stack, depth, σ⟩
      ⟨.complete .normal, .block rest env :: stack, depth,
        σ.modifyFields ref fun fs => fs.set (.text field) v⟩ :=
  .head rfl rfl (.head rfl rfl (.head rfl rfl (.head rfl (free_ref hu) (.head rfl rfl
    (.head rfl (free_ref hobject) (.head rfl rfl (.single rfl rfl)))))))

/-- The value of a variable is returned. -/
theorem runs_ret {fn : FuncId} {u : Variable} {v : Value} (hu : σ.lookup env u = .ok v) :
    Steps (free p) (fun s => callee? s = none)
      ⟨.complete .normal, .block (.ret (.ref u) :: rest) env :: .call fn :: stack, depth + 1, σ⟩
      ⟨.value v, stack, depth, σ⟩ :=
  .head rfl rfl (.head rfl rfl (.head rfl (free_ref hu) (.head rfl rfl (.head rfl rfl
    (.single rfl rfl)))))

end

/-! ## The call -/

/-- Nothing was done that can be seen from outside: no native was called, nothing
was logged, no global value changed. -/
structure Silent (σ τ : Store) : Prop where
  trace : τ.trace = σ.trace
  output : τ.output = σ.output
  recorded : τ.recorded = σ.recorded
  globals : τ.globals = σ.globals

/-- What a call of a compiled generator leaves behind. -/
structure Founded (D : Compilation) (env : Env) (σ τ : Store) : Prop where
  silent : Silent σ τ
  frames : σ.frames.size < τ.frames.size
  objects : σ.objects.size < τ.objects.size
  binding : ∀ i < σ.frames.size, ∀ x, τ.binding i x = σ.binding i x
  object : τ.binding σ.frames.size D.object.id = some (.object σ.objects.size (some D.cls))
  labels : ∀ {l v}, D.vars.lookup l = some v → ∃ tag, τ.binding σ.frames.size v.id =
    some (.closure tag ((D.table.lookup l).getD noFunc) (σ.frames.size :: env))

namespace Compiled

variable {stop : ClassId} {D : Compilation} {id : FuncId} {c : Code} {p p' : Program}

theorem nodup (h : Compiled stop D id c p p') : D.graph.labels.Nodup := by
  obtain ⟨k, hg⟩ := h.graph
  rw [hg.labels_eq]
  exact hg.nodup

/-- The label variables come after the variable of the object. -/
theorem object_lt (h : Compiled stop D id c p p') {v : Variable} (hv : v ∈ D.vars.map Prod.snd) :
    D.object.id < v.id := by
  obtain ⟨entry, hentry, rfl⟩ := List.mem_map.1 hv
  have hmem : entry.2.id ∈ D.vars.map fun entry => entry.2.id := List.mem_map_of_mem hentry
  rw [h.ids, List.mem_range'_1] at hmem
  rw [h.object]
  omega

/-- The frame of a call has the variables that compiling adds. -/
theorem isSome_binding_added (h : Compiled stop D id c p p') {f : Func} (hf : p'.func? id = some f)
    (args : List Value) (σ : Store) {v : Variable} (hv : v ∈ D.added) :
    ((σ.newFrame (activation f args)).2.binding σ.frames.size v.id).isSome := by
  have hlocals : f.locals = c.locals ++ D.added :=
    congrArg Code.locals (Option.some.inj ((Program.code?_eq_some hf).symm.trans h.own))
  rw [Store.binding_newFrame, if_pos rfl]
  refine isSome_lookup_activation.2 (List.mem_map_of_mem (List.mem_append_right _ ?_))
  rw [hlocals]
  exact List.mem_append_right _ hv

/-- A call of a compiled generator comes to its end without another call. -/
theorem founds (h : Compiled stop D id c p p') {f : Func} (hf : p'.func? id = some f) (env : Env)
    (args : List Value) (σ : Store) (stack : List Waiting) (depth : Nat) :
    ∃ τ, Founded D env σ τ ∧ Steps (free p') (fun s => callee? s = none)
      ⟨.complete .normal, .block f.body (σ.frames.size :: env) :: .call id :: stack, depth + 1,
        (σ.newFrame (activation f args)).2⟩
      ⟨.value (.object σ.objects.size (some D.cls)), stack, depth, τ⟩ := by
  have hbody : f.body = D.body :=
    congrArg Code.body (Option.some.inj ((Program.code?_eq_some hf).symm.trans h.own))
  have hnew : ¬ (Pairing.same σ).Knows σ.frames.size := fun hj =>
    Nat.lt_irrefl _ (Pairing.lt_of_same_knows hj)
  let made : Value := .object σ.objects.size (some D.cls)
  let σ₁ := (σ.newFrame (activation f args)).2
  let σ₂ := (σ₁.newObject (newFields ⟨p', 0⟩ (some D.cls))).2.setBinding σ.frames.size D.object made
  have hframe : σ.frames.size < σ₁.frames.size := by simp [σ₁, Store.newFrame]
  have hbinding (x : Nat) : σ₂.binding σ.frames.size x =
      if x = D.object.id then some made else σ₁.binding σ.frames.size x := by
    rw [Store.binding_setBinding (by exact hframe)]
    simp only [true_and]
    rfl
  have hframes : σ.frames.size < σ₂.frames.size := by
    simp only [σ₂, Store.setBinding, Array.size_modify]
    exact hframe
  obtain ⟨τ, hruns, hset, hlabels⟩ := h.fragments.runs_all h.nodup h.labels h.ids hframes
    (fun {l v} hv => by
      rw [hbinding]
      split
      · rfl
      · exact h.isSome_binding_added hf args σ (mem_added hv)) env
    [setField D.types D.object nextField (.ref D.start), .ret (.ref D.object)] (.call id :: stack)
    (depth + 1)
  have hobject : τ.binding σ.frames.size D.object.id = some made := by
    rw [hset.others, hbinding, if_pos rfl]
    rintro ⟨v, hv, hid⟩
    exact Nat.ne_of_gt (h.object_lt hv) hid
  obtain ⟨tag, hstart⟩ := hlabels h.start
  have hbeyond : Beyond (.same σ) σ τ :=
    (Beyond.newFrame _ Pairing.lt_of_same_knows).trans ((Beyond.newObject _ fun hr => hr.1 ▸ hr.2).trans
      ((Beyond.setBinding hnew _ _).trans (hset.beyond _ hnew)))
  have hobjects : σ.objects.size < τ.objects.size := by
    refine Nat.lt_of_lt_of_le ?_ (hset.beyond _ hnew).objects
    simp [σ₂, σ₁, Store.setBinding, Store.newObject, Store.newFrame]
  let change : Fields → Fields := fun fs => fs.set (.text nextField)
    (.closure tag ((D.table.lookup Label.begin).getD noFunc) (σ.frames.size :: env))
  refine ⟨τ.modifyFields σ.objects.size change, ?_, ?_⟩
  · exact
      { silent := ⟨hbeyond.trace, hbeyond.output, hbeyond.recorded, hbeyond.globals⟩
        frames := hset.size.symm ▸ hframes
        objects := by simpa [Store.modifyFields] using hobjects
        binding := fun i hi x => hbeyond.binding (.inr ⟨i, rfl, hi⟩) x
        object := hobject
        labels := hlabels }
  · rw [hbody]
    refine (runs_construct (h.isSome_binding_added hf args σ (.head _))).trans (hruns.trans ?_)
    refine (runs_setField (Store.lookup_of_binding hobject env) (Store.lookup_of_binding hstart env)
      nextField).trans ?_
    exact runs_ret (Store.lookup_of_binding (σ := τ.modifyFields _ change) hobject env)

end Compiled

end Generator

end Resumable
