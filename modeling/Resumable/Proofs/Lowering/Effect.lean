import Resumable.Lowering.Workspace

/-!
# The effect of lowering on a program

What a run can see of a function is its code: its name, its variables and its
body. Here every operation of a lowering gets an equation for the code of all
functions, so that nothing later has to look at who owns a closure.
-/

namespace Resumable

structure Code where
  name : String
  params : List Variable
  locals : List Variable
  body : List Stmt

def Func.code (f : Func) : Code :=
  ⟨f.name, f.params, f.locals, f.body⟩

namespace Program

def code? (p : Program) (fn : FuncId) : Option Code :=
  (p.func? fn).map Func.code

theorem code?_eq_some {p : Program} {fn : FuncId} {f : Func} (h : p.func? fn = some f) :
    p.code? fn = some f.code := by
  rw [code?, h, Option.map_some]

theorem isSome_func? {p : Program} {fn : Nat} : (p.func? fn).isSome ↔ 0 < fn ∧ fn ≤ p.size := by
  unfold func? noFunc size
  by_cases hfn : fn = 0
  · simp [hfn]
  · rw [if_neg hfn, isSome_getElem?]
    omega

theorem func?_modifyFunc (p : Program) (id fn : Nat) (change : Func → Func) :
    (p.modifyFunc id change).func? fn = if fn = id then (p.func? fn).map change else p.func? fn := by
  unfold modifyFunc func? noFunc
  by_cases hid : id = 0
  · subst hid
    by_cases hfn : fn = 0 <;> simp [hfn]
  · by_cases hfn : fn = 0
    · simp [hfn, Ne.symm hid]
    · rw [if_neg hid, if_neg hfn, Array.getElem?_modify]
      by_cases heq : fn = id
      · simp [heq, hid]
      · rw [if_neg heq, if_neg (by omega), if_neg hfn]

@[simp] theorem modifyFunc_size (p : Program) (id : FuncId) (change : Func → Func) :
    (p.modifyFunc id change).size = p.size := by
  unfold modifyFunc size
  split <;> simp

@[simp] theorem modifyFunc_types (p : Program) (id : FuncId) (change : Func → Func) :
    (p.modifyFunc id change).types = p.types := by
  unfold modifyFunc
  split <;> rfl

@[simp] theorem modifyFunc_varCount (p : Program) (id : FuncId) (change : Func → Func) :
    (p.modifyFunc id change).varCount = p.varCount := by
  unfold modifyFunc
  split <;> rfl

@[simp] theorem modifyFunc_shareCount (p : Program) (id : FuncId) (change : Func → Func) :
    (p.modifyFunc id change).shareCount = p.shareCount := by
  unfold modifyFunc
  split <;> rfl

/-- A change of one definition as a change of its code. -/
theorem code?_modifyFunc {change : Func → Func} (effect : Code → Code)
    (h : ∀ f, (change f).code = effect f.code) (p : Program) (id fn : Nat) :
    (p.modifyFunc id change).code? fn =
      if fn = id then (p.code? fn).map effect else p.code? fn := by
  unfold code?
  rw [func?_modifyFunc]
  split
  · rw [Option.map_map, Option.map_map]
    congr 1
    exact funext h
  · rfl

/-- A change that the code does not show. -/
theorem code?_modifyFunc_of_code {change : Func → Func} (h : ∀ f, (change f).code = f.code)
    (p : Program) (id fn : Nat) : (p.modifyFunc id change).code? fn = p.code? fn := by
  rw [code?_modifyFunc (fun c => c) h]
  simp

theorem code?_setBody (p : Program) (id fn : Nat) (body : List Stmt) :
    (p.modifyFunc id fun f => { f with body }).code? fn =
      if fn = id then (p.code? fn).map fun c => { c with body } else p.code? fn :=
  code?_modifyFunc _ (fun _ => rfl) p id fn

theorem code?_addLocal (p : Program) (id fn : Nat) (v : Variable) :
    (p.modifyFunc id fun f => { f with locals := f.locals ++ [v] }).code? fn =
      if fn = id then (p.code? fn).map fun c => { c with locals := c.locals ++ [v] }
      else p.code? fn :=
  code?_modifyFunc _ (fun _ => rfl) p id fn

/-! ## New definitions -/

theorem func?_push (p : Program) (f : Func) (fn : Nat) :
    ({ p with funcs := p.funcs.push f } : Program).func? fn =
      if fn = p.size + 1 then some f else p.func? fn := by
  unfold func? size noFunc
  by_cases hfn : fn = 0
  · simp [hfn]
  · rw [if_neg hfn, if_neg hfn, Array.getElem?_push]
    by_cases hlast : fn = p.funcs.size + 1
    · rw [if_pos (by omega), if_pos hlast]
    · rw [if_neg (by omega), if_neg hlast]

theorem size_push (p : Program) (f : Func) :
    ({ p with funcs := p.funcs.push f } : Program).size = p.size + 1 := by
  simp [size]

theorem code?_newFunc (p : Program) (parent : FuncId) (name : String) (params : List Variable)
    (result : Ty) (fn : Nat) :
    (p.newFunc parent name params result).2.code? fn =
      if fn = p.size + 1 then some ⟨name, params, [], []⟩ else p.code? fn := by
  simp only [newFunc]
  rw [code?_modifyFunc_of_code (by intro f; rfl), code?, func?_push]
  split <;> rfl

@[simp] theorem newFunc_fst (p : Program) (parent : FuncId) (name : String)
    (params : List Variable) (result : Ty) :
    (p.newFunc parent name params result).1 = p.size + 1 := rfl

@[simp] theorem newFunc_size (p : Program) (parent : FuncId) (name : String)
    (params : List Variable) (result : Ty) :
    (p.newFunc parent name params result).2.size = p.size + 1 := by
  simp [newFunc, modifyFunc_size, size_push]

@[simp] theorem newFunc_types (p : Program) (parent : FuncId) (name : String)
    (params : List Variable) (result : Ty) :
    (p.newFunc parent name params result).2.types = p.types := by
  simp [newFunc]

@[simp] theorem newFunc_varCount (p : Program) (parent : FuncId) (name : String)
    (params : List Variable) (result : Ty) :
    (p.newFunc parent name params result).2.varCount = p.varCount := by
  simp [newFunc]

@[simp] theorem newFunc_shareCount (p : Program) (parent : FuncId) (name : String)
    (params : List Variable) (result : Ty) :
    (p.newFunc parent name params result).2.shareCount = p.shareCount := by
  simp [newFunc]

/-! ## Owners -/

structure SameCode (p q : Program) : Prop where
  code : ∀ fn, q.code? fn = p.code? fn
  size : q.size = p.size
  types : q.types = p.types
  varCount : q.varCount = p.varCount
  shareCount : q.shareCount = p.shareCount

namespace SameCode

variable {p q r : Program}

theorem refl (p : Program) : SameCode p p :=
  ⟨fun _ => rfl, rfl, rfl, rfl, rfl⟩

theorem trans (first : SameCode p q) (second : SameCode q r) : SameCode p r where
  code fn := (second.code fn).trans (first.code fn)
  size := second.size.trans first.size
  types := second.types.trans first.types
  varCount := second.varCount.trans first.varCount
  shareCount := second.shareCount.trans first.shareCount

theorem modifyFunc {change : Func → Func} (h : ∀ f, (change f).code = f.code) (p : Program)
    (id : FuncId) : SameCode p (p.modifyFunc id change) :=
  ⟨code?_modifyFunc_of_code h p id, modifyFunc_size .., modifyFunc_types ..,
    modifyFunc_varCount .., modifyFunc_shareCount ..⟩

theorem moveTo (p : Program) (child parent : FuncId) : SameCode p (p.moveTo child parent) := by
  unfold Program.moveTo
  split
  · exact refl p
  · refine SameCode.trans (modifyFunc ?_ p (p.parent child))
      (.trans (modifyFunc ?_ _ child) (modifyFunc ?_ _ parent)) <;> exact fun _ => rfl

theorem reparent {child parent : FuncId} (h : p.reparent child parent = .ok q) : SameCode p q := by
  have hmoved : p.moveTo child parent = q → SameCode p q := by
    rintro rfl
    exact moveTo p child parent
  unfold Program.reparent at h
  repeat' split at h
  all_goals first | exact hmoved (Except.ok.inj h) | cases h

end SameCode

end Program

/-! ## Work that succeeds -/

section

variable {ε σ α β : Type}

theorem except_bind_eq_ok {x : Except ε α} {f : α → Except ε β} {b : β} :
    (x >>= f) = .ok b ↔ ∃ a, x = .ok a ∧ f a = .ok b := by
  cases x <;> simp [bind, Except.bind]

theorem bind_eq_ok {x : EStateM ε σ α} {f : α → EStateM ε σ β} {s t : σ} {b : β} :
    (x >>= f) s = .ok b t ↔ ∃ a u, x s = .ok a u ∧ f a u = .ok b t := by
  change EStateM.bind x f s = _ ↔ _
  unfold EStateM.bind
  cases x s with
  | ok a u =>
      refine ⟨fun h => ⟨a, u, rfl, h⟩, ?_⟩
      rintro ⟨_, _, ⟨⟩, h⟩
      exact h
  | error => simp

theorem pure_eq_ok {a b : α} {s t : σ} :
    (pure a : EStateM ε σ α) s = .ok b t ↔ a = b ∧ s = t := by
  simp [pure, EStateM.pure]

end

namespace Lowering

structure Keeps (w w' : Workspace) : Prop where
  program : w.program.SameCode w'.program
  names : w'.names = w.names
  registry : w'.registry = w.registry
  continuations : w'.continuations = w.continuations

theorem Keeps.trans {w₁ w₂ w₃ : Workspace} (first : Keeps w₁ w₂) (second : Keeps w₂ w₃) :
    Keeps w₁ w₃ where
  program := first.program.trans second.program
  names := second.names.trans first.names
  registry := second.registry.trans first.registry
  continuations := second.continuations.trans first.continuations

def succeeds {α : Type} (m : Lowering α) (w : Workspace) (wanted : Workspace → Bool) : Bool :=
  match m w with
  | .ok _ w => wanted w
  | .error _ _ => false

theorem ok_of_succeeds {α : Type} {m : Lowering α} {w : Workspace} {wanted : Workspace → Bool}
    (h : succeeds m w wanted = true) : ∃ a w', m w = .ok a w' ∧ wanted w' = true := by
  unfold succeeds at h
  split at h
  · next hm => exact ⟨_, _, hm, h⟩
  · cases h

def gives {α : Type} (m : Lowering α) (w : Workspace) (wanted : α → Workspace → Bool) : Bool :=
  match m w with
  | .ok a w => wanted a w
  | .error _ _ => false

theorem ok_of_gives {α : Type} {m : Lowering α} {w : Workspace} {wanted : α → Workspace → Bool}
    (h : gives m w wanted = true) : ∃ a w', m w = .ok a w' ∧ wanted a w' = true := by
  unfold gives at h
  split at h
  · next hm => exact ⟨_, _, hm, h⟩
  · cases h

theorem lift_eq_ok {α : Type} {r : Except Failure α} {a : α} {w w' : Workspace} :
    lift r w = .ok a w' ↔ r = .ok a ∧ w = w' := by
  cases r with
  | ok b => simp [lift, pure, EStateM.pure]
  | error e =>
      constructor
      · intro h
        cases h
      · intro h
        cases h.1

theorem withNames_eq_ok {α : Type} {m : EStateM Failure Names α} {a : α} {w w' : Workspace} :
    withNames m w = .ok a w' ↔ ∃ names, m w.names = .ok a names ∧ w' = { w with names } := by
  unfold withNames
  cases m w.names with
  | ok b names =>
      constructor
      · rintro ⟨⟩
        exact ⟨names, rfl, rfl⟩
      · rintro ⟨_, ⟨⟩, rfl⟩
        rfl
  | error => simp

theorem func_eq_ok {id : FuncId} {f : Func} {w w' : Workspace} :
    func id w = .ok f w' ↔ (w.program.func? id).getD { name := "" } = f ∧ w = w' := by
  constructor
  · rintro ⟨⟩
    exact ⟨rfl, rfl⟩
  · rintro ⟨rfl, rfl⟩
    rfl

theorem newFunc_eq_ok {parent fn : FuncId} {name : String} {params : List Variable} {result : Ty}
    {w w' : Workspace} : newFunc parent name params result w = .ok fn w' ↔
      fn = w.program.size + 1 ∧
      w' = { w with program := (w.program.newFunc parent name params result).2 } := by
  constructor
  · rintro ⟨⟩
    exact ⟨rfl, rfl⟩
  · rintro ⟨rfl, rfl⟩
    rfl

theorem get_eq_ok {a w w' : Workspace} : (get : Lowering Workspace) w = .ok a w' ↔ w = a ∧ w = w' := by
  constructor
  · rintro ⟨⟩
    exact ⟨rfl, rfl⟩
  · rintro ⟨rfl, rfl⟩
    rfl

theorem newVariable_eq_ok {name : String} {type : Ty} {v : Variable} {w w' : Workspace} :
    newVariable name type w = .ok v w' ↔ v = ⟨w.program.varCount, name, type⟩ ∧
      w' = { w with program := { w.program with varCount := w.program.varCount + 1 } } := by
  constructor
  · rintro ⟨⟩
    exact ⟨rfl, rfl⟩
  · rintro ⟨rfl, rfl⟩
    rfl

theorem modifyFunc_eq_ok {id : FuncId} {change : Func → Func} {u : Unit} {w w' : Workspace} :
    modifyFunc id change w = .ok u w' ↔
      w' = { w with program := w.program.modifyFunc id change } := by
  constructor
  · rintro ⟨⟩
    rfl
  · rintro rfl
    rfl

def drawn (w : Workspace) (type : Ty) : Variable :=
  ⟨w.program.varCount, w.names.freshName.1, type⟩

theorem freshLocal_eq (id : FuncId) (type : Ty) (w : Workspace) :
    freshLocal id type w = .ok (drawn w type)
      { w with
        program := { w.program with varCount := w.program.varCount + 1 }.modifyFunc id fun f =>
          { f with locals := f.locals ++ [drawn w type] }
        names := w.names.freshName.2 } := rfl

theorem keeps_of_reparent {phase : Phase} {detail : String} {child parent : FuncId}
    {w w' : Workspace} (h : reparent phase detail child parent w = .ok () w') : Keeps w w' := by
  unfold reparent at h
  split at h
  · next hq =>
      cases h
      exact ⟨.reparent hq, rfl, rfl, rfl⟩
  · cases h

theorem keeps_of_forM {phase : Phase} {detail : String} {id : FuncId} {children : List FuncId}
    {w w' : Workspace}
    (h : (children.forM fun c => reparent phase detail c id) w = .ok () w') : Keeps w w' := by
  induction children generalizing w with
  | nil =>
      cases h
      exact ⟨.refl _, rfl, rfl, rfl⟩
  | cons c rest ih =>
      obtain ⟨_, w₁, hfirst, hrest⟩ := bind_eq_ok.1 h
      exact (keeps_of_reparent hfirst).trans (ih hrest)

theorem keeps_of_adoptBody {phase : Phase} {detail : String} {id : FuncId} {body : List Stmt}
    {n : Nat} {w w' : Workspace} (h : adoptBody phase detail id body w = .ok n w') :
    Keeps { w with program := w.program.modifyFunc id fun f => { f with body } } w' := by
  simp only [adoptBody, bind_eq_ok, pure_eq_ok] at h
  obtain ⟨_, w₁, ⟨⟩, _, w₂, hmove, -, rfl⟩ := h
  exact keeps_of_forM hmove

end Lowering

end Resumable
