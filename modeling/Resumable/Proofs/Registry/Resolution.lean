import Resumable.Proofs.Registry.Instances

/-!
# Parameters that analysis finds

Analysis looks for parameters through function types. A class that passes holds a
parameter at most in the type arguments of a class type, or one without a name.
-/

namespace Resumable

/-! ## Where parameters stand -/

/-- The first type stands in the second, under function types only. -/
inductive Ty.Within (part : Ty) : Ty → Prop where
  | here : Within part part
  | result {r : Ty} {ps : List Ty} {assignable : Bool} : Within part r →
      Within part (.func r ps assignable)
  | param {r p : Ty} {ps : List Ty} {assignable : Bool} : p ∈ ps → Within part p →
      Within part (.func r ps assignable)

/-- A parameter stands in a type, at any depth of function types and of the type
arguments of classes. -/
inductive TypeTable.Occurs (table : TypeTable) (name : String) : Ty → Prop where
  | here : Occurs table name (.param name)
  | result {r : Ty} {ps : List Ty} {assignable : Bool} : Occurs table name r →
      Occurs table name (.func r ps assignable)
  | param {r p : Ty} {ps : List Ty} {assignable : Bool} : p ∈ ps → Occurs table name p →
      Occurs table name (.func r ps assignable)
  | typeArg {c : ClassId} {cls : Class} {arg : Ty} : table.class? c = some cls →
      arg ∈ cls.typeArgs → Occurs table name arg → Occurs table name (.object (some c))

/-- A parameter stands in the type arguments of a class. -/
def TypeTable.OccursInArgs (table : TypeTable) (name : String) (c : ClassId) : Prop :=
  ∃ cls, table.class? c = some cls ∧ ∃ arg ∈ cls.typeArgs, table.Occurs name arg

/-- A parameter stands in a type under function types, or in the arguments of a
class that does. -/
theorem TypeTable.Occurs.within {table : TypeTable} {name : String} {t : Ty}
    (h : table.Occurs name t) :
    Ty.Within (.param name) t ∨ ∃ c, Ty.Within (.object (some c)) t ∧ table.OccursInArgs name c := by
  induction h with
  | here => exact .inl .here
  | result _ ih =>
      rcases ih with h | ⟨c, h, hargs⟩
      · exact .inl (.result h)
      · exact .inr ⟨c, .result h, hargs⟩
  | param hmem _ ih =>
      rcases ih with h | ⟨c, h, hargs⟩
      · exact .inl (.param hmem h)
      · exact .inr ⟨c, .param hmem h, hargs⟩
  | typeArg hcls hmem harg => exact .inr ⟨_, .here, _, hcls, _, hmem, harg⟩

/-! ## What analysis looks for -/

/-- No parameter with a name stands in a type under function types. -/
def Ty.Bare (t : Ty) : Prop :=
  ∀ name, Ty.Within (.param name) t → name = ""

theorem Ty.bare_func {r : Ty} {ps : List Ty} {assignable : Bool} :
    Ty.Bare (.func r ps assignable) ↔ (∀ p ∈ ps, p.Bare) ∧ r.Bare := by
  constructor
  · intro h
    exact ⟨fun p hp name hname => h name (.param hp hname), fun name hname => h name (.result hname)⟩
  · rintro ⟨hps, hr⟩ name hname
    cases hname with
    | result hname => exact hr name hname
    | param hp hname => exact hps _ hp name hname

mutual

theorem Ty.unresolved_eq_empty : ∀ t : Ty, t.unresolved = "" ↔ t.Bare
  | .param name => by
      rw [Ty.unresolved]
      refine ⟨?_, fun h => h name .here⟩
      rintro rfl name' hname
      cases hname
      rfl
  | .func r ps assignable => by
      rw [Ty.unresolved, Ty.bare_func, ← Ty.unresolved_eq_empty r, ← Ty.unresolvedList_eq_empty ps]
      by_cases hps : Ty.unresolvedList ps = "" <;> simp [hps]
  | .absent | .void | .prim _ | .object _ => by
      refine ⟨fun _ name hname => ?_, fun _ => rfl⟩
      cases hname

theorem Ty.unresolvedList_eq_empty : ∀ ts : List Ty,
    Ty.unresolvedList ts = "" ↔ ∀ t ∈ ts, t.Bare
  | [] => by simp [Ty.unresolvedList]
  | t :: ts => by
      rw [Ty.unresolvedList, List.forall_mem_cons, ← Ty.unresolved_eq_empty t,
        ← Ty.unresolvedList_eq_empty ts]
      by_cases ht : t.unresolved = "" <;> simp [ht]

end

def Class.memberTypes (cls : Class) : List Ty :=
  cls.fields.map (·.type) ++ cls.ctorParams

namespace Registry

variable {table table' : TypeTable} {c : ClassId} {cls : Class}

theorem unresolvedField?_eq_none {fields : List Field} :
    unresolvedField? fields = none ↔ ∀ f ∈ fields, f.type.Bare := by
  rw [unresolvedField?, List.findSome?_eq_none_iff]
  refine forall₂_congr fun f _ => ?_
  rw [← Ty.unresolved_eq_empty]
  by_cases hf : f.type.unresolved = "" <;> simp [hf]

theorem unresolvedParam?_eq_none {params : List Ty} :
    unresolvedParam? params = none ↔ ∀ t ∈ params, t.Bare := by
  rw [unresolvedParam?, List.findSome?_eq_none_iff]
  constructor
  · intro h t ht
    obtain ⟨i, hi⟩ := List.getElem?_of_mem ht
    have hfree := h (t, i) (List.mk_mem_zipIdx_iff_getElem?.2 hi)
    rw [← Ty.unresolved_eq_empty]
    by_contra hne
    simp [hne] at hfree
  · rintro h ⟨t, i⟩ hmem
    have ht := h t (List.mem_of_getElem? (List.mk_mem_zipIdx_iff_getElem?.1 hmem))
    rw [← Ty.unresolved_eq_empty] at ht
    simp [ht]

theorem forall_mem_memberTypes {P : Ty → Prop} :
    (∀ ty ∈ cls.memberTypes, P ty) ↔ (∀ f ∈ cls.fields, P f.type) ∧ ∀ ty ∈ cls.ctorParams, P ty := by
  simp only [Class.memberTypes, List.forall_mem_append, List.forall_mem_map]

/-- A class passes its analysis exactly if no parameter with a name stands in its
members under function types; it is marked then. -/
theorem analyze_eq_ok (hcls : table.class? c = some cls) (hnew : cls.analyzed = false) :
    analyze table c = .ok table' ↔
      (∀ ty ∈ cls.memberTypes, ty.Bare) ∧ table' = table.setClass c { cls with analyzed := true } := by
  rw [forall_mem_memberTypes, ← unresolvedField?_eq_none, ← unresolvedParam?_eq_none]
  simp only [analyze, hcls, hnew, Bool.false_eq_true, if_false]
  cases unresolvedField? cls.fields with
  | some found => simp
  | none =>
      cases unresolvedParam? cls.ctorParams with
      | some found => simp
      | none => simp [eq_comm]

theorem class?_setClass (hcls : table.class? c = some cls) (cls' : Class) :
    (table.setClass c cls').class? c = some cls' := by
  obtain ⟨hlt, -⟩ := Array.getElem?_eq_some_iff.1 hcls
  simp [TypeTable.class?, TypeTable.setClass, hlt]

/-- A class that has not been analyzed passes exactly if no parameter with a name
stands in its members under function types. Then it is marked and otherwise as
before, and a parameter that still stands in its members, at whatever depth, has
no name or stands in the type arguments of a class that a member mentions. -/
theorem analyze_finds_exposed (hcls : table.class? c = some cls) (hnew : cls.analyzed = false) :
    ((∃ table', analyze table c = .ok table') ↔
      ∀ ty ∈ cls.memberTypes, ∀ name, Ty.Within (.param name) ty → name = "") ∧
    ∀ table', analyze table c = .ok table' →
      table'.class? c = some { cls with analyzed := true } ∧
      ∀ ty ∈ cls.memberTypes, ∀ name, table'.Occurs name ty →
        name = "" ∨ ∃ d, Ty.Within (.object (some d)) ty ∧ table'.OccursInArgs name d := by
  refine ⟨⟨?_, fun h => ⟨_, (analyze_eq_ok hcls hnew).2 ⟨h, rfl⟩⟩⟩, fun table' h => ?_⟩
  · rintro ⟨table', h⟩
    exact ((analyze_eq_ok hcls hnew).1 h).1
  · obtain ⟨hbare, rfl⟩ := (analyze_eq_ok hcls hnew).1 h
    refine ⟨class?_setClass hcls _, fun ty hty name hname => ?_⟩
    exact hname.within.imp_left (hbare ty hty name)

/-- A class with a parameter among its type arguments, and a template with a field
of that class. -/
def holderTable : TypeTable where
  classes := #[{ name := "Box", typeArgs := [.param "T"] }]
  templates := #[{ name := "Holder", params := ["T"]
                   fields := [⟨"box", .object (some 0)⟩, ⟨"get", .function (.param "T") []⟩] }]

/-- The class of the template applied to `int`. -/
def holder : Class := instantiated 0 (holderTable.templateAt 0) [.int]

theorem analyze_finds_exposed_holder :
    (holderTable.addClass holder).2.class? 1 = some holder ∧
    ∀ table', analyze (holderTable.addClass holder).2 1 = .ok table' →
      ∀ ty ∈ holder.memberTypes, ∀ name, table'.Occurs name ty →
        name = "" ∨ ∃ d, Ty.Within (.object (some d)) ty ∧ table'.OccursInArgs name d := by
  have hcls : (holderTable.addClass holder).2.class? 1 = some holder := rfl
  exact ⟨hcls, fun table' h => ((analyze_finds_exposed hcls rfl).2 table' h).2⟩

/-- An instance passes its analysis although a parameter stands in the type of its
first field. -/
theorem analyze_accepts_hidden :
    ∃ c r' table' cls table'', instantiate {} holderTable 0 [.int] = .ok (c, r', table') ∧
      table'.class? c = some cls ∧ cls.analyzed = false ∧ analyze table' c = .ok table'' ∧
      ∃ ty ∈ cls.memberTypes, table''.Occurs "T" ty := by
  refine ⟨1, _, _, holder, _, rfl, rfl, rfl, rfl, .object (some 0), List.mem_cons_self, ?_⟩
  exact .typeArg (show _ = some { name := "Box", typeArgs := [.param "T"] } from rfl)
    List.mem_cons_self .here

end Registry

end Resumable
