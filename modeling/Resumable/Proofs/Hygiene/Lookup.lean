import Mathlib.Data.List.Find
import Resumable.Proofs.Arena.Sharing
import Resumable.Proofs.Tree.Contents

/-!
# Looking up variables

A mention of a variable is looked up in the function that it stands in and then
along the owners of that function. The machine goes by the number of the variable,
a reader of the code by its name; the two agree if they find the same variable of
the same function.
-/

namespace Resumable

/-- A variable whose name does not start with a dollar sign. -/
def Variable.IsPlain (v : Variable) : Prop :=
  v.name.toList.head? ≠ some '$'

def Stmt.bound : Stmt → List Variable
  | .forIn key _ _ _ => key.toList
  | .tryCatch _ catches => catches.filterMap Catch.var
  | .catchClause c => c.var.toList
  | _ => []

def Stmt.vars (s : Stmt) : List Variable :=
  s.slots.flatMap Expr.vars ++ s.bound

def mentions (body : List Stmt) : List Variable :=
  (allStmts body).flatMap Stmt.vars

/-- The variables that the statements of a body bind themselves. -/
def bindings (body : List Stmt) : List Variable :=
  (allStmts body).flatMap Stmt.bound

theorem mem_mentions_iff {body : List Stmt} {v : Variable} :
    v ∈ mentions body ↔ v ∈ bodyRefs body ∨ v ∈ bindings body := by
  rw [bodyRefs_eq]
  simp only [mentions, bindings, Stmt.vars, List.mem_flatMap, List.mem_append, and_or_left, exists_or]

/-- A member that has its key for itself is the one found by it. -/
theorem find?_of_nodup_map {α β : Type} [DecidableEq β] {key : α → β} {xs : List α}
    (h : (xs.map key).Nodup) {x : α} (hx : x ∈ xs) : xs.find? (fun y => key y = key x) = some x := by
  induction xs with
  | nil => cases hx
  | cons y rest ih =>
      rw [List.map_cons, List.nodup_cons] at h
      rcases List.mem_cons.1 hx with rfl | hx
      · exact List.find?_cons_of_pos (decide_eq_true rfl)
      · have hne : key y ≠ key x := fun heq => h.1 (heq ▸ List.mem_map_of_mem hx)
        rw [List.find?_cons_of_neg (by simpa using hne)]
        exact ih h.2 hx

namespace Program

def declared (p : Program) (fn : FuncId) : List Variable :=
  ((p.func? fn).map fun f => f.params ++ f.locals).getD []

/-- The first declaration that meets a test on the way up, with its function. -/
def lookup (p : Program) (fn : FuncId) (test : Variable → Bool) : Option (FuncId × Variable) :=
  (p.chain fn).findSome? fun a => ((p.declared a).find? test).map (a, ·)

/-- Looking up a variable by its name and by its number comes to the same. -/
def Agrees (p : Program) (fn : FuncId) (v : Variable) : Prop :=
  p.lookup fn (fun u => u.name = v.name) = p.lookup fn fun u => u.id = v.id

def AgreesOn (p : Program) (chosen : List Stmt → List Variable) : Prop :=
  ∀ fn, ∀ v ∈ chosen (p.bodyOf fn), p.Agrees fn v

/-- No function declares two variables of one name, and the lookups of all
references agree. -/
structure Hygienic (p : Program) : Prop where
  distinct : ∀ fn, ((p.declared fn).map Variable.name).Nodup
  agrees : p.AgreesOn bodyRefs

/-- No name starts with a dollar sign, and the numbers in use have been drawn. -/
structure Plain (p : Program) : Prop where
  named : ∀ fn, ∀ v ∈ p.declared fn ++ mentions (p.bodyOf fn), v.IsPlain
  counted : ∀ fn, ∀ v ∈ p.declared fn ++ mentions (p.bodyOf fn), v.id < p.varCount

section

variable {p p₀ : Program} {fn owner : FuncId} {test test' : Variable → Bool}

theorem declared_of_size_lt (h : p.size < fn) : p.declared fn = [] := by
  have hnone : p.func? fn = none := by
    rw [← Option.not_isSome_iff_eq_none, isSome_func?]
    exact fun hknown => Nat.not_le_of_lt h hknown.2
  rw [declared, hnone]
  rfl

/-- Only known functions declare or mention anything. -/
theorem forall_declared {P : FuncId → List Variable → List Stmt → Prop} (hnil : ∀ fn, P fn [] [])
    (h : ∀ fn ∈ p.ids, P fn (p.declared fn) (p.bodyOf fn)) (fn : FuncId) :
    P fn (p.declared fn) (p.bodyOf fn) := by
  by_cases hfn : (p.func? fn).isSome
  · exact h fn (mem_ids.2 hfn)
  · rw [declared, bodyOf, Option.not_isSome_iff_eq_none.1 hfn]
    exact hnil fn

theorem plain_of_ids (h : ∀ fn ∈ p.ids, ∀ v ∈ p.declared fn ++ mentions (p.bodyOf fn),
    v.name.toList.head? ≠ some '$' ∧ v.id < p.varCount) : p.Plain where
  named := forall_declared (P := fun _ vs body => ∀ v ∈ vs ++ mentions body, v.IsPlain)
    (by simp [mentions]) fun fn hfn v hv => (h fn hfn v hv).1
  counted := forall_declared (P := fun _ vs body => ∀ v ∈ vs ++ mentions body, v.id < p.varCount)
    (by simp [mentions]) fun fn hfn v hv => (h fn hfn v hv).2

theorem lookup_congr (h : ∀ a, ∀ u ∈ p.declared a, test u = test' u) :
    p.lookup fn test = p.lookup fn test' := by
  have hfind (a : FuncId) : (p.declared a).find? test = (p.declared a).find? test' :=
    List.find?_congr (h a)
  rw [lookup, lookup]
  simp only [hfind]

/-- A variable of the function itself, or of its owner if it declares none. -/
theorem lookup_near (hp : p.Forest) {v : Variable} (hv : (p.declared owner).find? test = some v)
    (hfn : fn = owner ∨ p.declared fn = [] ∧ p.parent fn = owner) :
    p.lookup fn test = some (owner, v) := by
  have howner : owner ≠ noFunc := by
    rintro rfl
    cases hv
  have hown : p.lookup owner test = some (owner, v) := by
    rw [lookup, hp.chain_eq howner, List.findSome?_cons, hv]
    rfl
  rcases hfn with rfl | ⟨hnone, hparent⟩
  · exact hown
  · have hfn : fn ≠ noFunc := by
      rintro rfl
      exact howner hparent.symm
    rw [lookup, hp.chain_eq hfn, List.findSome?_cons, hnone, hparent]
    exact hown

/-- Functions that have come to the way in between declare nothing that is looked
for. -/
theorem lookup_of_filter {o : FuncId}
    (hchain : (p.chain fn).filter (fun a => decide (a ≤ p₀.size)) = p₀.chain o)
    (hfind : ∀ a, (p.declared a).find? test = (p₀.declared a).find? test) :
    p.lookup fn test = p₀.lookup o test := by
  rw [lookup, lookup, ← hchain]
  simp only [hfind]
  induction p.chain fn with
  | nil => rfl
  | cons a rest ih =>
      rw [List.findSome?_cons, List.filter_cons]
      by_cases ha : a ≤ p₀.size
      · rw [if_pos (decide_eq_true ha), List.findSome?_cons, ih]
      · rw [if_neg (by simpa using ha), declared_of_size_lt (Nat.lt_of_not_le ha)]
        exact ih

end

end Program

end Resumable
