import Mathlib.Data.List.Count
import Resumable.Proofs.Structured.Blocks
import Resumable.Proofs.Tree.Contents

/-!
# Jump code holds what the body held

Lowering structured statements neither loses nor repeats anything: each
expression of the body stands in the jump code exactly once, and so does each
statement that is held in common with other bodies.
-/

namespace Resumable

/-- Things that lowering takes along: the same condition holds the same wherever it
stands, the value of a case does so as that of an arm, the clauses of a loop do
so as statements, and jumps hold nothing. -/
structure Carried {α : Type} (items : Stmt → List α) : Prop where
  label : ∀ l, items (.label l) = []
  goto : ∀ l, items (.goto l) = []
  breakTo : ∀ l, items (.breakTo l) = []
  continueTo : ∀ l, items (.continueTo l) = []
  ifElse : ∀ c t e l m, items (.ifElse c t e) = items (.condGoto c l m)
  whileLoop : ∀ c body k l m, items (.whileLoop c body k) = items (.condGoto c l m)
  doWhile : ∀ c body k l m, items (.doWhile c body k) = items (.condGoto c l m)
  forLoop : ∀ init c post body k l m, items (.forLoop init c post body k) =
    (if init.isMissing then [] else items (.expr init)) ++
      ((if c.isMissing then [] else items (.condGoto c l m)) ++
        if post.isMissing then [] else items (.expr post))
  dispatch : ∀ x body k arms, items (.dispatch x arms) =
    items (.switch x body k) ++ arms.flatMap fun arm => items (.caseMark arm.value)
  defaultMark : items .defaultMark = items (.caseMark .missing)

namespace JumpCode

section

variable {α : Type} {items : Stmt → List α} {strict : Prop}

theorem flatMap_optional (x : Expr) : (if x.isMissing then [] else [Stmt.expr x]).flatMap items =
    if x.isMissing then [] else items (.expr x) := by
  split <;> simp

theorem flatMap_preorder (body : List Stmt) :
    (preorderList (fun _ => true) body).flatMap items = (allStmts body).flatMap items := rfl

section

variable (hitems : Carried items)

include hitems

theorem flatMap_jump (falls : Bool) (l : String) : (jump falls l).flatMap items = [] := by
  cases falls <;> simp [jump, hitems.goto]

theorem flatMap_enter (falls : Bool) (l : String) : (enter falls l).flatMap items = [] := by
  simp [enter, flatMap_jump hitems, hitems.label]

theorem items_test (c : Expr) (start done : String) :
    items (if c.isMissing then .goto start else .condGoto c start done) =
      if c.isMissing then [] else items (.condGoto c start done) := by
  split
  · exact hitems.goto start
  · rfl

mutual

theorem StmtCode.count_items [DecidableEq α] (n : α) {scope : Scope} {falls falls₁ : Bool} {s : Stmt}
    {code : List Stmt} : StmtCode strict scope falls s code falls₁ →
    (code.flatMap items).count n = ((s.preorder fun _ => true).flatMap items).count n
  | .simple s share => rfl
  | .yield x share l => by
      simp [Stmt.preorder, flatMap_enter hitems]
  | @StmtCode.breakTo _ _ _ l target _ => by
      simp [Stmt.preorder, hitems.goto, hitems.breakTo]
  | @StmtCode.continueTo _ _ _ l target _ => by
      simp [Stmt.preorder, hitems.goto, hitems.continueTo]
  | .ifElse test succ fail done hthen helse => by
      have hthen := hthen.count_items n
      have helse := helse.count_items n
      simp [Stmt.preorder, flatMap_preorder, flatMap_enter hitems, flatMap_jump hitems, hitems.label,
        hitems.ifElse _ _ _ succ fail] at hthen helse ⊢
      omega
  | .whileLoop test start done _ hbody => by
      have hbody := hbody.count_items n
      simp [Stmt.preorder, flatMap_preorder, flatMap_enter hitems, flatMap_jump hitems, hitems.label,
        hitems.whileLoop _ _ _ start done] at hbody ⊢
      omega
  | .doWhile start test done _ hbody => by
      have hbody := hbody.count_items n
      simp [Stmt.preorder, flatMap_preorder, flatMap_enter hitems, hitems.label,
        hitems.doWhile _ _ _ start done] at hbody ⊢
      omega
  | @StmtCode.switch _ _ _ _ x _ body _ l test done hbody => by
      have hbody := hbody.count_items n
      simp [Stmt.preorder, flatMap_preorder, flatMap_enter hitems, hitems.goto,
        hitems.dispatch x body l] at hbody ⊢
      omega
  | .forLoop first test start last done hbody => by
      have hbody := hbody.count_items n
      simp [Stmt.preorder, flatMap_preorder, flatMap_enter hitems, flatMap_optional, hitems.label,
        hitems.goto, items_test hitems, hitems.forLoop _ _ _ _ _ start done] at hbody ⊢
      omega

theorem ListCode.count_items [DecidableEq α] (n : α) {scope : Scope} {falls falls₁ : Bool}
    {body : List Stmt} {arms : List Arm} {code : List Stmt} :
    ListCode strict scope falls body arms code falls₁ →
    (code.flatMap items).count n + (arms.flatMap fun arm => items (.caseMark arm.value)).count n =
      ((allStmts body).flatMap items).count n
  | .nil _ => rfl
  | .cons hfirst hothers => by
      have hfirst := hfirst.count_items n
      have hothers := hothers.count_items n
      simp [allStmts, preorderList, flatMap_preorder] at hfirst hothers ⊢
      omega
  | .case l _ hrest => by
      have hrest := hrest.count_items n
      simp [allStmts, preorderList, Stmt.preorder, flatMap_preorder, flatMap_enter hitems] at hrest ⊢
      omega
  | .default l hrest => by
      have hrest := hrest.count_items n
      simp [allStmts, preorderList, Stmt.preorder, flatMap_preorder, flatMap_enter hitems,
        hitems.defaultMark] at hrest ⊢
      omega
  | .label l hrest => by
      have hrest := hrest.count_items n
      simpa [flatMap_enter hitems] using hrest

end

/-- Lowering a body keeps what its statements hold. -/
theorem BodyCode.items_perm {body code : List Stmt} (h : BodyCode strict body code) :
    ((allStmts code).flatMap items).Perm ((allStmts body).flatMap items) := by
  classical
  rw [allStmts_of_flat h.flat, List.perm_iff_count]
  obtain ⟨c, falls, hlist, rfl⟩ := h
  intro n
  have hcount := hlist.count_items hitems n
  simpa [flatMap_enter hitems, hitems.goto, hitems.label] using hcount

end

end

end JumpCode

/-! ## Slots and numbers -/

def Stmt.items {α : Type} (slot : Expr → List α) (number : Nat → List α) (s : Stmt) : List α :=
  s.slots.flatMap slot ++ (s.number?.map number).getD []

def held {α : Type} (slot : Expr → List α) (number : Nat → List α) (stmts : List Stmt) : List α :=
  stmts.flatMap (Stmt.items slot number)

theorem carried_items {α : Type} {slot : Expr → List α} {number : Nat → List α}
    (hslot : slot .missing = []) : Carried (Stmt.items slot number) := by
  have hoptional (x : Expr) (items : List α) (h : items = slot x) :
      (if x.isMissing then [] else items) = slot x := by
    cases x with
    | missing => exact hslot.symm
    | _ => exact h
  constructor
  case forLoop =>
      intro init c post body k l m
      rw [hoptional init _ (by simp [Stmt.items, Stmt.slots, Simple.slots, Stmt.number?]),
        hoptional c _ (by simp [Stmt.items, Stmt.slots, Stmt.number?]),
        hoptional post _ (by simp [Stmt.items, Stmt.slots, Simple.slots, Stmt.number?])]
      simp [Stmt.items, Stmt.slots, Stmt.number?]
  all_goals
    intros
    simp [Stmt.items, Stmt.slots, Stmt.number?, List.flatMap_map, hslot]

namespace JumpCode

theorem BodyCode.held_perm {α : Type} {slot : Expr → List α} {number : Nat → List α} {strict : Prop}
    (hslot : slot .missing = []) {body code : List Stmt} (h : BodyCode strict body code) :
    (held slot number (allStmts code)).Perm (held slot number (allStmts body)) :=
  h.items_perm (carried_items hslot)

/-! ## Yields -/

def Unyielding (code : List Stmt) : Prop :=
  ∀ s ∈ code, s.isYield = false

section

variable {s : Stmt} {code more : List Stmt} {f : Bool} {l : String}

@[simp] theorem unyielding_nil : Unyielding [] := by
  simp [Unyielding]

@[simp] theorem unyielding_cons : Unyielding (s :: code) ↔ s.isYield = false ∧ Unyielding code := by
  simp [Unyielding]

@[simp] theorem unyielding_append :
    Unyielding (code ++ more) ↔ Unyielding code ∧ Unyielding more := by
  simp only [Unyielding, List.mem_append, or_imp, forall_and]

@[simp] theorem unyielding_jump : Unyielding (jump f l) := by
  cases f <;> simp [jump, Stmt.isYield]

@[simp] theorem unyielding_enter : Unyielding (enter f l) := by
  simp [enter, Stmt.isYield]

end

section

variable {strict : Prop}

mutual

theorem StmtCode.unyielding {scope : Scope} {falls falls₁ : Bool} {s : Stmt} {code : List Stmt} :
    StmtCode strict scope falls s code falls₁ → Unyielding (s.preorder fun _ => true) →
    Unyielding code
  | .simple s share, h => by simpa [Stmt.preorder] using h
  | .yield x share l, h => by simpa [Stmt.preorder] using h
  | .breakTo _, _ | .continueTo _, _ => by simp [Stmt.isYield]
  | .ifElse test succ fail done hthen helse, h => by
      simp only [Stmt.preorder, if_true, unyielding_cons, unyielding_append] at h
      simp [Stmt.isYield, hthen.unyielding h.2.1, helse.unyielding h.2.2]
  | .whileLoop test start done _ hbody, h | .doWhile start test done _ hbody, h
  | .switch test done hbody, h => by
      simp only [Stmt.preorder, if_true, unyielding_cons] at h
      simp [Stmt.isYield, hbody.unyielding h.2]
  | .forLoop first test start last done hbody, h => by
      simp only [Stmt.preorder, if_true, unyielding_cons] at h
      split <;> split <;> split <;> simp [Stmt.isYield, hbody.unyielding h.2]

theorem ListCode.unyielding {scope : Scope} {falls falls₁ : Bool} {body : List Stmt}
    {arms : List Arm} {code : List Stmt} : ListCode strict scope falls body arms code falls₁ →
    Unyielding (allStmts body) → Unyielding code
  | .nil _, _ => by simp
  | .cons hfirst hothers, h => by
      simp only [allStmts, preorderList, unyielding_append] at h
      exact unyielding_append.2 ⟨hfirst.unyielding h.1, hothers.unyielding h.2⟩
  | .case l _ hrest, h | .default l hrest, h => by
      simp only [allStmts, preorderList, unyielding_append] at h
      exact unyielding_append.2 ⟨unyielding_enter, hrest.unyielding h.2⟩
  | .label l hrest, h => unyielding_append.2 ⟨unyielding_enter, hrest.unyielding h⟩

end

end

theorem bodyLiterals_eq_held (body : List Stmt) :
    bodyLiterals body = held Expr.literals (fun _ => []) (allStmts body) := by
  rw [bodyLiterals_eq, held]
  refine congrArg (List.flatMap · (allStmts body)) (funext fun s => ?_)
  rw [Stmt.items]
  cases s.number? <;> simp

theorem bodyRefs_eq_held (body : List Stmt) :
    bodyRefs body = held Expr.vars (fun _ => []) (allStmts body) := by
  rw [bodyRefs_eq, held]
  refine congrArg (List.flatMap · (allStmts body)) (funext fun s => ?_)
  rw [Stmt.items]
  cases s.number? <;> simp

theorem bodyNumbers_eq_held (body : List Stmt) :
    bodyNumbers body = held (fun _ => []) (fun n => [n]) (allStmts body) := by
  rw [bodyNumbers, held, List.filterMap_eq_flatMap_toList]
  refine congrArg (List.flatMap · (allStmts body)) (funext fun s => ?_)
  rw [Stmt.items]
  cases s.number? <;> simp

variable {body code : List Stmt} {n n' : Names}

/-- Each literal of a body stands in its jump code. -/
theorem ofBody_literals (h : ofBody body n = .ok code n') :
    (bodyLiterals code).Perm (bodyLiterals body) := by
  have hcode : BodyCode False body code := bodyCode_of_ofBody (by simp) h
  rw [bodyLiterals_eq_held, bodyLiterals_eq_held]
  exact hcode.held_perm rfl

theorem ofBody_refs (h : ofBody body n = .ok code n') : (bodyRefs code).Perm (bodyRefs body) := by
  have hcode : BodyCode False body code := bodyCode_of_ofBody (by simp) h
  rw [bodyRefs_eq_held, bodyRefs_eq_held]
  exact hcode.held_perm rfl

/-- Each statement in common stands in the jump code. -/
theorem ofBody_numbers (h : ofBody body n = .ok code n') :
    (bodyNumbers code).Perm (bodyNumbers body) := by
  have hcode : BodyCode False body code := bodyCode_of_ofBody (by simp) h
  rw [bodyNumbers_eq_held, bodyNumbers_eq_held]
  exact hcode.held_perm rfl

/-- Lowering makes no yields. -/
theorem ofBody_unyielding (h : ofBody body n = .ok code n')
    (hbody : Unyielding (allStmts body)) : Unyielding code := by
  have hcode : BodyCode False body code := bodyCode_of_ofBody (by simp) h
  obtain ⟨c, falls, hlist, rfl⟩ := hcode
  simp [Stmt.isYield, hlist.unyielding hbody]

end JumpCode

end Resumable
