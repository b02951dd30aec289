import Resumable.Arena.Sharing

/-!
# What a tree mentions

The variables and the functions that an expression mentions, and the numbers
under which a body holds statements in common with others.
-/

namespace Resumable

namespace Expr

theorem nodesList_eq_flatMap (es : List Expr) : nodesList es = es.flatMap nodes := by
  induction es with
  | nil => rfl
  | cons e es ih => rw [nodesList, ih, List.flatMap_cons]

theorem sizeOf_lt_of_mem_children {e x : Expr} (h : x ∈ e.children) : sizeOf x < sizeOf e := by
  cases e with
  | call callee args t =>
      rcases List.mem_cons.1 h with rfl | h
      · simp only [call.sizeOf_spec]
        omega
      · have hlt : sizeOf x < sizeOf args := List.sizeOf_lt_of_mem h
        simp only [call.sizeOf_spec]
        omega
  | construct cls args =>
      have hlt : sizeOf x < sizeOf args := List.sizeOf_lt_of_mem h
      simp only [construct.sizeOf_spec]
      omega
  | _ =>
      simp only [children, List.mem_cons, List.not_mem_nil, or_false] at h
      try rcases h with rfl | rfl | rfl <;> simp <;> omega

def isCall : Expr → Bool
  | .call .. => true
  | _ => false

/-- What holds of an expression if it holds of its children holds of all
expressions. -/
theorem children_induction {P : Expr → Prop} (h : ∀ e, (∀ c ∈ e.children, P c) → P e) (e : Expr) :
    P e :=
  h e fun c hc =>
    have := sizeOf_lt_of_mem_children hc
    children_induction h c
termination_by sizeOf e

/-- Whether an expression does not have a form that can name a field. -/
def isPlaceless : Expr → Bool
  | .property .. | .binary .. => false
  | _ => true

theorem nodes_subset {d e : Expr} (hd : d ∈ e.children) : d.nodes ⊆ e.nodes := by
  intro n hn
  have hmem : n ∈ e.children.flatMap nodes := List.mem_flatMap.2 ⟨d, hd, hn⟩
  cases e with
  | missing | literal | ref | receiver | lambda => cases hd
  | _ =>
      rw [nodes]
      exact List.mem_cons_of_mem _ (by simpa [children, nodesList_eq_flatMap] using hmem)

/-- What a walk picks from an expression that it does not pick itself. -/
theorem filterMap_nodes {β : Type} {pick : Expr → Option β} {e : Expr} (h : pick e = none) :
    e.nodes.filterMap pick = e.children.flatMap fun c => c.nodes.filterMap pick := by
  cases e <;>
    simp [nodes, children, h, nodesList_eq_flatMap, List.filterMap_flatMap]

def vars (e : Expr) : List Variable :=
  e.nodes.filterMap fun n =>
    match n with
    | .ref v => some v
    | _ => none

/-- The functions that the literals of an expression name, each as often as it
is named. -/
def literals (e : Expr) : List FuncId :=
  e.nodes.filterMap lambdaId?

section

variable (op : UnaryOp) (op₂ : BinaryOp) (x y z : Expr) (es : List Expr) (t : Ty)

@[simp] theorem vars_missing : missing.vars = [] := rfl
@[simp] theorem vars_literal (l : Literal) : (literal l t).vars = [] := rfl
@[simp] theorem vars_ref (v : Variable) : (ref v).vars = [v] := rfl
@[simp] theorem vars_receiver : (receiver t).vars = [] := rfl
@[simp] theorem vars_lambda (fn : FuncId) : (lambda fn t).vars = [] := rfl
@[simp] theorem vars_unary : (unary op x t).vars = x.vars :=
  (filterMap_nodes rfl).trans (List.flatMap_singleton ..)
@[simp] theorem vars_binary : (binary op₂ x y t).vars = x.vars ++ y.vars :=
  (filterMap_nodes rfl).trans (by simp [children, vars])
@[simp] theorem vars_conditional :
    (conditional x y z t).vars = x.vars ++ (y.vars ++ z.vars) :=
  (filterMap_nodes rfl).trans (by simp [children, vars])
@[simp] theorem vars_assign : (assign x y).vars = x.vars ++ y.vars :=
  (filterMap_nodes rfl).trans (by simp [children, vars])
@[simp] theorem vars_call :
    (call x es t).vars = x.vars ++ es.flatMap vars :=
  filterMap_nodes rfl
@[simp] theorem vars_property (name : String) : (property x name t).vars = x.vars :=
  (filterMap_nodes rfl).trans (List.flatMap_singleton ..)
@[simp] theorem vars_construct (cls : Option ClassId) :
    (construct cls es).vars = es.flatMap vars :=
  filterMap_nodes rfl

@[simp] theorem literals_missing : missing.literals = [] := rfl
@[simp] theorem literals_literal (l : Literal) : (literal l t).literals = [] := rfl
@[simp] theorem literals_ref (v : Variable) : (ref v).literals = [] := rfl
@[simp] theorem literals_receiver : (receiver t).literals = [] := rfl
@[simp] theorem literals_lambda (fn : FuncId) : (lambda fn t).literals = [fn] := rfl
@[simp] theorem literals_unary : (unary op x t).literals = x.literals :=
  (filterMap_nodes rfl).trans (List.flatMap_singleton ..)
@[simp] theorem literals_binary : (binary op₂ x y t).literals = x.literals ++ y.literals :=
  (filterMap_nodes rfl).trans (by simp [children, literals])
@[simp] theorem literals_conditional :
    (conditional x y z t).literals = x.literals ++ (y.literals ++ z.literals) :=
  (filterMap_nodes rfl).trans (by simp [children, literals])
@[simp] theorem literals_assign : (assign x y).literals = x.literals ++ y.literals :=
  (filterMap_nodes rfl).trans (by simp [children, literals])
@[simp] theorem literals_call :
    (call x es t).literals = x.literals ++ es.flatMap literals :=
  filterMap_nodes rfl
@[simp] theorem literals_property (name : String) : (property x name t).literals = x.literals :=
  (filterMap_nodes rfl).trans (List.flatMap_singleton ..)
@[simp] theorem literals_construct (cls : Option ClassId) :
    (construct cls es).literals = es.flatMap literals :=
  filterMap_nodes rfl

end

end Expr

def filled (es : List Expr) : List Expr :=
  es.filter fun e => !e.isMissing

@[simp] theorem filled_nil : filled [] = [] := rfl

theorem filled_cons (e : Expr) (es : List Expr) : filled (e :: es) = filled [e] ++ filled es := by
  cases h : e.isMissing <;> simp [filled, h]

/-- Nothing is found in a missing slot. -/
theorem flatMap_filled {β : Type} {g : Expr → List β} (hg : g .missing = []) (es : List Expr) :
    (filled es).flatMap g = es.flatMap g := by
  induction es with
  | nil => rfl
  | cons e es ih =>
      rw [filled_cons, List.flatMap_append, ih, List.flatMap_cons]
      cases e with
      | missing => rw [hg]; rfl
      | _ => simp [filled, Expr.isMissing]

def bodyPicks {β : Type} (pick : Expr → Option β) (body : List Stmt) : List β :=
  (allExprs body).flatMap fun e => e.nodes.filterMap pick

def bodyLiterals (body : List Stmt) : List FuncId :=
  (allExprs body).flatMap Expr.literals

def bodyRefs (body : List Stmt) : List Variable :=
  (allExprs body).flatMap Expr.vars

/-! ## Bodies -/

theorem Stmt.mem_preorder (s : Stmt) : s ∈ s.preorder fun _ => true := by
  cases s <;> simp [preorder]

theorem mem_allStmts {s : Stmt} {body : List Stmt} (h : s ∈ body) : s ∈ allStmts body := by
  induction body with
  | nil => cases h
  | cons t rest ih =>
      rw [allStmts, preorderList]
      rcases List.mem_cons.1 h with rfl | h
      · exact List.mem_append_left _ s.mem_preorder
      · exact List.mem_append_right _ (ih h)

/-- Jump code has no parts but its statements. -/
theorem allStmts_of_flat {code : List Stmt} (h : ∀ s ∈ code, s.isStructured = false) :
    allStmts code = code := by
  induction code with
  | nil => rfl
  | cons s rest ih =>
      obtain ⟨hs, hrest⟩ := List.forall_mem_cons.1 h
      have hself : (s.preorder fun _ => true) = [s] := by
        cases s <;> first | rfl | cases hs
      rw [allStmts, preorderList, hself]
      exact congrArg (s :: ·) (ih hrest)

theorem preorderList_append (enter : Stmt → Bool) (xs ys : List Stmt) :
    preorderList enter (xs ++ ys) = preorderList enter xs ++ preorderList enter ys := by
  induction xs with
  | nil => rfl
  | cons s xs ih => rw [List.cons_append, preorderList, preorderList, ih, List.append_assoc]

@[simp] theorem allStmts_nil : allStmts [] = [] := rfl

@[simp] theorem allStmts_append (xs ys : List Stmt) :
    allStmts (xs ++ ys) = allStmts xs ++ allStmts ys :=
  preorderList_append _ xs ys

/-- What is picked from a body statement by statement. -/
theorem bodyPicks_eq {β : Type} (pick : Expr → Option β) (body : List Stmt) :
    bodyPicks pick body =
      (allStmts body).flatMap fun s => s.slots.flatMap fun e => e.nodes.filterMap pick := by
  rw [bodyPicks, allExprs, List.flatMap_assoc]
  exact congrArg (List.flatMap · (allStmts body)) (funext fun s => flatMap_filled rfl s.slots)

theorem bodyLiterals_eq (body : List Stmt) :
    bodyLiterals body = (allStmts body).flatMap fun s => s.slots.flatMap Expr.literals :=
  bodyPicks_eq Expr.lambdaId? body

theorem bodyRefs_eq (body : List Stmt) :
    bodyRefs body = (allStmts body).flatMap fun s => s.slots.flatMap Expr.vars :=
  bodyPicks_eq _ body

@[simp] theorem bodyPicks_append {β : Type} (pick : Expr → Option β) (xs ys : List Stmt) :
    bodyPicks pick (xs ++ ys) = bodyPicks pick xs ++ bodyPicks pick ys := by
  simp [bodyPicks, allExprs]

@[simp] theorem bodyLiterals_append (xs ys : List Stmt) :
    bodyLiterals (xs ++ ys) = bodyLiterals xs ++ bodyLiterals ys :=
  bodyPicks_append ..

@[simp] theorem bodyRefs_append (xs ys : List Stmt) :
    bodyRefs (xs ++ ys) = bodyRefs xs ++ bodyRefs ys :=
  bodyPicks_append ..

theorem allExprs_simple (s : Simple) (share : Option Nat) (rest : List Stmt) :
    allExprs (.simple s share :: rest) = filled s.slots ++ allExprs rest := rfl

@[simp] theorem bodyPicks_nil {β : Type} (pick : Expr → Option β) : bodyPicks pick [] = [] := rfl

@[simp] theorem bodyPicks_simple {β : Type} (pick : Expr → Option β) (s : Simple)
    (share : Option Nat) (rest : List Stmt) : bodyPicks pick (.simple s share :: rest) =
      (s.slots.flatMap fun e => e.nodes.filterMap pick) ++ bodyPicks pick rest := by
  rw [bodyPicks, allExprs_simple, List.flatMap_append, flatMap_filled rfl]
  rfl

@[simp] theorem bodyLiterals_nil : bodyLiterals [] = [] := rfl

@[simp] theorem bodyLiterals_simple (s : Simple) (share : Option Nat) (rest : List Stmt) :
    bodyLiterals (.simple s share :: rest) = s.slots.flatMap Expr.literals ++ bodyLiterals rest :=
  bodyPicks_simple ..

@[simp] theorem bodyRefs_nil : bodyRefs [] = [] := rfl

@[simp] theorem bodyRefs_simple (s : Simple) (share : Option Nat) (rest : List Stmt) :
    bodyRefs (.simple s share :: rest) = s.slots.flatMap Expr.vars ++ bodyRefs rest :=
  bodyPicks_simple ..

theorem mem_bodyClosures_iff {c : FuncId} {body : List Stmt} :
    c ∈ bodyClosures body ↔ c ∈ bodyLiterals body := by
  rw [bodyClosures, Expr.closures, List.mem_eraseDups, Expr.nodesList_eq_flatMap,
    List.filterMap_flatMap]
  rfl

def Program.bodyOf (p : Program) (id : FuncId) : List Stmt :=
  ((p.func? id).map Func.body).getD []

def Stmt.number? : Stmt → Option Nat
  | .simple _ share => share
  | _ => none

def bodyNumbers (body : List Stmt) : List Nat :=
  (allStmts body).filterMap Stmt.number?

@[simp] theorem bodyNumbers_nil : bodyNumbers [] = [] := rfl

def Stmt.isYield : Stmt → Bool
  | .simple (.yield _) _ => true
  | _ => false

end Resumable
