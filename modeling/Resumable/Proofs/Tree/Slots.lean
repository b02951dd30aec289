import Mathlib.Data.List.Basic
import Resumable.Proofs.Lowering.After
import Resumable.Proofs.Tree.Contents

/-!
# Replacing the slots of a body

Replacing the expressions of a body works on its filled slots one after the
other and changes nothing else: the forms of all statements stay, and the slots
of the new body hold the results in the order in which they were made.
-/

namespace Resumable

/-! ## The order of the slots -/

mutual

def Stmt.visited : Stmt → List Expr
  | .ifElse c t e => filled [c] ++ (visitedList t ++ visitedList e)
  | .whileLoop c body _ => filled [c] ++ visitedList body
  | .doWhile c body _ => visitedList body ++ filled [c]
  | .forLoop init cond post body _ => filled [init, cond, post] ++ visitedList body
  | .forIn _ x body _ => filled [x] ++ visitedList body
  | .switch x body _ => filled [x] ++ visitedList body
  | .tryCatch body catches => visitedList body ++ visitedCatches catches
  | .catchClause c => visitedCatch c
  | s => filled s.slots

def visitedList : List Stmt → List Expr
  | [] => []
  | s :: rest => s.visited ++ visitedList rest

def visitedCatch : Catch → List Expr
  | .mk _ body => visitedList body

def visitedCatches : List Catch → List Expr
  | [] => []
  | c :: rest => visitedCatch c ++ visitedCatches rest

end

mutual

/-- All slots of a statement and of the statements in it, missing ones included,
in the order in which they are replaced. -/
def Stmt.row : Stmt → List Expr
  | .ifElse c t e => c :: (rowList t ++ rowList e)
  | .whileLoop c body _ => c :: rowList body
  | .doWhile c body _ => rowList body ++ [c]
  | .forLoop init cond post body _ => init :: cond :: post :: rowList body
  | .forIn _ x body _ => x :: rowList body
  | .switch x body _ => x :: rowList body
  | .tryCatch body catches => rowList body ++ rowCatches catches
  | .catchClause c => rowCatch c
  | s => s.slots

def rowList : List Stmt → List Expr
  | [] => []
  | s :: rest => s.row ++ rowList rest

def rowCatch : Catch → List Expr
  | .mk _ body => rowList body

def rowCatches : List Catch → List Expr
  | [] => []
  | c :: rest => rowCatch c ++ rowCatches rest

end

theorem filled_append (xs ys : List Expr) : filled (xs ++ ys) = filled xs ++ filled ys :=
  List.filter_append ..

mutual

theorem Stmt.filled_row : (s : Stmt) → filled s.row = s.visited
  | .ifElse c t e => by
      rw [Stmt.row, Stmt.visited, filled_cons, filled_append, filled_rowList t, filled_rowList e]
  | .whileLoop c body _ | .forIn _ c body _ | .switch c body _ => by
      rw [Stmt.row, Stmt.visited, filled_cons, filled_rowList body]
  | .doWhile c body _ => by
      rw [Stmt.row, Stmt.visited, filled_append, filled_rowList body]
  | .forLoop init cond post body _ => by
      rw [Stmt.row, Stmt.visited, ← filled_rowList body, ← filled_append]
      rfl
  | .tryCatch body catches => by
      rw [Stmt.row, Stmt.visited, filled_append, filled_rowList body, filled_rowCatches catches]
  | .catchClause c => by
      rw [Stmt.row, Stmt.visited, filled_rowCatch c]
  | .missing | .simple .. | .breakTo _ | .continueTo _ | .caseMark _ | .defaultMark | .label _
  | .goto _ | .condGoto .. | .dispatch .. => by
      simp only [Stmt.row, Stmt.visited]

theorem filled_rowList : (body : List Stmt) → filled (rowList body) = visitedList body
  | [] => rfl
  | s :: rest => by
      rw [rowList, visitedList, filled_append, s.filled_row, filled_rowList rest]

theorem filled_rowCatch : (c : Catch) → filled (rowCatch c) = visitedCatch c
  | .mk _ body => by
      rw [rowCatch, visitedCatch, filled_rowList body]

theorem filled_rowCatches : (catches : List Catch) →
    filled (rowCatches catches) = visitedCatches catches
  | [] => rfl
  | c :: rest => by
      rw [rowCatches, visitedCatches, filled_append, filled_rowCatch c, filled_rowCatches rest]

end

def exprsOf (stmts : List Stmt) : List Expr :=
  stmts.flatMap Stmt.exprs

@[simp] theorem exprsOf_cons (s : Stmt) (rest : List Stmt) :
    exprsOf (s :: rest) = filled s.slots ++ exprsOf rest := rfl

@[simp] theorem exprsOf_append (xs ys : List Stmt) : exprsOf (xs ++ ys) = exprsOf xs ++ exprsOf ys :=
  List.flatMap_append

mutual

theorem Stmt.visited_perm : (s : Stmt) → s.visited.Perm (exprsOf (s.preorder fun _ => true))
  | .ifElse c t e => by
      simp only [Stmt.visited, Stmt.preorder, if_true, exprsOf_cons, exprsOf_append, Stmt.slots]
      exact ((visitedList_perm t).append (visitedList_perm e)).append_left _
  | .whileLoop c body l | .forLoop i c p body l | .forIn k x body l | .switch x body l => by
      simp only [Stmt.visited, Stmt.preorder, if_true, exprsOf_cons, Stmt.slots]
      exact (visitedList_perm body).append_left _
  | .doWhile c body l => by
      simp only [Stmt.visited, Stmt.preorder, if_true, exprsOf_cons, Stmt.slots]
      exact List.perm_append_comm.trans ((visitedList_perm body).append_left _)
  | .tryCatch body catches => by
      simp only [Stmt.visited, Stmt.preorder, if_true, exprsOf_cons, exprsOf_append, Stmt.slots]
      exact (visitedList_perm body).append (visitedCatches_perm catches)
  | .catchClause c => by
      simp only [Stmt.visited, Stmt.preorder, if_true, exprsOf_cons, Stmt.slots]
      exact visitedCatch_perm c
  | .missing | .simple .. | .breakTo _ | .continueTo _ | .caseMark _ | .defaultMark | .label _
  | .goto _ | .condGoto .. | .dispatch .. => by
      simp [Stmt.visited, Stmt.preorder, exprsOf, Stmt.exprs, filled]

theorem visitedList_perm : (body : List Stmt) → (visitedList body).Perm (allExprs body)
  | [] => .nil
  | s :: rest => by
      rw [visitedList, allExprs, allStmts, preorderList, List.flatMap_append]
      exact s.visited_perm.append (visitedList_perm rest)

theorem visitedCatch_perm : (c : Catch) →
    (visitedCatch c).Perm (exprsOf (preorderCatch (fun _ => true) c))
  | .mk _ body => by
      rw [visitedCatch, preorderCatch]
      exact visitedList_perm body

theorem visitedCatches_perm : (catches : List Catch) →
    (visitedCatches catches).Perm (exprsOf (preorderCatches (fun _ => true) catches))
  | [] => .nil
  | c :: rest => by
      rw [visitedCatches, preorderCatches, exprsOf_append]
      exact (visitedCatch_perm c).append (visitedCatches_perm rest)

end

/-! ## Results in order -/

section

variable {σ : Type} {f : Expr → StateM σ Expr}

inductive Replaces (f : Expr → StateM σ Expr) : List Expr → σ → List Expr → σ → Prop where
  | nil (s : σ) : Replaces f [] s [] s
  | cons {e : Expr} {es es' : List Expr} {s t : σ} : Replaces f es (f e s).2 es' t →
      Replaces f (e :: es) s ((f e s).1 :: es') t

theorem Replaces.append {es es' ds ds' : List Expr} {s t u : σ} (first : Replaces f es s es' t)
    (second : Replaces f ds t ds' u) : Replaces f (es ++ ds) s (es' ++ ds') u := by
  induction first with
  | nil => exact second
  | cons _ ih => exact .cons (ih second)

/-- What holds of the slots done and those to come goes on to hold if each
replacement keeps it so. -/
theorem Replaces.invariant {I : List Expr → List Expr → σ → Prop}
    {es es' : List Expr} {s t : σ} (h : Replaces f es s es' t)
    (hstep : ∀ done e rest s, I done (e :: rest) s → I (done ++ [(f e s).1]) rest (f e s).2)
    {done : List Expr} (hstart : I done es s) : I (done ++ es') [] t := by
  induction h generalizing done with
  | nil =>
      rw [List.append_nil]
      exact hstart
  | cons _ ih =>
      have hrest := ih (hstep _ _ _ _ hstart)
      rwa [List.append_assoc] at hrest

def Fills (f : Expr → StateM σ Expr) : Prop :=
  ∀ e s, e.isMissing = false → (f e s).1.isMissing = false

theorem replaces_mapSlot (hf : Fills f) (e : Expr) (s : σ) :
    Replaces f (filled [e]) s (filled [(mapSlot f e s).1]) (mapSlot f e s).2 := by
  unfold mapSlot
  cases he : e.isMissing with
  | true =>
      have hfilled : filled [e] = [] := by simp [filled, he]
      rw [if_pos rfl]
      change Replaces f (filled [e]) s (filled [e]) s
      rw [hfilled]
      exact .nil s
  | false =>
      have hfilled : filled [e] = [e] := by simp [filled, he]
      have hfilled' : filled [(f e s).1] = [(f e s).1] := by simp [filled, hf e s he]
      rw [if_neg Bool.false_ne_true, hfilled, hfilled']
      exact .cons (.nil _)

/-- The first slot of a row, then the others. -/
theorem replaces_cons (hf : Fills f) (e : Expr) (s : σ) {es es' : List Expr} {t : σ}
    (h : Replaces f (filled es) (mapSlot f e s).2 (filled es') t) :
    Replaces f (filled (e :: es)) s (filled ((mapSlot f e s).1 :: es')) t := by
  rw [filled_cons e, filled_cons (mapSlot f e s).1]
  exact (replaces_mapSlot hf e s).append h

theorem row_mapM (es : List Expr) (s : σ) :
    Replaces (mapSlot f) es s (es.mapM (mapSlot f) s).1 (es.mapM (mapSlot f) s).2 := by
  induction es generalizing s with
  | nil => exact .nil s
  | cons e es ih =>
      rw [List.mapM_cons]
      exact .cons (ih (mapSlot f e s).2)

theorem row_simple (s : Simple) (st : σ) :
    Replaces (mapSlot f) s.slots st (s.mapExprs f st).1.slots (s.mapExprs f st).2 := by
  cases s with
  | debugger => exact .nil st
  | log args => exact row_mapM args st
  | super cls args => exact row_mapM args st
  | _ => exact .cons (.nil _)

theorem row_arms (arms : List Arm) (st : σ) :
    Replaces (mapSlot f) (arms.map (·.value)) st
      ((arms.mapM (mapArm f) st).1.map (·.value)) (arms.mapM (mapArm f) st).2 := by
  induction arms generalizing st with
  | nil => exact .nil st
  | cons arm arms ih =>
      rw [List.mapM_cons]
      exact .cons (ih (mapSlot f arm.value st).2)

mutual

/-- The slots of the new statement hold the results of replacing those of the
old one in order. -/
theorem Stmt.row_mapExprs : (s : Stmt) → (st : σ) →
    Replaces (mapSlot f) s.row st (s.mapExprs f st).1.row (s.mapExprs f st).2
  | .simple s share, st => by
      simp only [Stmt.row]
      exact row_simple s st
  | .caseMark x, st | .condGoto x _ _, st => by
      simp only [Stmt.row]
      exact .cons (.nil _)
  | .ifElse c t e, st => by
      simp only [Stmt.row]
      exact .cons ((row_mapExprsList t _).append (row_mapExprsList e _))
  | .whileLoop c body _, st | .forIn _ c body _, st | .switch c body _, st => by
      simp only [Stmt.row]
      exact .cons (row_mapExprsList body _)
  | .doWhile c body _, st => by
      simp only [Stmt.row]
      exact (row_mapExprsList body st).append (.cons (.nil _))
  | .forLoop init cond post body _, st => by
      simp only [Stmt.row]
      exact .cons (.cons (.cons (row_mapExprsList body _)))
  | .tryCatch body catches, st => by
      simp only [Stmt.row]
      exact (row_mapExprsList body st).append (row_mapExprsCatches catches _)
  | .catchClause c, st => by
      simp only [Stmt.row]
      exact row_mapExprsCatch c st
  | .dispatch x arms, st => by
      simp only [Stmt.row]
      exact .cons (row_arms arms _)
  | .missing, st | .breakTo _, st | .continueTo _, st | .defaultMark, st | .label _, st
  | .goto _, st => .nil st

theorem row_mapExprsList : (body : List Stmt) → (st : σ) →
    Replaces (mapSlot f) (rowList body) st (rowList (mapExprsList f body st).1)
      (mapExprsList f body st).2
  | [], st => .nil st
  | s :: rest, st => (s.row_mapExprs st).append (row_mapExprsList rest _)

theorem row_mapExprsCatch : (c : Catch) → (st : σ) →
    Replaces (mapSlot f) (rowCatch c) st (rowCatch (mapExprsCatch f c st).1)
      (mapExprsCatch f c st).2
  | .mk _ body, st => row_mapExprsList body st

theorem row_mapExprsCatches : (catches : List Catch) → (st : σ) →
    Replaces (mapSlot f) (rowCatches catches) st (rowCatches (mapExprsCatches f catches st).1)
      (mapExprsCatches f catches st).2
  | [], st => .nil st
  | c :: rest, st => (row_mapExprsCatch c st).append (row_mapExprsCatches rest _)

end

/-- Only the filled slots of a row are worked on. -/
theorem Replaces.on_filled (hf : Fills f) {es es' : List Expr} {s t : σ}
    (h : Replaces (mapSlot f) es s es' t) : Replaces f (filled es) s (filled es') t := by
  induction h with
  | nil s => exact .nil s
  | cons _ ih => exact replaces_cons hf _ _ ih

theorem Stmt.replaces (hf : Fills f) (s : Stmt) (st : σ) :
    Replaces f s.visited st (s.mapExprs f st).1.visited (s.mapExprs f st).2 := by
  rw [← s.filled_row, ← Stmt.filled_row]
  exact (s.row_mapExprs st).on_filled hf

/-- The filled slots of the new body hold the results of replacing those of the
old one in order. -/
theorem replaces_list (hf : Fills f) (body : List Stmt) (st : σ) :
    Replaces f (visitedList body) st (visitedList (mapExprsList f body st).1)
      (mapExprsList f body st).2 := by
  rw [← filled_rowList body, ← filled_rowList]
  exact (row_mapExprsList body st).on_filled hf

/-! ## Forms of statements -/

def Expr.stub (e : Expr) : Expr :=
  if e.isMissing then .missing else .receiver .void

def Simple.form : Simple → Simple
  | .expr x => .expr x.stub
  | .ret x => .ret x.stub
  | .yield x => .yield x.stub
  | .delete x => .delete x.stub
  | .throw x => .throw x.stub
  | .assert x message => .assert x.stub message
  | .log args => .log (args.map Expr.stub)
  | .super cls args => .super cls (args.map Expr.stub)
  | .debugger => .debugger

/-- A statement without its expressions and without the statements in it. -/
def Stmt.form : Stmt → Stmt
  | .simple s share => .simple s.form share
  | .caseMark x => .caseMark x.stub
  | .condGoto c t e => .condGoto c.stub t e
  | .ifElse c _ _ => .ifElse c.stub [] []
  | .whileLoop c _ l => .whileLoop c.stub [] l
  | .doWhile c _ l => .doWhile c.stub [] l
  | .forLoop init cond post _ l => .forLoop init.stub cond.stub post.stub [] l
  | .forIn k x _ l => .forIn k x.stub [] l
  | .switch x _ l => .switch x.stub [] l
  | .tryCatch _ catches => .tryCatch [] (catches.map fun c => .mk c.var [])
  | .catchClause c => .catchClause (.mk c.var [])
  | .dispatch x arms => .dispatch x.stub (arms.map fun arm => ⟨arm.value.stub, arm.target⟩)
  | s => s

theorem stub_mapSlot (hf : Fills f) (e : Expr) (s : σ) : (mapSlot f e s).1.stub = e.stub := by
  unfold mapSlot
  cases he : e.isMissing with
  | true => rfl
  | false =>
      rw [if_neg Bool.false_ne_true]
      simp [Expr.stub, he, hf e s he]

theorem stub_mapM (hf : Fills f) (es : List Expr) (s : σ) :
    (es.mapM (mapSlot f) s).1.map Expr.stub = es.map Expr.stub := by
  induction es generalizing s with
  | nil => rfl
  | cons e es ih =>
      rw [List.mapM_cons]
      exact congrArg₂ List.cons (stub_mapSlot hf e s) (ih _)

theorem form_arms (hf : Fills f) (arms : List Arm) (s : σ) :
    (arms.mapM (mapArm f) s).1.map (fun arm => (⟨arm.value.stub, arm.target⟩ : Arm)) =
      arms.map fun arm => ⟨arm.value.stub, arm.target⟩ := by
  induction arms generalizing s with
  | nil => rfl
  | cons arm arms ih =>
      rw [List.mapM_cons]
      refine congrArg₂ List.cons ?_ (ih _)
      exact congrArg (fun e => (⟨e, arm.target⟩ : Arm)) (stub_mapSlot hf arm.value s)

theorem form_catches (catches : List Catch) (s : σ) :
    (mapExprsCatches f catches s).1.map (fun c => Catch.mk c.var []) =
      catches.map fun c => .mk c.var [] := by
  induction catches generalizing s with
  | nil => rfl
  | cons c catches ih =>
      cases c
      exact congrArg (List.cons _) (ih _)

theorem Simple.form_mapExprs (hf : Fills f) (s : Simple) (st : σ) :
    (s.mapExprs f st).1.form = s.form := by
  cases s with
  | debugger => rfl
  | log args => exact congrArg Simple.log (stub_mapM hf args st)
  | super cls args => exact congrArg (Simple.super cls) (stub_mapM hf args st)
  | expr x => exact congrArg Simple.expr (stub_mapSlot hf x st)
  | ret x => exact congrArg Simple.ret (stub_mapSlot hf x st)
  | yield x => exact congrArg Simple.yield (stub_mapSlot hf x st)
  | delete x => exact congrArg Simple.delete (stub_mapSlot hf x st)
  | throw x => exact congrArg Simple.throw (stub_mapSlot hf x st)
  | assert x message => exact congrArg (Simple.assert · message) (stub_mapSlot hf x st)

/-- Replacing its expressions leaves the form of a statement alone. -/
theorem Stmt.form_mapExprs (hf : Fills f) (s : Stmt) (st : σ) :
    (s.mapExprs f st).1.form = s.form := by
  cases s with
  | simple s share => exact congrArg (Stmt.simple · share) (s.form_mapExprs hf st)
  | caseMark x => exact congrArg Stmt.caseMark (stub_mapSlot hf x st)
  | condGoto c t e => exact congrArg (Stmt.condGoto · t e) (stub_mapSlot hf c st)
  | ifElse c t e => exact congrArg (Stmt.ifElse · [] []) (stub_mapSlot hf c st)
  | whileLoop c body l => exact congrArg (Stmt.whileLoop · [] l) (stub_mapSlot hf c st)
  | doWhile c body l => exact congrArg (Stmt.doWhile · [] l) (stub_mapSlot hf c _)
  | forLoop init cond post body l =>
      change Stmt.forLoop (mapSlot f init st).1.stub (mapSlot f cond _).1.stub
        (mapSlot f post _).1.stub [] l = _
      rw [stub_mapSlot hf, stub_mapSlot hf, stub_mapSlot hf]
      rfl
  | forIn k x body l => exact congrArg (Stmt.forIn k · [] l) (stub_mapSlot hf x st)
  | switch x body l => exact congrArg (Stmt.switch · [] l) (stub_mapSlot hf x st)
  | tryCatch body catches => exact congrArg (Stmt.tryCatch []) (form_catches catches _)
  | catchClause c =>
      cases c
      rfl
  | dispatch x arms =>
      exact congrArg₂ Stmt.dispatch (stub_mapSlot hf x st) (form_arms hf arms _)
  | _ => rfl

mutual

theorem Stmt.forms_mapExprs (hf : Fills f) : (s : Stmt) → (st : σ) →
    ((s.mapExprs f st).1.preorder fun _ => true).map Stmt.form =
      (s.preorder fun _ => true).map Stmt.form
  | .ifElse c t e, st => by
      refine congrArg₂ List.cons (Stmt.form_mapExprs hf (.ifElse c t e) st) ?_
      rw [List.map_append, List.map_append]
      exact congrArg₂ List.append (forms_list hf t _) (forms_list hf e _)
  | .whileLoop c body l, st =>
      congrArg₂ List.cons (Stmt.form_mapExprs hf (.whileLoop c body l) st) (forms_list hf body _)
  | .doWhile c body l, st =>
      congrArg₂ List.cons (Stmt.form_mapExprs hf (.doWhile c body l) st) (forms_list hf body _)
  | .forLoop init cond post body l, st =>
      congrArg₂ List.cons (Stmt.form_mapExprs hf (.forLoop init cond post body l) st)
        (forms_list hf body _)
  | .forIn k x body l, st =>
      congrArg₂ List.cons (Stmt.form_mapExprs hf (.forIn k x body l) st) (forms_list hf body _)
  | .switch x body l, st =>
      congrArg₂ List.cons (Stmt.form_mapExprs hf (.switch x body l) st) (forms_list hf body _)
  | .tryCatch body catches, st => by
      refine congrArg₂ List.cons (Stmt.form_mapExprs hf (.tryCatch body catches) st) ?_
      rw [List.map_append, List.map_append]
      exact congrArg₂ List.append (forms_list hf body _) (forms_catches hf catches _)
  | .catchClause (.mk v body), st =>
      congrArg₂ List.cons (Stmt.form_mapExprs hf (.catchClause (.mk v body)) st)
        (forms_list hf body _)
  | .simple s share, st => congrArg (List.cons · []) (Stmt.form_mapExprs hf (.simple s share) st)
  | .caseMark x, st => congrArg (List.cons · []) (Stmt.form_mapExprs hf (.caseMark x) st)
  | .condGoto c t e, st => congrArg (List.cons · []) (Stmt.form_mapExprs hf (.condGoto c t e) st)
  | .dispatch x arms, st => congrArg (List.cons · []) (Stmt.form_mapExprs hf (.dispatch x arms) st)
  | .missing, _ | .breakTo _, _ | .continueTo _, _ | .defaultMark, _ | .label _, _
  | .goto _, _ => rfl

/-- Replacing the expressions of a body leaves the forms of its statements
alone. -/
theorem forms_list (hf : Fills f) : (body : List Stmt) → (st : σ) →
    (allStmts (mapExprsList f body st).1).map Stmt.form = (allStmts body).map Stmt.form
  | [], _ => rfl
  | s :: rest, st => by
      have hfirst := s.forms_mapExprs hf st
      have hrest := forms_list hf rest (s.mapExprs f st).2
      change ((s.mapExprs f st).1.preorder (fun _ => true) ++
        allStmts (mapExprsList f rest (s.mapExprs f st).2).1).map Stmt.form =
        (s.preorder (fun _ => true) ++ allStmts rest).map Stmt.form
      rw [List.map_append, List.map_append, hfirst, hrest]

theorem forms_catches (hf : Fills f) : (catches : List Catch) → (st : σ) →
    (preorderCatches (fun _ => true) (mapExprsCatches f catches st).1).map Stmt.form =
      (preorderCatches (fun _ => true) catches).map Stmt.form
  | [], _ => rfl
  | .mk v body :: rest, st => by
      have hfirst := forms_list hf body st
      have hrest := forms_catches hf rest (mapExprsList f body st).2
      change (allStmts (mapExprsList f body st).1 ++ preorderCatches (fun _ => true)
        (mapExprsCatches f rest (mapExprsList f body st).2).1).map Stmt.form =
        (allStmts body ++ preorderCatches (fun _ => true) rest).map Stmt.form
      rw [List.map_append, List.map_append, hfirst, hrest]

end

end

/-! ## Replacements that may fail -/

section

variable {σ ε : Type} {f : Expr → EStateM ε σ Expr}

def FillsOnSuccess (f : Expr → EStateM ε σ Expr) : Prop :=
  ∀ e s e' s', f e s = .ok e' s' → e'.isMissing = false

theorem fills_untilFailure (hf : FillsOnSuccess f) : Fills (untilFailure f) := by
  rintro e ⟨s, failure⟩ he
  cases failure with
  | some _ => exact he
  | none =>
      unfold untilFailure
      cases h : f e s with
      | ok e' s' => simpa [h] using hf e s e' s' h
      | error err s' => simpa [h] using he

/-- What replacing one slot after the other keeps up until the first failure. -/
theorem replaceSlots_invariant {I : List Expr → List Expr → σ → Prop} {F : σ → Prop}
    (hf : FillsOnSuccess f)
    (hstep : ∀ done e rest s, I done (e :: rest) s →
      After (f e) s (fun e' s' => I (done ++ [e']) rest s') F)
    {body body' : List Stmt} {s s' : σ} {failure : Option ε}
    (h : replaceSlots f body s = (body', s', failure)) (hstart : I [] (visitedList body) s) :
    failure.elim (I (visitedList body') [] s') fun _ => F s' := by
  have hrun := replaces_list (fills_untilFailure hf) body (s, none)
  cases h
  refine hrun.invariant (I := fun done rest st =>
    st.2.elim (I done rest st.1) fun _ => F st.1) ?_ hstart
  rintro done e rest ⟨s, failure⟩ hst
  cases failure with
  | some _ => exact hst
  | none =>
      unfold untilFailure
      cases he : f e s with
      | ok e' s' => simpa [he] using (hstep done e rest s hst).ok he
      | error err s' => simpa [he] using (hstep done e rest s hst).error he

theorem forms_replaceSlots (hf : FillsOnSuccess f) {body body' : List Stmt} {s s' : σ}
    {failure : Option ε} (h : replaceSlots f body s = (body', s', failure)) :
    (allStmts body').map Stmt.form = (allStmts body).map Stmt.form := by
  cases h
  exact forms_list (fills_untilFailure hf) body (s, none)

end

end Resumable
