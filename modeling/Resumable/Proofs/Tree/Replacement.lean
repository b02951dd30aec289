import Resumable.Proofs.Tree.Slots

/-!
# Replacing and reading agree

A body is its outline, the tree with every slot empty, together with the row of
its slots. Replacing goes through the row from left to right and leaves the
outline alone: each filled slot is handed over once and receives what came back
for it. A failure leaves its own slot and all later ones as they were. The
filled slots of the row are those that reading a body lists.
-/

namespace Resumable

/-! ## Outlines -/

def Simple.outline : Simple → Simple
  | .expr _ => .expr .missing
  | .ret _ => .ret .missing
  | .yield _ => .yield .missing
  | .delete _ => .delete .missing
  | .throw _ => .throw .missing
  | .assert _ message => .assert .missing message
  | .log args => .log (args.map fun _ => .missing)
  | .super cls args => .super cls (args.map fun _ => .missing)
  | .debugger => .debugger

def Arm.outline (arm : Arm) : Arm :=
  { arm with value := .missing }

mutual

def Stmt.outline : Stmt → Stmt
  | .simple s share => .simple s.outline share
  | .caseMark _ => .caseMark .missing
  | .condGoto _ t e => .condGoto .missing t e
  | .ifElse _ t e => .ifElse .missing (outlineList t) (outlineList e)
  | .whileLoop _ body l => .whileLoop .missing (outlineList body) l
  | .doWhile _ body l => .doWhile .missing (outlineList body) l
  | .forLoop _ _ _ body l => .forLoop .missing .missing .missing (outlineList body) l
  | .forIn k _ body l => .forIn k .missing (outlineList body) l
  | .switch _ body l => .switch .missing (outlineList body) l
  | .tryCatch body catches => .tryCatch (outlineList body) (outlineCatches catches)
  | .catchClause c => .catchClause (outlineCatch c)
  | .dispatch _ arms => .dispatch .missing (arms.map Arm.outline)
  | .missing => .missing
  | .breakTo l => .breakTo l
  | .continueTo l => .continueTo l
  | .defaultMark => .defaultMark
  | .label l => .label l
  | .goto l => .goto l

def outlineList : List Stmt → List Stmt
  | [] => []
  | s :: rest => s.outline :: outlineList rest

def outlineCatch : Catch → Catch
  | .mk v body => .mk v (outlineList body)

def outlineCatches : List Catch → List Catch
  | [] => []
  | c :: rest => outlineCatch c :: outlineCatches rest

end

/-! ## A tree is its outline and its row

Each lemma reads a tree off the front of a row and says that the rest of the row
agrees as well, so that the parts of a statement can be read one after the
other. -/

theorem slots_append_inj {args args' r r' : List Expr}
    (h : args.map (fun _ => Expr.missing) = args'.map fun _ => .missing)
    (hrow : args ++ r = args' ++ r') : args = args' ∧ r = r' := by
  have hlength : args.length = args'.length := by
    simpa using congrArg List.length h
  exact List.append_inj hrow hlength

theorem arms_append_inj {arms arms' : List Arm} {r r' : List Expr}
    (h : arms.map Arm.outline = arms'.map Arm.outline)
    (hrow : arms.map (·.value) ++ r = arms'.map (·.value) ++ r') : arms = arms' ∧ r = r' := by
  induction arms generalizing arms' with
  | nil =>
      cases arms' with
      | nil => exact ⟨rfl, hrow⟩
      | cons _ _ => cases h
  | cons arm arms ih =>
      cases arms' with
      | nil => cases h
      | cons arm' arms' =>
          obtain ⟨value, target⟩ := arm
          obtain ⟨value', target'⟩ := arm'
          simp only [List.map_cons, Arm.outline, List.cons.injEq, Arm.mk.injEq, true_and] at h
          obtain ⟨hvalue, hrest⟩ := List.cons.inj hrow
          obtain ⟨rfl, rfl⟩ := ih h.2 hrest
          cases hvalue
          cases h.1
          exact ⟨rfl, rfl⟩

theorem Simple.append_inj {s s' : Simple} {r r' : List Expr} (h : s.outline = s'.outline)
    (hrow : s.slots ++ r = s'.slots ++ r') : s = s' ∧ r = r' := by
  cases s <;> cases s' <;>
    simp only [outline, reduceCtorEq, super.injEq, log.injEq, assert.injEq, true_and] at h
  case log.log args args' =>
    obtain ⟨rfl, rfl⟩ := slots_append_inj h hrow
    exact ⟨rfl, rfl⟩
  case super.super cls args cls' args' =>
    obtain ⟨rfl, rfl⟩ := slots_append_inj h.2 hrow
    cases h.1
    exact ⟨rfl, rfl⟩
  all_goals
    simp_all [slots]

mutual

theorem Stmt.append_inj : (s : Stmt) → {s' : Stmt} → {r r' : List Expr} →
    s.outline = s'.outline → s.row ++ r = s'.row ++ r' → s = s' ∧ r = r'
  | .simple s share, s', r, r', h, hrow => by
      cases s' <;> simp only [Stmt.outline, reduceCtorEq, Stmt.simple.injEq] at h
      obtain ⟨hs, rfl⟩ := h
      obtain ⟨rfl, rfl⟩ := Simple.append_inj hs hrow
      exact ⟨rfl, rfl⟩
  | .ifElse c t e, s', r, r', h, hrow => by
      cases s' <;> simp only [Stmt.outline, reduceCtorEq, Stmt.ifElse.injEq] at h
      simp only [Stmt.row, List.cons_append, List.append_assoc, List.cons.injEq] at hrow
      obtain ⟨rfl, hrow⟩ := hrow
      obtain ⟨rfl, hrest⟩ := appendList_inj t h.2.1 hrow
      obtain ⟨rfl, rfl⟩ := appendList_inj e h.2.2 hrest
      exact ⟨rfl, rfl⟩
  | .whileLoop c body l, s', r, r', h, hrow => by
      cases s' <;> simp only [Stmt.outline, reduceCtorEq, Stmt.whileLoop.injEq] at h
      simp only [Stmt.row, List.cons_append, List.cons.injEq] at hrow
      obtain ⟨rfl, hrow⟩ := hrow
      obtain ⟨rfl, rfl⟩ := appendList_inj body h.2.1 hrow
      exact ⟨by rw [h.2.2], rfl⟩
  | .doWhile c body l, s', r, r', h, hrow => by
      cases s' <;> simp only [Stmt.outline, reduceCtorEq, Stmt.doWhile.injEq] at h
      simp only [Stmt.row, List.append_assoc] at hrow
      obtain ⟨rfl, hrest⟩ := appendList_inj body h.2.1 hrow
      obtain ⟨rfl, rfl⟩ := List.cons.inj hrest
      exact ⟨by rw [h.2.2], rfl⟩
  | .forLoop i c p body l, s', r, r', h, hrow => by
      cases s' <;> simp only [Stmt.outline, reduceCtorEq, Stmt.forLoop.injEq] at h
      simp only [Stmt.row, List.cons_append, List.cons.injEq] at hrow
      obtain ⟨rfl, rfl, rfl, hrow⟩ := hrow
      obtain ⟨rfl, rfl⟩ := appendList_inj body h.2.2.2.1 hrow
      exact ⟨by rw [h.2.2.2.2], rfl⟩
  | .forIn k x body l, s', r, r', h, hrow => by
      cases s' <;> simp only [Stmt.outline, reduceCtorEq, Stmt.forIn.injEq] at h
      simp only [Stmt.row, List.cons_append, List.cons.injEq] at hrow
      obtain ⟨rfl, hrow⟩ := hrow
      obtain ⟨rfl, rfl⟩ := appendList_inj body h.2.2.1 hrow
      exact ⟨by rw [h.1, h.2.2.2], rfl⟩
  | .switch x body l, s', r, r', h, hrow => by
      cases s' <;> simp only [Stmt.outline, reduceCtorEq, Stmt.switch.injEq] at h
      simp only [Stmt.row, List.cons_append, List.cons.injEq] at hrow
      obtain ⟨rfl, hrow⟩ := hrow
      obtain ⟨rfl, rfl⟩ := appendList_inj body h.2.1 hrow
      exact ⟨by rw [h.2.2], rfl⟩
  | .tryCatch body catches, s', r, r', h, hrow => by
      cases s' <;> simp only [Stmt.outline, reduceCtorEq, Stmt.tryCatch.injEq] at h
      simp only [Stmt.row, List.append_assoc] at hrow
      obtain ⟨rfl, hrest⟩ := appendList_inj body h.1 hrow
      obtain ⟨rfl, rfl⟩ := appendCatches_inj catches h.2 hrest
      exact ⟨rfl, rfl⟩
  | .catchClause c, s', r, r', h, hrow => by
      cases s' <;> simp only [Stmt.outline, reduceCtorEq, Stmt.catchClause.injEq] at h
      simp only [Stmt.row] at hrow
      obtain ⟨rfl, rfl⟩ := appendCatch_inj c h hrow
      exact ⟨rfl, rfl⟩
  | .dispatch x arms, s', r, r', h, hrow => by
      cases s' <;> simp only [Stmt.outline, reduceCtorEq, Stmt.dispatch.injEq] at h
      simp only [Stmt.row, Stmt.slots, List.cons_append, List.cons.injEq] at hrow
      obtain ⟨rfl, hrow⟩ := hrow
      obtain ⟨rfl, rfl⟩ := arms_append_inj h.2 hrow
      exact ⟨rfl, rfl⟩
  | .caseMark x, s', r, r', h, hrow | .condGoto x _ _, s', r, r', h, hrow => by
      cases s' <;> simp_all [Stmt.outline, Stmt.row, Stmt.slots]
  | .missing, s', r, r', h, hrow | .breakTo _, s', r, r', h, hrow
  | .continueTo _, s', r, r', h, hrow | .defaultMark, s', r, r', h, hrow
  | .label _, s', r, r', h, hrow | .goto _, s', r, r', h, hrow => by
      cases s' <;> simp_all [Stmt.outline, Stmt.row, Stmt.slots]

theorem appendList_inj : (body : List Stmt) → {body' : List Stmt} → {r r' : List Expr} →
    outlineList body = outlineList body' → rowList body ++ r = rowList body' ++ r' →
    body = body' ∧ r = r'
  | [], [], _, _, _, hrow => ⟨rfl, hrow⟩
  | [], _ :: _, _, _, h, _ => by
      simp [outlineList] at h
  | _ :: _, [], _, _, h, _ => by
      simp [outlineList] at h
  | s :: rest, s' :: rest', r, r', h, hrow => by
      simp only [outlineList, List.cons.injEq] at h
      simp only [rowList, List.append_assoc] at hrow
      obtain ⟨rfl, hrest⟩ := s.append_inj h.1 hrow
      obtain ⟨rfl, rfl⟩ := appendList_inj rest h.2 hrest
      exact ⟨rfl, rfl⟩

theorem appendCatch_inj : (c : Catch) → {c' : Catch} → {r r' : List Expr} →
    outlineCatch c = outlineCatch c' → rowCatch c ++ r = rowCatch c' ++ r' → c = c' ∧ r = r'
  | .mk v body, .mk v' body', r, r', h, hrow => by
      simp only [outlineCatch, Catch.mk.injEq] at h
      simp only [rowCatch] at hrow
      obtain ⟨rfl, rfl⟩ := appendList_inj body h.2 hrow
      exact ⟨by rw [h.1], rfl⟩

theorem appendCatches_inj : (catches : List Catch) → {catches' : List Catch} →
    {r r' : List Expr} → outlineCatches catches = outlineCatches catches' →
    rowCatches catches ++ r = rowCatches catches' ++ r' → catches = catches' ∧ r = r'
  | [], [], _, _, _, hrow => ⟨rfl, hrow⟩
  | [], _ :: _, _, _, h, _ => by
      simp [outlineCatches] at h
  | _ :: _, [], _, _, h, _ => by
      simp [outlineCatches] at h
  | c :: rest, c' :: rest', r, r', h, hrow => by
      simp only [outlineCatches, List.cons.injEq] at h
      simp only [rowCatches, List.append_assoc] at hrow
      obtain ⟨rfl, hrest⟩ := appendCatch_inj c h.1 hrow
      obtain ⟨rfl, rfl⟩ := appendCatches_inj rest h.2 hrest
      exact ⟨rfl, rfl⟩

end

/-- Nothing but its outline and its slots makes up a body. -/
theorem eq_of_outline_of_row {body body' : List Stmt} (h : outlineList body = outlineList body')
    (hrow : rowList body = rowList body') : body = body' := by
  have hrow : rowList body ++ [] = rowList body' ++ [] := by rw [hrow]
  exact (appendList_inj body h hrow).1

/-! ## Replacing keeps outlines -/

section

variable {σ : Type} {f : Expr → StateM σ Expr}

theorem length_mapM (es : List Expr) (st : σ) : (es.mapM (mapSlot f) st).1.length = es.length := by
  induction es generalizing st with
  | nil => rfl
  | cons e es ih =>
      rw [List.mapM_cons]
      exact congrArg (· + 1) (ih _)

theorem outline_arms (arms : List Arm) (st : σ) :
    (arms.mapM (mapArm f) st).1.map Arm.outline = arms.map Arm.outline := by
  induction arms generalizing st with
  | nil => rfl
  | cons arm arms ih =>
      rw [List.mapM_cons]
      exact congrArg (List.cons arm.outline) (ih _)

theorem Simple.outline_mapExprs (s : Simple) (st : σ) : (s.mapExprs f st).1.outline = s.outline := by
  cases s with
  | log args =>
      refine congrArg Simple.log ?_
      rw [List.map_const', List.map_const']
      exact congrArg (List.replicate · _) (length_mapM args st)
  | super cls args =>
      refine congrArg (Simple.super cls) ?_
      rw [List.map_const', List.map_const']
      exact congrArg (List.replicate · _) (length_mapM args st)
  | _ => rfl

mutual

theorem Stmt.outline_mapExprs : (s : Stmt) → (st : σ) → (s.mapExprs f st).1.outline = s.outline
  | .simple s share, st => by
      rw [Stmt.outline]
      exact congrArg (Stmt.simple · share) (s.outline_mapExprs st)
  | .ifElse c t e, st => by
      rw [Stmt.outline]
      exact congrArg₂ (Stmt.ifElse .missing) (outline_mapExprsList t _) (outline_mapExprsList e _)
  | .whileLoop c body l, st => by
      rw [Stmt.outline]
      exact congrArg (Stmt.whileLoop .missing · l) (outline_mapExprsList body _)
  | .doWhile c body l, st => by
      rw [Stmt.outline]
      exact congrArg (Stmt.doWhile .missing · l) (outline_mapExprsList body _)
  | .forLoop i c p body l, st => by
      rw [Stmt.outline]
      exact congrArg (Stmt.forLoop .missing .missing .missing · l) (outline_mapExprsList body _)
  | .forIn k x body l, st => by
      rw [Stmt.outline]
      exact congrArg (Stmt.forIn k .missing · l) (outline_mapExprsList body _)
  | .switch x body l, st => by
      rw [Stmt.outline]
      exact congrArg (Stmt.switch .missing · l) (outline_mapExprsList body _)
  | .tryCatch body catches, st => by
      rw [Stmt.outline]
      exact congrArg₂ Stmt.tryCatch (outline_mapExprsList body _) (outline_mapExprsCatches catches _)
  | .catchClause c, st => by
      rw [Stmt.outline]
      exact congrArg Stmt.catchClause (outline_mapExprsCatch c _)
  | .dispatch x arms, st => by
      rw [Stmt.outline]
      exact congrArg (Stmt.dispatch .missing) (outline_arms arms _)
  | .caseMark _, _ | .condGoto _ _ _, _ | .missing, _ | .breakTo _, _ | .continueTo _, _
  | .defaultMark, _ | .label _, _ | .goto _, _ => by
      simp only [Stmt.outline]
      rfl

theorem outline_mapExprsList : (body : List Stmt) → (st : σ) →
    outlineList (mapExprsList f body st).1 = outlineList body
  | [], _ => rfl
  | s :: rest, st => by
      rw [outlineList]
      exact congrArg₂ List.cons (s.outline_mapExprs st) (outline_mapExprsList rest _)

theorem outline_mapExprsCatch : (c : Catch) → (st : σ) →
    outlineCatch (mapExprsCatch f c st).1 = outlineCatch c
  | .mk v body, st => by
      rw [outlineCatch]
      exact congrArg (Catch.mk v) (outline_mapExprsList body st)

theorem outline_mapExprsCatches : (catches : List Catch) → (st : σ) →
    outlineCatches (mapExprsCatches f catches st).1 = outlineCatches catches
  | [], _ => rfl
  | c :: rest, st => by
      rw [outlineCatches]
      exact congrArg₂ List.cons (outline_mapExprsCatch c st) (outline_mapExprsCatches rest _)

end

end

/-! ## Replacements that may fail -/

section

variable {σ ε : Type}

/-- Every filled slot of a row is replaced, one after the other; the missing ones
stay missing. -/
inductive Refills (f : Expr → EStateM ε σ Expr) : List Expr → σ → List Expr → σ → Prop where
  | nil (s : σ) : Refills f [] s [] s
  | missing {es es' : List Expr} {s t : σ} : Refills f es s es' t →
      Refills f (.missing :: es) s (.missing :: es') t
  | cons {e e' : Expr} {es es' : List Expr} {s s' t : σ} : e.isMissing = false →
      f e s = .ok e' s' → Refills f es s' es' t → Refills f (e :: es) s (e' :: es') t

/-- Replacing stops at a slot of a row: those before it are replaced, that slot
and those behind it are not. -/
def StopsAt (f : Expr → EStateM ε σ Expr) (es : List Expr) (s : σ) (es' : List Expr) (t : σ)
    (failure : ε) (asked : List Expr) : Prop :=
  ∃ before e after before' s', es = before ++ e :: after ∧ es' = before' ++ e :: after ∧
    Refills f before s before' s' ∧ e.isMissing = false ∧ f e s' = .error failure t ∧
    asked = filled before ++ [e]

/-- How replacing a row ends: it goes through to the end, or stops at a failure.
`asked` lists what was to be replaced, in order. -/
def Ends (f : Expr → EStateM ε σ Expr) (es : List Expr) (s : σ) (es' : List Expr) (t : σ)
    (asked : List Expr) : Option ε → Prop
  | none => Refills f es s es' t ∧ asked = filled es
  | some failure => StopsAt f es s es' t failure asked

def recorded (f : Expr → EStateM ε σ Expr) (e : Expr) : EStateM ε (σ × List Expr) Expr :=
  fun (s, asked) =>
    match f e s with
    | .ok e' s' => .ok e' (s', asked ++ [e])
    | .error failure s' => .error failure (s', asked ++ [e])

variable {f : Expr → EStateM ε σ Expr} {e e' : Expr} {es es' asked : List Expr} {s s' t : σ}
  {failure : Option ε}

theorem Ends.missing (h : Ends f es s es' t asked failure) :
    Ends f (.missing :: es) s (.missing :: es') t asked failure := by
  cases failure with
  | none => exact ⟨.missing h.1, h.2⟩
  | some err =>
      obtain ⟨before, x, after, before', u, rfl, rfl, hbefore, hx, hfail, rfl⟩ := h
      exact ⟨.missing :: before, x, after, .missing :: before', u, rfl, rfl, .missing hbefore, hx,
        hfail, rfl⟩

theorem Ends.cons (he : e.isMissing = false) (hstep : f e s = .ok e' s')
    (h : Ends f es s' es' t asked failure) :
    Ends f (e :: es) s (e' :: es') t (e :: asked) failure := by
  have hfilled (row : List Expr) : filled (e :: row) = e :: filled row := by
    simp [filled, he]
  cases failure with
  | none => exact ⟨.cons he hstep h.1, by rw [h.2, hfilled]⟩
  | some err =>
      obtain ⟨before, x, after, before', u, rfl, rfl, hbefore, hx, hfail, rfl⟩ := h
      exact ⟨e :: before, x, after, e' :: before', u, rfl, rfl, .cons he hstep hbefore, hx, hfail,
        by rw [hfilled, List.cons_append]⟩

/-- Where a replacement neither changes a slot nor the state, the row stays as it
is. -/
theorem Replaces.idle {τ : Type} {g : Expr → StateM τ Expr} {u v : τ}
    (h : Replaces g es u es' v) (hg : ∀ e, g e u = (e, u)) : es' = es ∧ v = u := by
  induction es generalizing es' with
  | nil =>
      cases h
      exact ⟨rfl, rfl⟩
  | cons e es ih =>
      cases h with
      | cons hrest =>
          rw [hg] at hrest ⊢
          obtain ⟨rfl, rfl⟩ := ih hrest
          exact ⟨rfl, rfl⟩

theorem mapSlot_idle {τ : Type} {g : Expr → StateM τ Expr} {u : τ} (hg : ∀ e, g e u = (e, u))
    (e : Expr) : mapSlot g e u = (e, u) := by
  unfold mapSlot
  cases e.isMissing with
  | true => rfl
  | false => exact hg e

/-- The results of replacing a row are determined. -/
theorem Replaces.unique {τ : Type} {g : Expr → StateM τ Expr} {row row' row'' : List Expr}
    {u v v' : τ} (h : Replaces g row u row' v) (h' : Replaces g row u row'' v') :
    row' = row'' ∧ v = v' := by
  induction h generalizing row'' with
  | nil =>
      cases h'
      exact ⟨rfl, rfl⟩
  | cons _ ih =>
      cases h' with
      | cons hrest =>
          obtain ⟨rfl, rfl⟩ := ih hrest
          exact ⟨rfl, rfl⟩

/-- Keeping a record changes nothing else. -/
theorem Replaces.forget_record {r r' : List Expr} {o : Option ε}
    (h : Replaces (mapSlot (untilFailure (recorded f))) es ((s, r), o) es' ((t, r'), failure)) :
    Replaces (mapSlot (untilFailure f)) es (s, o) es' (t, failure) := by
  induction es generalizing es' s r o with
  | nil =>
      cases h
      exact .nil _
  | cons e es ih =>
      cases h with
      | cons hrest =>
          have hslot : ∃ e₁ s₁ r₁ o₁,
              mapSlot (untilFailure (recorded f)) e ((s, r), o) = (e₁, ((s₁, r₁), o₁)) ∧
              mapSlot (untilFailure f) e (s, o) = (e₁, (s₁, o₁)) := by
            unfold mapSlot
            cases e.isMissing with
            | true => exact ⟨_, _, _, _, rfl, rfl⟩
            | false =>
                cases o with
                | some err => exact ⟨_, _, _, _, rfl, rfl⟩
                | none =>
                    rw [if_neg Bool.false_ne_true, if_neg Bool.false_ne_true]
                    cases hf : f e s with
                    | ok e₁ s₁ => exact ⟨e₁, s₁, r ++ [e], none, by simp [untilFailure, recorded, hf]⟩
                    | error err s₁ =>
                        exact ⟨e, s₁, r ++ [e], some err, by simp [untilFailure, recorded, hf]⟩
          obtain ⟨e₁, s₁, r₁, o₁, hrecorded, hplain⟩ := hslot
          have hnext : (mapSlot (untilFailure f) e (s, o)).2 = (s₁, o₁) := by
            rw [hplain]
          rw [hrecorded] at hrest ⊢
          have hcons := Replaces.cons (e := e) (s := (s, o)) (hnext ▸ ih hrest)
          rwa [hplain] at hcons

/-- Replacing a row goes through it until it ends, and the record shows the
slots it came to. -/
theorem Replaces.ends {r r' : List Expr}
    (h : Replaces (mapSlot (untilFailure (recorded f))) es ((s, r), none) es' ((t, r'), failure)) :
    ∃ asked, r' = r ++ asked ∧ Ends f es s es' t asked failure := by
  induction es generalizing es' s r with
  | nil =>
      cases h
      exact ⟨[], by simp, .nil _, rfl⟩
  | cons e es ih =>
      cases h with
      | cons hrest =>
          cases he : e.isMissing with
          | true =>
              cases e <;> try cases he
              obtain ⟨asked, rfl, hends⟩ := ih hrest
              exact ⟨asked, rfl, hends.missing⟩
          | false =>
              have hslot : mapSlot (untilFailure (recorded f)) e ((s, r), none) =
                  untilFailure (recorded f) e ((s, r), none) := by
                rw [mapSlot, he, if_neg Bool.false_ne_true]
              rw [hslot] at hrest ⊢
              cases hf : f e s with
              | ok e₁ s₁ =>
                  have hstep : untilFailure (recorded f) e ((s, r), none) =
                      (e₁, ((s₁, r ++ [e]), none)) := by
                    simp [untilFailure, recorded, hf]
                  rw [hstep] at hrest ⊢
                  obtain ⟨asked, rfl, hends⟩ := ih hrest
                  exact ⟨e :: asked, by simp, hends.cons he hf⟩
              | error err s₁ =>
                  have hstep : untilFailure (recorded f) e ((s, r), none) =
                      (e, ((s₁, r ++ [e]), some err)) := by
                    simp [untilFailure, recorded, hf]
                  rw [hstep] at hrest ⊢
                  obtain ⟨rfl, hend⟩ := hrest.idle (mapSlot_idle fun _ => rfl)
                  cases hend
                  exact ⟨[e], rfl, [], e, _, [], s, rfl, rfl, .nil s, he, hf, rfl⟩

/-- Replacing slots by what they hold changes nothing. -/
theorem replaceSlots_pure (body : List Stmt) (s : σ) :
    replaceSlots (pure : Expr → EStateM ε σ Expr) body s = (body, s, none) := by
  let g : Expr → StateM (σ × Option ε) Expr := untilFailure pure
  have hrow : Replaces (mapSlot g) (rowList body) (s, none) _ _ := row_mapExprsList body (s, none)
  obtain ⟨hrow, hend⟩ := hrow.idle (mapSlot_idle fun _ => rfl)
  have hbody : (mapExprsList g body (s, none)).1 = body :=
    eq_of_outline_of_row (outline_mapExprsList body _) hrow
  change ((mapExprsList g body (s, none)).1, (mapExprsList g body (s, none)).2.1,
    (mapExprsList g body (s, none)).2.2) = _
  rw [hbody, hend]

/-- Keeping a record of what was to be replaced changes no result. -/
theorem replaceSlots_recorded (f : Expr → EStateM ε σ Expr) (body : List Stmt) (s : σ) :
    ∃ body' t asked failure, replaceSlots f body s = (body', t, failure) ∧
      replaceSlots (recorded f) body (s, []) = (body', (t, asked), failure) := by
  let plain := mapExprsList (untilFailure f) body (s, none)
  let kept := mapExprsList (untilFailure (recorded f)) body ((s, []), none)
  have hplain : Replaces (mapSlot (untilFailure f)) (rowList body) (s, none) (rowList plain.1)
      plain.2 := row_mapExprsList body _
  have hkept : Replaces (mapSlot (untilFailure (recorded f))) (rowList body) ((s, []), none)
      (rowList kept.1) ((kept.2.1.1, kept.2.1.2), kept.2.2) := row_mapExprsList body _
  obtain ⟨hrow, hend⟩ := hkept.forget_record.unique hplain
  have hbody : kept.1 = plain.1 :=
    eq_of_outline_of_row ((outline_mapExprsList body _).trans (outline_mapExprsList body _).symm) hrow
  refine ⟨kept.1, kept.2.1.1, kept.2.1.2, kept.2.2, ?_, rfl⟩
  change (plain.1, plain.2.1, plain.2.2) = _
  rw [hbody, ← hend]

/-- Replacing the slots of a body goes through those that reading lists, each
once. The body that comes out has the outline of the old one, and this together
with its slots determines it. If no replacement fails, every filled slot holds
what came back for it. If the replacement of the `n`-th filled slot fails, that is
the failure returned, the slots before it hold what came back for them, and it and
all others what they held. Replacing each slot by what it holds changes nothing. -/
theorem replaceSlots_agrees_with_reading (f : Expr → EStateM ε σ Expr) (body : List Stmt) (s : σ) :
    (filled (rowList body)).Perm (allExprs body) ∧
    replaceSlots (pure : Expr → EStateM ε σ Expr) body s = (body, s, none) ∧
    ∃ body' t asked failure,
      replaceSlots f body s = (body', t, failure) ∧
      replaceSlots (recorded f) body (s, []) = (body', (t, asked), failure) ∧
      Ends f (rowList body) s (rowList body') t asked failure ∧
      ∀ other, outlineList other = outlineList body ∧ rowList other = rowList body' ↔
        other = body' := by
  refine ⟨?_, replaceSlots_pure body s, ?_⟩
  · rw [filled_rowList]
    exact visitedList_perm body
  obtain ⟨body', t, asked, failure, hplain, hrecorded⟩ := replaceSlots_recorded f body s
  have houtline : outlineList body' = outlineList body := by
    cases hplain
    exact outline_mapExprsList body _
  have hends : Ends f (rowList body) s (rowList body') t asked failure := by
    let kept := mapExprsList (untilFailure (recorded f)) body ((s, []), none)
    have hrow : Replaces (mapSlot (untilFailure (recorded f))) (rowList body) ((s, []), none)
        (rowList kept.1) kept.2 := row_mapExprsList body _
    obtain ⟨hbody, hend⟩ := Prod.mk.inj hrecorded
    have hkept : kept.2 = ((t, asked), failure) := hend
    have hbody : kept.1 = body' := hbody
    rw [hkept, hbody] at hrow
    obtain ⟨_, rfl, hends⟩ := hrow.ends
    exact hends
  refine ⟨body', t, asked, failure, hplain, hrecorded, hends, fun other => ⟨?_, ?_⟩⟩
  · rintro ⟨hother, hrow⟩
    exact eq_of_outline_of_row (hother.trans houtline.symm) hrow
  · rintro rfl
    exact ⟨houtline, rfl⟩

end

end Resumable
