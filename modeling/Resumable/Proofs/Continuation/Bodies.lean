import Resumable.Proofs.Continuation.Simulation
import Resumable.Proofs.Pass.Expansion
import Resumable.Proofs.Scope

/-!
# Converted bodies

A body in which every expression has been rebuilt corresponds to the body as it
was, statement by statement. Other functions take part in this where they hold
statements in common with the body.
-/

namespace Resumable

def Stmt.isDelete : Stmt → Bool
  | .simple (.delete _) _ => true
  | _ => false

/-- What stands in a statement of a body stands in the body. -/
theorem mem_allStmts_of_preorder {s t : Stmt} {body : List Stmt} (hs : s ∈ body)
    (ht : t ∈ s.preorder fun _ => true) : t ∈ allStmts body :=
  mem_allStmts_iff.2 ⟨s, hs, List.mem_append_left _ ht⟩

/-! ## Replaced expressions -/

section

variable {σ : Type} {f : Expr → StateM σ Expr} {S : Sides}

/-- Old and new expressions are split in the same place. -/
theorem Replaces.split {R : Expr → Expr → Prop} {es es' ds ds' : List Expr} {s t : σ}
    (h : Replaces f es s es' t) (hall : List.Forall₂ R (es ++ ds) (es' ++ ds')) :
    List.Forall₂ R es es' ∧ List.Forall₂ R ds ds' := by
  induction h with
  | nil => exact ⟨.nil, hall⟩
  | cons _ ih =>
      cases hall with
      | cons he hrest => exact ⟨.cons he (ih hrest).1, (ih hrest).2⟩

theorem exprPair_mapSlot {R : Nat → Prop} {T : Prop} (hf : Fills f) {e : Expr} {st : σ}
    (h : List.Forall₂ S.slot (filled [e]) (filled [(mapSlot f e st).1])) (he : e.Covered S R T) :
    ExprPair S R T e (mapSlot f e st).1 := by
  refine ⟨he, ?_⟩
  cases hmissing : e.isMissing with
  | true =>
      left
      simp only [mapSlot, hmissing, if_true]
      rfl
  | false =>
      have hfilled : (mapSlot f e st).1.isMissing = false := by
        simp only [mapSlot, hmissing]
        exact hf e st hmissing
      simp only [filled, List.filter_cons, hmissing, hfilled] at h
      cases h with
      | cons hslot _ => exact .inr hslot

theorem exprPairs_mapM {R : Nat → Prop} {T : Prop} (hf : Fills f) {es : List Expr} {st : σ}
    (h : List.Forall₂ S.slot (filled es) (filled (es.mapM (mapSlot f) st).1))
    (hes : ∀ e ∈ es, e.Covered S R T) :
    List.Forall₂ (ExprPair S R T) es (es.mapM (mapSlot f) st).1 := by
  induction es generalizing st with
  | nil => exact .nil
  | cons e es ih =>
      obtain ⟨he, hes⟩ := List.forall_mem_cons.1 hes
      rw [List.mapM_cons] at h ⊢
      change List.Forall₂ S.slot (filled (e :: es))
        (filled ((mapSlot f e st).1 :: (es.mapM (mapSlot f) (mapSlot f e st).2).1)) at h
      rw [filled_cons e, filled_cons (mapSlot f e st).1] at h
      obtain ⟨hfirst, hrest⟩ := (replaces_mapSlot hf e st).split h
      exact .cons (exprPair_mapSlot hf hfirst he) (ih hrest hes)

theorem simplePair_mapExprs {R : Nat → Prop} {T : Prop} (hf : Fills f) {s : Simple} {st : σ}
    (hdelete : ∀ x, s ≠ .delete x)
    (h : List.Forall₂ S.slot (filled s.slots) (filled (s.mapExprs f st).1.slots))
    (hs : ∀ e ∈ s.slots, e.Covered S R T) : SimplePair S R T s (s.mapExprs f st).1 := by
  cases s with
  | expr x => exact .expr (exprPair_mapSlot hf h (hs x (.head _)))
  | ret x => exact .ret (exprPair_mapSlot hf h (hs x (.head _)))
  | yield x => exact .yield (exprPair_mapSlot hf h (hs x (.head _)))
  | delete x => exact absurd rfl (hdelete x)
  | throw x => exact .throw (exprPair_mapSlot hf h (hs x (.head _)))
  | assert x message => exact .assert message (exprPair_mapSlot hf h (hs x (.head _)))
  | log args => exact .log (exprPairs_mapM hf h hs)
  | super cls args => exact .super (exprPairs_mapM hf h hs)
  | debugger => exact .debugger

def Stmt.Fits (S : Sides) (R : Nat → Prop) (T : Prop) (s : Stmt) : Prop :=
  s.isDelete = false ∧ s.Covered S R T

mutual

/-- A statement corresponds to itself with its expressions replaced, if the
expressions do. -/
theorem StmtPair.mapExprs {R : Nat → Prop} {T : Prop} (hf : Fills f) : (s : Stmt) → (st : σ) →
    List.Forall₂ S.slot s.visited (s.mapExprs f st).1.visited →
    (∀ t ∈ s.preorder fun _ => true, t.Fits S R T) → StmtPair S R T s (s.mapExprs f st).1
  | .missing, _, _, _ => .missing
  | .simple s share, st, h, hs => by
      obtain ⟨hdelete, hcovered⟩ := hs _ (.head _)
      refine .simple share share (simplePair_mapExprs hf ?_ h hcovered)
      rintro x rfl
      cases hdelete
  | .breakTo l, _, _, _ => .breakTo l
  | .continueTo l, _, _, _ => .continueTo l
  | .ifElse c t e, st, h, hs => by
      simp only [Stmt.preorder, if_true, List.forall_mem_cons, List.forall_mem_append] at hs
      obtain ⟨hc, hrest⟩ := (replaces_mapSlot hf c st).split h
      obtain ⟨ht, he⟩ := (replaces_list hf t _).split hrest
      exact .ifElse (exprPair_mapSlot hf hc (hs.1.2 c (.head _))) (StmtsPair.mapExprs hf t _ ht hs.2.1)
        (StmtsPair.mapExprs hf e _ he hs.2.2)
  | .whileLoop c body l, st, h, hs => by
      simp only [Stmt.preorder, if_true, List.forall_mem_cons] at hs
      obtain ⟨hc, hbody⟩ := (replaces_mapSlot hf c st).split h
      exact .whileLoop l (exprPair_mapSlot hf hc (hs.1.2 c (.head _)))
        (StmtsPair.mapExprs hf body _ hbody hs.2)
  | .doWhile c body l, st, h, hs => by
      simp only [Stmt.preorder, if_true, List.forall_mem_cons] at hs
      obtain ⟨hbody, hc⟩ := (replaces_list hf body st).split h
      exact .doWhile l (exprPair_mapSlot hf hc (hs.1.2 c (.head _)))
        (StmtsPair.mapExprs hf body _ hbody hs.2)
  | .forLoop i c p body l, st, h, hs => by
      simp only [Stmt.preorder, if_true, List.forall_mem_cons] at hs
      have hslots := hs.1.2
      simp only [Stmt.Covered, Stmt.slots, List.forall_mem_cons] at hslots
      obtain ⟨hhead, hbody⟩ := (replaces_cons hf i st (replaces_cons hf c _
        (replaces_mapSlot hf p _))).split h
      rw [filled_cons i, filled_cons (mapSlot f i st).1] at hhead
      obtain ⟨hi, hhead⟩ := (replaces_mapSlot hf i st).split hhead
      rw [filled_cons c, filled_cons (mapSlot f c _).1] at hhead
      obtain ⟨hc, hp⟩ := (replaces_mapSlot hf c _).split hhead
      exact .forLoop l (exprPair_mapSlot hf hi hslots.1) (exprPair_mapSlot hf hc hslots.2.1)
        (exprPair_mapSlot hf hp hslots.2.2.1) (StmtsPair.mapExprs hf body _ hbody hs.2)
  | .forIn k x body l, _, _, _ => .forIn k k x _ body _ l l
  | .switch x body l, st, h, hs => by
      simp only [Stmt.preorder, if_true, List.forall_mem_cons] at hs
      obtain ⟨hx, hbody⟩ := (replaces_mapSlot hf x st).split h
      exact .switch l (exprPair_mapSlot hf hx (hs.1.2 x (.head _)))
        (StmtsPair.mapExprs hf body _ hbody hs.2)
  | .caseMark x, _, h, hs => .caseMark (exprPair_mapSlot hf h ((hs _ (.head _)).2 x (.head _)))
  | .defaultMark, _, _, _ => .defaultMark
  | .tryCatch body catches, st, h, hs => by
      simp only [Stmt.preorder, if_true, List.forall_mem_cons, List.forall_mem_append] at hs
      obtain ⟨hbody, hcatches⟩ := (replaces_list hf body st).split h
      exact .tryCatch (StmtsPair.mapExprs hf body _ hbody hs.2.1)
        (CatchesPair.mapExprs hf catches _ hcatches hs.2.2)
  | .catchClause c, _, _, _ => .catchClause c _
  | .label l, _, _, _ => .label l l
  | .goto l, _, _, _ => .goto l l
  | .condGoto c t e, _, _, _ => .condGoto c _ t t e e
  | .dispatch x arms, _, _, _ => .dispatch x _ arms _

theorem StmtsPair.mapExprs {R : Nat → Prop} {T : Prop} (hf : Fills f) : (body : List Stmt) →
    (st : σ) → List.Forall₂ S.slot (visitedList body) (visitedList (mapExprsList f body st).1) →
    (∀ t ∈ allStmts body, t.Fits S R T) → StmtsPair S R T body (mapExprsList f body st).1
  | [], _, _, _ => .nil
  | s :: rest, st, h, hs => by
      simp only [allStmts, preorderList, List.forall_mem_append] at hs
      obtain ⟨hfirst, hrest⟩ := (s.replaces hf st).split h
      exact .cons (StmtPair.mapExprs hf s st hfirst hs.1) (StmtsPair.mapExprs hf rest _ hrest hs.2)

theorem CatchesPair.mapExprs {R : Nat → Prop} {T : Prop} (hf : Fills f) : (cs : List Catch) →
    (st : σ) →
    List.Forall₂ S.slot (visitedCatches cs) (visitedCatches (mapExprsCatches f cs st).1) →
    (∀ t ∈ preorderCatches (fun _ => true) cs, t.Fits S R T) →
    CatchesPair S R T cs (mapExprsCatches f cs st).1
  | [], _, _, _ => .nil
  | .mk var body :: cs, st, h, hs => by
      simp only [preorderCatches, preorderCatch, List.forall_mem_append] at hs
      obtain ⟨hbody, hcs⟩ := (replaces_list hf body st).split h
      exact .cons (StmtsPair.mapExprs hf body st hbody fun t ht =>
          ⟨(hs.1 t ht).1, (hs.1 t ht).2.mono (fun _ => .inl) fun _ => trivial⟩)
        (CatchesPair.mapExprs hf cs _ hcs hs.2)

end

/-- Every statement of the new body comes from one of the old body with the same
number. -/
theorem exists_of_mem_mapExprsList (hf : Fills f) {body : List Stmt} {st : σ}
    (h : List.Forall₂ S.slot (visitedList body) (visitedList (mapExprsList f body st).1)) {t' : Stmt}
    (ht' : t' ∈ (mapExprsList f body st).1) : ∃ t ∈ body, t'.number? = t.number? ∧
      ∀ R T, (∀ u ∈ t.preorder fun _ => true, u.Fits S R T) → StmtPair S R T t t' := by
  induction body generalizing st with
  | nil => cases ht'
  | cons s rest ih =>
      obtain ⟨hfirst, hrest⟩ := (s.replaces hf st).split h
      rcases List.mem_cons.1 ht' with rfl | ht'
      · refine ⟨s, .head _, ?_, fun R T => StmtPair.mapExprs hf s st hfirst⟩
        cases s <;> rfl
      · obtain ⟨t, ht, hpair⟩ := ih hrest ht'
        exact ⟨t, .tail _ ht, hpair⟩

end

section

variable {σ ε : Type} {f : Expr → EStateM ε σ Expr} {stmts body : List Stmt} {s s' : σ}
  {failure : Option ε} {S : Sides}

theorem StmtsPair.replaceSlots (hf : FillsOnSuccess f)
    (hrun : Resumable.replaceSlots f stmts s = (body, s', failure))
    (hslots : List.Forall₂ S.slot (visitedList stmts) (visitedList body)) {R : Nat → Prop} {T : Prop}
    (hfits : ∀ t ∈ allStmts stmts, t.Fits S R T) : StmtsPair S R T stmts body := by
  obtain rfl : _ = body := congrArg Prod.fst hrun
  exact .mapExprs (fills_untilFailure hf) stmts _ hslots hfits

theorem exists_of_mem_replaceSlots (hf : FillsOnSuccess f)
    (hrun : replaceSlots f stmts s = (body, s', failure))
    (hslots : List.Forall₂ S.slot (visitedList stmts) (visitedList body)) {t' : Stmt}
    (ht' : t' ∈ body) : ∃ t ∈ stmts, t'.number? = t.number? ∧
      ∀ R T, (∀ u ∈ t.preorder fun _ => true, u.Fits S R T) → StmtPair S R T t t' := by
  obtain rfl : _ = body := congrArg Prod.fst hrun
  exact exists_of_mem_mapExprsList (fills_untilFailure hf) hslots ht'

end

theorem StmtsPair.map {S : Sides} {R : Nat → Prop} {T : Prop} {g : Stmt → Stmt} {body : List Stmt}
    (h : ∀ s ∈ body, StmtPair S R T s (g s)) : StmtsPair S R T body (body.map g) := by
  induction body with
  | nil => exact .nil
  | cons s rest ih =>
      obtain ⟨hs, hrest⟩ := List.forall_mem_cons.1 h
      exact .cons hs (ih hrest)

/-! ## Statements in common -/

/-- Statements that a program holds in common with the body of a function are the
statements of the body. -/
def Program.Coherent (p : Program) (id : FuncId) : Prop :=
  ∀ fn, ∀ s ∈ p.bodyOf fn, ∀ t ∈ p.bodyOf id, s.number?.isSome → s.number? = t.number? → s = t

theorem Program.coherent_of_unnumbered {p : Program} {id : FuncId}
    (h : ∀ t ∈ p.bodyOf id, t.number? = none) : p.Coherent id := by
  intro fn s _ t ht hs heq
  rw [heq, h t ht] at hs
  cases hs

/-- A statement is left alone, or it becomes one with the same number. -/
theorem Stmt.refresh_cases (s : Stmt) (body : List Stmt) :
    s.refresh (body.filterMap Stmt.shared?) = s ∨
      s.number?.isSome ∧ ∃ t ∈ body, t.number? = s.number? ∧
        s.refresh (body.filterMap Stmt.shared?) = t := by
  cases s with
  | simple x share =>
      cases share with
      | none => exact .inl rfl
      | some n =>
          cases hlookup : (body.filterMap Stmt.shared?).lookup n with
          | none =>
              left
              rw [Stmt.refresh, hlookup]
              rfl
          | some y =>
              right
              obtain ⟨l, r, hsplit, -⟩ := List.lookup_eq_some_iff.1 hlookup
              have hmem : (n, y) ∈ body.filterMap Stmt.shared? := by
                rw [hsplit]
                simp
              obtain ⟨t, ht, hshared⟩ := List.mem_filterMap.1 hmem
              have hsame : t = .simple y (some n) := by
                cases t with
                | simple z share =>
                    cases share with
                    | none => cases hshared
                    | some m =>
                        cases hshared
                        rfl
                | _ => cases hshared
              refine ⟨rfl, t, ht, by rw [hsame]; rfl, ?_⟩
              rw [Stmt.refresh, hlookup, hsame]
              rfl
  | _ => exact .inl rfl

/-- A statement corresponds to what stands under its number once expressions of a
body have been replaced. -/
theorem StmtPair.refresh {σ ε : Type} {f : Expr → EStateM ε σ Expr} (hf : FillsOnSuccess f)
    {stmts body : List Stmt} {st st' : σ} {failure : Option ε}
    (hrun : replaceSlots f stmts st = (body, st', failure)) {S : Sides}
    (hslots : List.Forall₂ S.slot (visitedList stmts) (visitedList body))
    (hdelete : ∀ t ∈ allStmts stmts, t.isDelete = false) {s : Stmt}
    (hsame : ∀ t ∈ stmts, s.number?.isSome → s.number? = t.number? → s = t) {R : Nat → Prop}
    {T : Prop} (hs : ∀ u ∈ s.preorder fun _ => true, u.Covered S R T) :
    StmtPair S R T s (s.refresh (body.filterMap Stmt.shared?)) := by
  rcases s.refresh_cases body with hleft | ⟨hnumber, t', ht', hnumber', hnew⟩
  · rw [hleft]
    exact .refl s hs
  · obtain ⟨t, ht, hnumbers, hpair⟩ := exists_of_mem_replaceSlots hf hrun hslots ht'
    obtain rfl := hsame t ht hnumber (hnumber'.symm.trans hnumbers)
    rw [hnew]
    exact hpair R T fun u hu => ⟨hdelete u (mem_allStmts_of_preorder ht hu), hs u hu⟩

namespace Continuation

/-! ## The two programs -/

def sides (p p' : Program) (lits : List FuncId) : Sides where
  source := p
  target := p'
  known fn := (p.func? fn).isSome
  free _ x := x < p.varCount
  loose fn := fn ∈ lits
  special _ := False
  common _ := True
  slot e e' :=
    ((∀ v ∈ e.vars, v.id < p.varCount) ∧ ∀ fn ∈ e.nodes.filterMap Expr.lambdaId?, fn ∈ lits) ∧
    ∃ n, p.varCount ≤ n ∧ Passes p' n e none e'
  heard := True
  aside := .nothing

section

variable {p p' : Program} {lits : List FuncId}

theorem sides_rebuilds (htypes : p'.types = p.types)
    (hbodies : ∀ fn f, p.func? fn = some f → ∃ f', p'.func? fn = some f' ∧ f'.name = f.name ∧
      f'.params = f.params ∧ f'.locals = f.locals ∧
      StmtsPair (sides p p' lits) ((sides p p' lits).Reads fn f) True f.body f'.body) :
    Rebuilds (sides p p' lits) where
  types := htypes.symm
  funcs := by
    intro fn hfn
    obtain ⟨f, hf⟩ := Option.isSome_iff_exists.1 hfn
    obtain ⟨f', hf', hname, -⟩ := hbodies fn f hf
    exact ⟨f, f', hf, hf', hname.symm⟩
  body := by
    intro fn hfn _
    obtain ⟨f, hf⟩ := Option.isSome_iff_exists.1 hfn
    obtain ⟨f', hf', -, hparams, hlocals, hbody⟩ := hbodies fn f hf
    exact ⟨f, f', hf, hf', hparams.symm, hlocals.symm, hbody⟩
  slot := by
    rintro e e' ⟨-, n, -, hpasses⟩
    exact ⟨hpasses.source_isMissing, hpasses.isMissing⟩
  plain _ := not_false
  rebuilt := by
    rintro e e' ⟨⟨hvars, hlits⟩, n, hn, hpasses⟩
    exact .inl ⟨n, hpasses, Expr.covered_of_lt (fun v hv => Nat.lt_of_lt_of_le (hvars v hv) hn)
      fun fn hfn _ => ⟨fun x hx => Nat.lt_of_lt_of_le hx hn, .inl (hlits fn hfn)⟩⟩

/-- The body of any function looks up variables of the program. -/
theorem sides_covered (hp : p.scoped = true) {fn : FuncId} {f : Func} (hf : p.func? fn = some f)
    {t : Stmt} (ht : t ∈ allStmts f.body) :
    t.Covered (sides p p' lits) ((sides p p' lits).Reads fn f) True :=
  fun _ he => Expr.covered_of_lt (fun _ hv => .inl (Program.lt_of_scoped hp hf
    (List.mem_append_right _ (mem_bodyVariables ht he hv))))
    fun _ _ _ => ⟨fun _ => .inl, .inr trivial⟩

/-- Functions that keep their code. -/
theorem sides_rebuilds_of_grown (hp : p.scoped = true) (hgrown : Grown p p') :
    Rebuilds (sides p p' lits) := by
  refine sides_rebuilds hgrown.types fun fn f hf => ?_
  have hcode := hgrown.code fn (Program.isSome_func?.1 (Option.isSome_of_eq_some hf)).2
  rw [Program.code?, Program.code?, hf] at hcode
  obtain ⟨f', hf', hcode⟩ := Option.map_eq_some_iff.1 hcode
  have hbody : f'.body = f.body := congrArg Code.body hcode
  refine ⟨f', hf', congrArg Code.name hcode, congrArg Code.params hcode, congrArg Code.locals hcode,
    ?_⟩
  rw [hbody]
  exact .refl f.body fun t ht => sides_covered hp hf ht

end

/-! ## Conversion of a body -/

section

variable {id : FuncId} {w w₁ : Workspace} {stmts body : List Stmt}

/-- Every expression of a body is rebuilt. -/
theorem passes_of_replaceSlots
    (hrun : replaceSlots (convert id · none) stmts w = (body, w₁, none)) :
    Grown w.program w₁.program ∧ ∀ p, Keeps w.program w₁.program p →
      List.Forall₂ (fun e e' => ∃ n, w.program.varCount ≤ n ∧ Passes p n e none e')
        (visitedList stmts) (visitedList body) := by
  let I (done rest : List Expr) (w' : Workspace) : Prop :=
    Grown w.program w'.program ∧ ∃ first, visitedList stmts = first ++ rest ∧
      ∀ p, Keeps w.program w'.program p →
        List.Forall₂ (fun e e' => ∃ n, w.program.varCount ≤ n ∧ Passes p n e none e') first done
  have hend : I (visitedList body) [] w₁ := by
    refine replaceSlots_invariant (I := I) (F := fun _ => True) (fillsOnSuccess_convert id) ?_ hrun
      ⟨.refl _, [], rfl, fun _ _ => .nil⟩
    rintro done e rest w' ⟨hgrown, first, hsplit, hfirst⟩
    refine .intro (fun e' w'' he => ?_) fun _ _ _ => trivial
    obtain ⟨hnext, hpasses⟩ := chained id e he
    refine ⟨hgrown.trans hnext, first ++ [e], by simp [hsplit], fun p hkeeps => ?_⟩
    refine List.rel_append (hfirst p (hkeeps.left hnext)) (.cons ?_ .nil)
    exact ⟨_, hgrown.varCount, hpasses p (hkeeps.right hgrown)⟩
  obtain ⟨hgrown, first, hsplit, hfirst⟩ := hend
  rw [List.append_nil] at hsplit
  exact ⟨hgrown, hsplit ▸ hfirst⟩

/-- Continuations have no statements in common with the body. -/
theorem keeps_refill (hid : (w.program.func? id).isSome)
    (hrun : replaceSlots (convert id · none) stmts w = (body, w₁, none)) :
    Keeps w.program w₁.program (w₁.program.refill id body) := by
  have hcontinued : Continued w (fun _ => True) [] (bodyRefs body) w₁ :=
    (continued_convert w _ id).replaceSlots hrun (.start w fun _ _ => trivial)
  intro fn hlt _
  have hle := (Program.isSome_func?.1 hid).2
  refine Program.code?_refill (Nat.ne_of_gt (Nat.lt_of_le_of_lt hle hlt)) fun n hn => ?_
  rw [hcontinued.numbers_new hlt] at hn
  cases hn

variable {w' : Workspace} {f : Func}

theorem slots_of_replaceSlots (hf : w.program.func? id = some f) (hscoped : w.program.scoped = true)
    (hrun : replaceSlots (convert id · none) f.body w = (body, w₁, none)) {p : Program}
    (hkeeps : Keeps w.program w₁.program p) :
    List.Forall₂ (sides w.program p (bodyClosures f.body)).slot (visitedList f.body)
      (visitedList body) := by
  refine (List.forall₂_and_left _ _).2 ⟨fun e he => ?_, (passes_of_replaceSlots hrun).2 _ hkeeps⟩
  obtain ⟨t, ht, he⟩ := List.mem_flatMap.1 ((visitedList_perm f.body).mem_iff.1 he)
  have he := (List.mem_filter.1 he).1
  exact ⟨fun v hv => Program.lt_of_scoped hscoped hf
    (List.mem_append_right _ (mem_bodyVariables ht he hv)), fun fn hfn => mem_bodyClosures ht he hfn⟩

/-- After a body is converted the functions of the program correspond. -/
theorem rebuilds_of_convertBody (h : convertBody id w = .ok () w')
    (hf : w.program.func? id = some f) (hdelete : ∀ t ∈ allStmts f.body, t.isDelete = false)
    (hcoherent : w.program.Coherent id) (hscoped : w.program.scoped = true) :
    Rebuilds (sides w.program w'.program (bodyClosures f.body)) := by
  obtain ⟨body, w₁, hrun, rfl⟩ := Pass.convertBody_eq_ok h
  rw [Pass.bodyOf_eq hf] at hrun
  have hgrown := (passes_of_replaceSlots hrun).1
  have hslots := slots_of_replaceSlots hf hscoped hrun
    (keeps_refill (Option.isSome_of_eq_some hf) hrun)
  have hfills := fillsOnSuccess_convert id
  refine sides_rebuilds ?_ fun fn g hg => ?_
  · rw [Program.refill, Program.modifyFunc_types, Program.refresh_types]
    exact hgrown.types
  have hcode : w₁.program.code? fn = some g.code := by
    rw [hgrown.code fn (Program.isSome_func?.1 (Option.isSome_of_eq_some hg)).2, Program.code?, hg]
    rfl
  -- all that matters of a function of the new program is its code
  have hnew (stmts : List Stmt)
      (hcode : (w₁.program.refill id body).code? fn = some { g.code with body := stmts }) :
      ∃ g', (w₁.program.refill id body).func? fn = some g' ∧ g'.name = g.name ∧
        g'.params = g.params ∧ g'.locals = g.locals ∧ g'.body = stmts := by
    obtain ⟨g', hg', hcode⟩ := Option.map_eq_some_iff.1 hcode
    exact ⟨g', hg', congrArg Code.name hcode, congrArg Code.params hcode,
      congrArg Code.locals hcode, congrArg Code.body hcode⟩
  by_cases hfn : fn = id
  · subst hfn
    obtain rfl : f = g := Option.some.inj (hf.symm.trans hg)
    obtain ⟨g', hg', hname, hparams, hlocals, rfl⟩ := hnew body (by
      rw [Program.code?_refill_self, hcode]
      rfl)
    exact ⟨g', hg', hname, hparams, hlocals, .replaceSlots hfills hrun hslots fun t ht =>
      ⟨hdelete t ht, sides_covered hscoped hf ht⟩⟩
  · obtain ⟨g', hg', hname, hparams, hlocals, hbody⟩ := hnew
      (g.body.map (Stmt.refresh (body.filterMap Stmt.shared?))) (by
        rw [Program.refill, Program.code?_setBody, if_neg hfn, Program.code?_refresh, hcode]
        rfl)
    refine ⟨g', hg', hname, hparams, hlocals, ?_⟩
    rw [hbody]
    refine .map fun s hs => .refresh hfills hrun hslots hdelete (fun t ht => ?_) fun u hu =>
      sides_covered hscoped hg (mem_allStmts_of_preorder hs hu)
    exact hcoherent fn s (Pass.bodyOf_eq hg ▸ hs) t (Pass.bodyOf_eq hf ▸ ht)

end

end Continuation

end Resumable
