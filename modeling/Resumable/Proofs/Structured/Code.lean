import Resumable.Proofs.Jump.Graph
import Resumable.Proofs.Lowering.Effect
import Resumable.Lowering.JumpCode

/-!
# The jump code of structured statements

What lowering makes of structured statements as a relation between them and
their jump code.
-/

namespace Resumable

def Stmt.isDecided : Stmt → Bool
  | .whileLoop c _ _ | .doWhile c _ _ => !c.isMissing
  | .caseMark x => !x.isMissing
  | _ => true

namespace JumpCode

/-! ## Code of statements -/

mutual

/-- The code of a statement that stands after code which may run off its end,
and whether control can run off the end of it in turn. If `strict`, no loop and
no case lacks the expression that decides about it. -/
inductive StmtCode (strict : Prop) : Scope → Bool → Stmt → List Stmt → Bool → Prop where
  | simple {scope : Scope} {falls : Bool} (s : Simple) (share : Option Nat) :
      StmtCode strict scope falls (.simple s share) [.simple s share] (!s.isTerminator)
  | yield {scope : Scope} {falls : Bool} (x : Expr) (share : Option Nat) (l : String) :
      StmtCode strict scope falls (.simple (.yield x) share)
        (.simple (.yield x) share :: enter true l) true
  | breakTo {scope : Scope} {falls : Bool} {l target : String} :
      scope.breakTarget l = .ok target → StmtCode strict scope falls (.breakTo l) [.goto target] false
  | continueTo {scope : Scope} {falls : Bool} {l target : String} :
      scope.continueTarget l = .ok target →
      StmtCode strict scope falls (.continueTo l) [.goto target] false
  | ifElse {scope : Scope} {falls thenF elseF : Bool} {c : Expr}
      {thenS elseS thenC elseC : List Stmt} (test succ fail done : String) :
      ListCode strict scope true thenS [] thenC thenF →
      ListCode strict scope true elseS [] elseC elseF →
      StmtCode strict scope falls (.ifElse c thenS elseS)
        (enter falls test ++ [.condGoto c succ fail, .label succ] ++ thenC ++
          jump thenF done ++ [.label fail] ++ elseC ++ enter elseF done) true
  | whileLoop {scope : Scope} {falls bodyF : Bool} {c : Expr} {body bodyC : List Stmt}
      {l : String} (test start done : String) : (strict → c.isMissing = false) →
      ListCode strict (⟨l, done, some test⟩ :: scope) true body [] bodyC bodyF →
      StmtCode strict scope falls (.whileLoop c body l)
        (enter falls test ++ [.condGoto c start done, .label start] ++ bodyC ++
          jump bodyF test ++ [.label done]) true
  | doWhile {scope : Scope} {falls bodyF : Bool} {c : Expr} {body bodyC : List Stmt}
      {l : String} (start test done : String) : (strict → c.isMissing = false) →
      ListCode strict (⟨l, done, some test⟩ :: scope) true body [] bodyC bodyF →
      StmtCode strict scope falls (.doWhile c body l)
        (enter falls start ++ bodyC ++ enter bodyF test ++
          [.condGoto c start done, .label done]) true
  | forLoop {scope : Scope} {falls bodyF : Bool} {init cond post : Expr}
      {body bodyC : List Stmt} {l : String} (first test start last done : String) :
      ListCode strict (⟨l, done, some last⟩ :: scope) true body [] bodyC bodyF →
      StmtCode strict scope falls (.forLoop init cond post body l)
        (enter falls first ++ (if init.isMissing then [] else [.expr init]) ++ enter true test ++
          [if cond.isMissing then .goto start else .condGoto cond start done, .label start] ++
          bodyC ++ enter bodyF last ++ (if post.isMissing then [] else [.expr post]) ++
          [.goto test, .label done]) true
  | switch {scope : Scope} {falls bodyF : Bool} {x : Expr} {arms : List Arm}
      {body bodyC : List Stmt} {l : String} (test done : String) :
      ListCode strict (⟨l, done, none⟩ :: scope) false body arms bodyC bodyF →
      StmtCode strict scope falls (.switch x body l)
        (enter falls test ++ [.dispatch x arms, .goto done] ++ bodyC ++ enter bodyF done) true

/-- The code of a list of statements. A mark of a switch opens the label of an
arm; a label may also stand where a mark was. -/
inductive ListCode (strict : Prop) : Scope → Bool → List Stmt → List Arm → List Stmt → Bool → Prop where
  | nil {scope : Scope} (falls : Bool) : ListCode strict scope falls [] [] [] falls
  | cons {scope : Scope} {falls falls₁ falls₂ : Bool} {s : Stmt} {rest : List Stmt}
      {arms : List Arm} {first others : List Stmt} : StmtCode strict scope falls s first falls₁ →
      ListCode strict scope falls₁ rest arms others falls₂ →
      ListCode strict scope falls (s :: rest) arms (first ++ others) falls₂
  | case {scope : Scope} {falls falls₁ : Bool} {x : Expr} {rest : List Stmt} {arms : List Arm}
      {others : List Stmt} (l : String) : (strict → x.isMissing = false) →
      ListCode strict scope true rest arms others falls₁ →
      ListCode strict scope falls (.caseMark x :: rest) (⟨x, l⟩ :: arms)
        (enter falls l ++ others) falls₁
  | default {scope : Scope} {falls falls₁ : Bool} {rest : List Stmt} {arms : List Arm}
      {others : List Stmt} (l : String) : ListCode strict scope true rest arms others falls₁ →
      ListCode strict scope falls (.defaultMark :: rest) (⟨.missing, l⟩ :: arms)
        (enter falls l ++ others) falls₁
  | label {scope : Scope} {falls falls₁ : Bool} {rest : List Stmt} {arms : List Arm}
      {others : List Stmt} (l : String) : ListCode strict scope true rest arms others falls₁ →
      ListCode strict scope falls rest arms (enter falls l ++ others) falls₁

end

/-- Induction along a list, with the code of each of its statements as it is. -/
@[elab_as_elim]
theorem ListCode.alongList {strict : Prop}
    {motive : ∀ scope falls rest arms code falls₁,
      ListCode strict scope falls rest arms code falls₁ → Prop}
    (nil : ∀ scope falls, motive scope falls [] [] [] falls (.nil falls))
    (cons : ∀ {scope falls falls₁ falls₂ s rest arms first others}
      (hfirst : StmtCode strict scope falls s first falls₁)
      (hothers : ListCode strict scope falls₁ rest arms others falls₂),
      motive _ _ _ _ _ _ hothers → motive _ _ _ _ _ _ (.cons hfirst hothers))
    (case : ∀ {scope falls falls₁} {x : Expr} {rest arms others} l (hx : strict → x.isMissing = false)
      (hrest : ListCode strict scope true rest arms others falls₁),
      motive _ _ _ _ _ _ hrest → motive scope falls _ _ _ _ (.case l hx hrest))
    (default : ∀ {scope falls falls₁ rest arms others} l
      (hrest : ListCode strict scope true rest arms others falls₁),
      motive _ _ _ _ _ _ hrest → motive scope falls _ _ _ _ (.default l hrest))
    (label : ∀ {scope falls falls₁ rest arms others} l
      (hrest : ListCode strict scope true rest arms others falls₁),
      motive _ _ _ _ _ _ hrest → motive scope falls _ _ _ _ (.label l hrest))
    {scope : Scope} {falls : Bool} {rest : List Stmt} {arms : List Arm} {code : List Stmt}
    {falls₁ : Bool} : ∀ h : ListCode strict scope falls rest arms code falls₁,
      motive scope falls rest arms code falls₁ h
  | .nil falls => nil _ falls
  | .cons hfirst hothers => cons hfirst hothers (alongList nil cons case default label hothers)
  | .case l hx hrest => case l hx hrest (alongList nil cons case default label hrest)
  | .default l hrest => default l hrest (alongList nil cons case default label hrest)
  | .label l hrest => label l hrest (alongList nil cons case default label hrest)

/-! ## What lowering makes -/

section

variable {strict : Prop}

theorem lift_eq_ok {α : Type} {r : Except Failure α} {a : α} {n n' : Names} :
    lift r n = .ok a n' ↔ r = .ok a ∧ n = n' := by
  cases r with
  | ok b => simp [lift, pure, EStateM.pure]
  | error e =>
      constructor
      · intro h
        cases h
      · intro h
        cases h.1

theorem arms_cons {s : Stmt} (hs : s.isCaseMark = false) {id ordinal : Nat} {seen : Bool}
    {rest : List Stmt} : arms id ordinal seen (s :: rest) = arms id ordinal seen rest := by
  cases s <;> first | rfl | cases hs

theorem lowerCases_cons {s : Stmt} (hs : s.isCaseMark = false) {scope : Scope} {id ordinal : Nat}
    {falls : Bool} {rest : List Stmt} : lowerCases scope id ordinal falls (s :: rest) = do
      let first ← lowerStmt scope falls s
      let others ← lowerCases scope id ordinal first.falls rest
      return ⟨first.code ++ others.code, others.falls⟩ := by
  cases s <;> first | rfl | cases hs

mutual

theorem lowerStmt_spec {scope : Scope} {falls : Bool} {c : Stretch} {n n' : Names} : (s : Stmt) →
    (strict → ∀ t ∈ s.preorder fun _ => true, t.isDecided = true) →
    lowerStmt scope falls s n = .ok c n' → StmtCode strict scope falls s c.code c.falls
  | .simple (.yield x) share, _, h => by
      simp only [lowerStmt, bind_eq_ok, pure_eq_ok] at h
      obtain ⟨k, _, -, rfl, rfl⟩ := h
      exact .yield x share (Label.afterYield k)
  | .simple (.expr x) share, _, h | .simple (.ret x) share, _, h | .simple (.delete x) share, _, h
  | .simple (.throw x) share, _, h | .simple (.assert x _) share, _, h
  | .simple (.log x) share, _, h | .simple .debugger share, _, h
  | .simple (.super _ x) share, _, h => by
      obtain ⟨rfl, rfl⟩ := pure_eq_ok.1 h
      exact .simple _ share
  | .breakTo l, _, h => by
      simp only [lowerStmt, bind_eq_ok, pure_eq_ok, lift_eq_ok] at h
      obtain ⟨target, _, ⟨htarget, rfl⟩, rfl, rfl⟩ := h
      exact .breakTo htarget
  | .continueTo l, _, h => by
      simp only [lowerStmt, bind_eq_ok, pure_eq_ok, lift_eq_ok] at h
      obtain ⟨target, _, ⟨htarget, rfl⟩, rfl, rfl⟩ := h
      exact .continueTo htarget
  | .ifElse c thenS elseS, hdecided, h => by
      simp only [lowerStmt, bind_eq_ok, pure_eq_ok] at h
      obtain ⟨k, n₁, -, thenC, n₂, hthen, elseC, n₃, helse, rfl, rfl⟩ := h
      simp only [Stmt.preorder, if_true, List.forall_mem_cons, List.forall_mem_append,
        imp_and] at hdecided
      exact .ifElse (Label.part "TEST" .ifElse k) (Label.part "SUCC" .ifElse k)
        (Label.part "FAIL" .ifElse k) (Label.part "END" .ifElse k)
        (lowerList_spec thenS hdecided.2.1 hthen) (lowerList_spec elseS hdecided.2.2 helse)
  | .whileLoop c body l, hdecided, h => by
      simp only [lowerStmt, bind_eq_ok, pure_eq_ok] at h
      obtain ⟨k, n₁, -, bodyC, n₂, hbody, rfl, rfl⟩ := h
      simp only [Stmt.preorder, if_true, List.forall_mem_cons, imp_and] at hdecided
      exact .whileLoop (Label.part "TEST" .whileLoop k) (Label.part "BODY" .whileLoop k)
        (Label.part "END" .whileLoop k) (by simpa [Stmt.isDecided] using hdecided.1)
        (lowerList_spec body hdecided.2 hbody)
  | .doWhile c body l, hdecided, h => by
      simp only [lowerStmt, bind_eq_ok, pure_eq_ok] at h
      obtain ⟨k, n₁, -, bodyC, n₂, hbody, rfl, rfl⟩ := h
      simp only [Stmt.preorder, if_true, List.forall_mem_cons, imp_and] at hdecided
      exact .doWhile (Label.part "BODY" .doWhile k) (Label.part "TEST" .doWhile k)
        (Label.part "END" .doWhile k) (by simpa [Stmt.isDecided] using hdecided.1)
        (lowerList_spec body hdecided.2 hbody)
  | .forLoop init cond post body l, hdecided, h => by
      simp only [lowerStmt, bind_eq_ok, pure_eq_ok] at h
      obtain ⟨k, n₁, -, bodyC, n₂, hbody, rfl, rfl⟩ := h
      simp only [Stmt.preorder, if_true, List.forall_mem_cons, imp_and] at hdecided
      exact .forLoop (Label.part "INIT" .forLoop k) (Label.part "TEST" .forLoop k)
        (Label.part "BODY" .forLoop k) (Label.part "POST" .forLoop k)
        (Label.part "END" .forLoop k) (lowerList_spec body hdecided.2 hbody)
  | .switch x body l, hdecided, h => by
      simp only [lowerStmt, bind_eq_ok, pure_eq_ok, lift_eq_ok] at h
      obtain ⟨k, n₁, -, as, n₂, ⟨harms, rfl⟩, bodyC, n₃, hbody, rfl, rfl⟩ := h
      simp only [Stmt.preorder, if_true, List.forall_mem_cons, imp_and] at hdecided
      exact .switch (Label.part "TEST" .switch k) (Label.part "END" .switch k)
        (lowerCases_spec body hdecided.2 harms hbody)
  | .forIn .., _, h | .tryCatch .., _, h | .catchClause _, _, h | .label _, _, h | .goto _, _, h
  | .condGoto .., _, h | .dispatch .., _, h | .caseMark _, _, h | .defaultMark, _, h
  | .missing, _, h => by cases h

theorem lowerList_spec {scope : Scope} {falls : Bool} {c : Stretch} {n n' : Names} :
    (body : List Stmt) → (strict → ∀ t ∈ allStmts body, t.isDecided = true) →
    lowerList scope falls body n = .ok c n' → ListCode strict scope falls body [] c.code c.falls
  | [], _, h => by
      obtain ⟨rfl, rfl⟩ := pure_eq_ok.1 h
      exact .nil falls
  | s :: rest, hdecided, h => by
      simp only [lowerList, bind_eq_ok, pure_eq_ok] at h
      obtain ⟨first, n₁, hfirst, others, n₂, hothers, rfl, rfl⟩ := h
      simp only [allStmts, preorderList, List.forall_mem_append, imp_and] at hdecided
      exact .cons (lowerStmt_spec s hdecided.1 hfirst) (lowerList_spec rest hdecided.2 hothers)

theorem lowerCases_spec {scope : Scope} {falls : Bool} {id ordinal : Nat} {seen : Bool}
    {as : List Arm} {c : Stretch} {n n' : Names} : (body : List Stmt) →
    (strict → ∀ t ∈ allStmts body, t.isDecided = true) → arms id ordinal seen body = .ok as →
    lowerCases scope id ordinal falls body n = .ok c n' →
    ListCode strict scope falls body as c.code c.falls
  | [], _, harms, h => by
      cases harms
      obtain ⟨rfl, rfl⟩ := pure_eq_ok.1 h
      exact .nil falls
  | s :: rest, hdecided, harms, h => by
      simp only [allStmts, preorderList, List.forall_mem_append, imp_and] at hdecided
      cases hs : s.isCaseMark with
      | false =>
          rw [arms_cons hs] at harms
          simp only [lowerCases_cons hs, bind_eq_ok, pure_eq_ok] at h
          obtain ⟨first, n₁, hfirst, others, n₂, hothers, rfl, rfl⟩ := h
          exact .cons (lowerStmt_spec s hdecided.1 hfirst)
            (lowerCases_spec rest hdecided.2 harms hothers)
      | true =>
          cases s
          case caseMark x =>
              obtain ⟨as, hrest, ⟨⟩⟩ := except_bind_eq_ok.1 harms
              simp only [lowerCases, bind_eq_ok, pure_eq_ok] at h
              obtain ⟨others, n₁, hothers, rfl, rfl⟩ := h
              have hx : strict → x.isMissing = false := by
                simpa [Stmt.preorder, Stmt.isDecided] using hdecided.1
              exact .case _ hx (lowerCases_spec rest hdecided.2 hrest hothers)
          case defaultMark =>
              simp only [arms] at harms
              split at harms
              · cases harms
              · obtain ⟨as, hrest, ⟨⟩⟩ := except_bind_eq_ok.1 harms
                simp only [lowerCases, bind_eq_ok, pure_eq_ok] at h
                obtain ⟨others, n₁, hothers, rfl, rfl⟩ := h
                exact .default _ (lowerCases_spec rest hdecided.2 hrest hothers)
          all_goals cases hs

end

end

/-! ## The form of the code -/

theorem neverFalls_mono {code : List Stmt} (h : neverFalls false code = true) (ended : Bool) :
    neverFalls ended code = true := by
  induction code using Stmt.code_induction generalizing ended with
  | nil => rfl
  | label m => cases h
  | other s code hlabel ih =>
      rw [neverFalls_cons hlabel] at h ⊢
      cases hs : s.isTerminator with
      | true => simpa [hs] using h
      | false =>
          rw [Bool.or_false]
          exact ih (by simpa [hs] using h) ended

@[simp] theorem neverFalls_jump (f : Bool) (l m : String) (tail : List Stmt) :
    neverFalls (!f) (jump f l ++ .label m :: tail) = neverFalls false tail := by
  cases f <;> rfl

@[simp] theorem neverFalls_enter (f : Bool) (l : String) (tail : List Stmt) :
    neverFalls (!f) (enter f l ++ tail) = neverFalls false tail := by
  simp [enter]

theorem neverFalls_optional {x : Expr} (tail : List Stmt) (h : neverFalls false tail = true) :
    neverFalls false ((if x.isMissing then [] else [.expr x]) ++ tail) = true := by
  split <;> exact h

theorem neverFalls_test {c : Expr} {start done l : String} (tail : List Stmt)
    (h : neverFalls false tail = true) :
    neverFalls false ((if c.isMissing then .goto start else .condGoto c start done) ::
      .label l :: tail) = true := by
  split <;> exact h

mutual

/-- Code never runs into a label. -/
theorem StmtCode.neverFalls {strict : Prop} {scope : Scope} {falls falls₁ : Bool} {s : Stmt}
    {code tail : List Stmt} :
    StmtCode strict scope falls s code falls₁ → Resumable.neverFalls (!falls₁) tail = true →
    Resumable.neverFalls (!falls) (code ++ tail) = true
  | .simple s share, h => by
      rw [List.singleton_append, neverFalls_cons fun _ => Stmt.noConfusion]
      cases hs : s.isTerminator with
      | true => simpa [Stmt.isTerminator, hs] using h
      | false =>
          rw [hs] at h
          exact neverFalls_mono h _
  | .yield x share l, h => by
      cases falls <;>
        simpa [Stmt.isTerminator, Simple.isTerminator, enter, jump, Resumable.neverFalls] using h
  | .breakTo _, h | .continueTo _, h => by
      simpa [Resumable.neverFalls, Stmt.isTerminator] using h
  | .ifElse test succ fail done hthen helse, h => by
      simp only [List.append_assoc, neverFalls_enter, List.cons_append, List.nil_append]
      refine hthen.neverFalls ?_
      rw [neverFalls_jump]
      refine helse.neverFalls ?_
      rwa [neverFalls_enter]
  | .whileLoop test start done _ hbody, h => by
      simp only [List.append_assoc, neverFalls_enter, List.cons_append, List.nil_append]
      refine hbody.neverFalls ?_
      rwa [neverFalls_jump]
  | .doWhile start test done _ hbody, h => by
      simp only [List.append_assoc, neverFalls_enter, List.cons_append, List.nil_append]
      refine hbody.neverFalls ?_
      rw [neverFalls_enter]
      exact h
  | .forLoop first test start last done hbody, h => by
      simp only [List.append_assoc, neverFalls_enter, List.cons_append, List.nil_append]
      refine neverFalls_optional _ (neverFalls_test _ (hbody.neverFalls ?_))
      rw [neverFalls_enter]
      exact neverFalls_optional _ h
  | .switch test done hbody, h => by
      simp only [List.append_assoc, neverFalls_enter, List.cons_append, List.nil_append]
      refine hbody.neverFalls ?_
      rwa [neverFalls_enter]

theorem ListCode.neverFalls {strict : Prop} {scope : Scope} {falls falls₁ : Bool} {body : List Stmt}
    {arms : List Arm} {code tail : List Stmt} :
    ListCode strict scope falls body arms code falls₁ → Resumable.neverFalls (!falls₁) tail = true →
    Resumable.neverFalls (!falls) (code ++ tail) = true
  | .nil _, h => h
  | .cons hfirst hothers, h => by
      rw [List.append_assoc]
      exact hfirst.neverFalls (hothers.neverFalls h)
  | .case l _ hrest, h | .default l hrest, h | .label l hrest, h => by
      rw [List.append_assoc, neverFalls_enter]
      exact hrest.neverFalls h

end

def Scope.exits (scope : Scope) : List String :=
  scope.flatMap fun e => e.breakTo :: e.continueTo.toList

def JumpsTo (T : String → Prop) (code : List Stmt) : Prop :=
  ∀ s ∈ code, ∀ l ∈ s.targets, T l

def Opens (T : String → Prop) (code : List Stmt) : Prop :=
  ∀ l, .label l ∈ code → T l

section

variable {T : String → Prop} {s : Stmt} {code more : List Stmt} {f : Bool} {l : String}

@[simp] theorem jumpsTo_nil : JumpsTo T [] := by
  simp [JumpsTo]

@[simp] theorem jumpsTo_cons : JumpsTo T (s :: code) ↔ (∀ l ∈ s.targets, T l) ∧ JumpsTo T code := by
  simp [JumpsTo]

@[simp] theorem jumpsTo_append : JumpsTo T (code ++ more) ↔ JumpsTo T code ∧ JumpsTo T more := by
  simp only [JumpsTo, List.mem_append, or_imp, forall_and]

@[simp] theorem jumpsTo_jump : JumpsTo T (jump f l) ↔ (f = true → T l) := by
  cases f <;> simp [jump, Stmt.targets]

@[simp] theorem jumpsTo_enter : JumpsTo T (enter f l) ↔ (f = true → T l) := by
  simp [enter, Stmt.targets]

@[simp] theorem opens_nil : Opens T [] := by
  simp [Opens]

@[simp] theorem opens_cons : Opens T (s :: code) ↔ (∀ l, s = .label l → T l) ∧ Opens T code := by
  simp only [Opens, List.mem_cons, or_imp, forall_and, eq_comm]

@[simp] theorem opens_append : Opens T (code ++ more) ↔ Opens T code ∧ Opens T more := by
  simp only [Opens, List.mem_append, or_imp, forall_and]

@[simp] theorem opens_jump : Opens T (jump f l) := by
  cases f <;> simp [jump]

@[simp] theorem opens_enter : Opens T (enter f l) ↔ T l := by
  simp [enter]

end

theorem Scope.mem_exits_of_breakTarget {scope : Scope} {l target : String}
    (h : scope.breakTarget l = .ok target) : target ∈ scope.exits := by
  unfold breakTarget at h
  split at h
  · cases scope with
    | nil => cases h
    | cons e rest =>
        cases h
        simp [exits]
  · split at h
    · cases h
    · next e he =>
        cases h
        exact List.mem_flatMap.2 ⟨e, List.mem_of_find?_eq_some he, .head _⟩

theorem Scope.mem_exits_of_continueTarget {scope : Scope} {l target : String}
    (h : scope.continueTarget l = .ok target) : target ∈ scope.exits := by
  unfold continueTarget at h
  split at h
  · split at h
    · cases h
    · next found hfound =>
        cases h
        obtain ⟨e, he, hcontinue⟩ := List.exists_of_findSome?_eq_some hfound
        exact List.mem_flatMap.2 ⟨e, he, by simp [hcontinue]⟩
  · split at h
    · cases h
    · next e he =>
        split at h
        · cases h
        · next found hfound =>
            cases h
            exact List.mem_flatMap.2 ⟨e, List.mem_of_find?_eq_some he, by simp [hfound]⟩

@[simp] theorem Scope.forall_mem_exits_cons {T : String → Prop} {e : Enclosing} {scope : Scope} :
    (∀ l ∈ Scope.exits (e :: scope), T l) ↔
      T e.breakTo ∧ (∀ l ∈ e.continueTo, T l) ∧ ∀ l ∈ scope.exits, T l := by
  simp [exits, or_imp, forall_and]

mutual

/-- Every jump goes to a label of the code or out of it. -/
theorem StmtCode.jumpsTo {T : String → Prop} {strict : Prop} {scope : Scope} {falls falls₁ : Bool}
    {s : Stmt}
    {code : List Stmt} : StmtCode strict scope falls s code falls₁ → Opens T code →
    (∀ l ∈ scope.exits, T l) → JumpsTo T code
  | .simple s share, _, _ => by simp [Stmt.targets]
  | .yield x share l, hopens, _ => by
      simp at hopens
      simp [Stmt.targets, hopens]
  | .breakTo htarget, _, hexits => by
      simp [Stmt.targets, hexits _ (Scope.mem_exits_of_breakTarget htarget)]
  | .continueTo htarget, _, hexits => by
      simp [Stmt.targets, hexits _ (Scope.mem_exits_of_continueTarget htarget)]
  | .ifElse test succ fail done hthen helse, hopens, hexits => by
      simp at hopens
      obtain ⟨htest, hsucc, hopens₁, hfail, hopens₂, hdone⟩ := hopens
      have hthen := (hthen.jumpsTo hopens₁ hexits).1
      have helse := (helse.jumpsTo hopens₂ hexits).1
      simp [Stmt.targets, *]
  | .whileLoop test start done _ hbody, hopens, hexits => by
      simp at hopens
      obtain ⟨htest, hstart, hopens, hdone⟩ := hopens
      have hbody := (hbody.jumpsTo hopens (by simpa [*] using hexits)).1
      simp [Stmt.targets, *]
  | .doWhile start test done _ hbody, hopens, hexits => by
      simp at hopens
      obtain ⟨hstart, hopens, htest, hdone⟩ := hopens
      have hbody := (hbody.jumpsTo hopens (by simpa [*] using hexits)).1
      simp [Stmt.targets, *]
  | .forLoop first test start last done hbody, hopens, hexits => by
      simp at hopens
      obtain ⟨hfirst, -, htest, -, hstart, hopens, hlast, -, hdone⟩ := hopens
      have hbody := (hbody.jumpsTo hopens (by simpa [*] using hexits)).1
      split <;> split <;> split <;> simp [Stmt.targets, *]
  | .switch test done hbody, hopens, hexits => by
      simp at hopens
      obtain ⟨htest, hopens, hdone⟩ := hopens
      obtain ⟨hbody, harms⟩ := hbody.jumpsTo hopens (by simpa [*] using hexits)
      simpa [Stmt.targets, *] using harms

theorem ListCode.jumpsTo {T : String → Prop} {strict : Prop} {scope : Scope} {falls falls₁ : Bool}
    {body : List Stmt} {arms : List Arm} {code : List Stmt} :
    ListCode strict scope falls body arms code falls₁ → Opens T code → (∀ l ∈ scope.exits, T l) →
    JumpsTo T code ∧ ∀ arm ∈ arms, T arm.target
  | .nil _, _, _ => by simp
  | .cons hfirst hothers, hopens, hexits => by
      rw [opens_append] at hopens
      obtain ⟨hothers, harms⟩ := hothers.jumpsTo hopens.2 hexits
      exact ⟨jumpsTo_append.2 ⟨hfirst.jumpsTo hopens.1 hexits, hothers⟩, harms⟩
  | .case l _ hrest, hopens, hexits | .default l hrest, hopens, hexits
  | .label l hrest, hopens, hexits => by
      rw [opens_append, opens_enter] at hopens
      obtain ⟨hothers, harms⟩ := hrest.jumpsTo hopens.2 hexits
      simpa [*] using harms

end

def Holds (E : Expr → Prop) (code : List Stmt) : Prop :=
  ∀ s ∈ code, ∀ e ∈ s.slots, E e

section

variable {E : Expr → Prop} {s : Stmt} {code more : List Stmt} {f : Bool} {l : String}

@[simp] theorem holds_nil : Holds E [] := by
  simp [Holds]

@[simp] theorem holds_cons : Holds E (s :: code) ↔ (∀ e ∈ s.slots, E e) ∧ Holds E code := by
  simp [Holds]

@[simp] theorem holds_append : Holds E (code ++ more) ↔ Holds E code ∧ Holds E more := by
  simp only [Holds, List.mem_append, or_imp, forall_and]

@[simp] theorem holds_jump : Holds E (jump f l) := by
  cases f <;> simp [jump, Stmt.slots]

@[simp] theorem holds_enter : Holds E (enter f l) := by
  simp [enter, Stmt.slots]

end

mutual

/-- Code holds the expressions of its statement. -/
theorem StmtCode.holds {strict : Prop} {E : Expr → Prop} (hmissing : E .missing) {scope : Scope}
    {falls falls₁ : Bool} {s : Stmt} {code : List Stmt} : StmtCode strict scope falls s code falls₁ →
    Holds E (s.preorder fun _ => true) → Holds E code
  | .simple s share, h => by simpa [Stmt.preorder] using h
  | .yield x share l, h => by simpa [Stmt.preorder] using h
  | .breakTo _, _ | .continueTo _, _ => by simp [Stmt.slots]
  | .ifElse test succ fail done hthen helse, h => by
      simp only [Stmt.preorder, if_true, holds_cons, holds_append] at h
      obtain ⟨hc, hthenS, helseS⟩ := h
      have hthenC := (hthen.holds hmissing hthenS).1
      have helseC := (helse.holds hmissing helseS).1
      simpa [Stmt.slots, *] using hc
  | .whileLoop test start done _ hbody, h | .doWhile start test done _ hbody, h => by
      simp only [Stmt.preorder, if_true, holds_cons] at h
      have hbodyC := (hbody.holds hmissing h.2).1
      simpa [Stmt.slots, *] using h.1
  | .forLoop first test start last done hbody, h => by
      simp only [Stmt.preorder, if_true, holds_cons] at h
      have hbodyC := (hbody.holds hmissing h.2).1
      have hclauses := h.1
      simp only [Stmt.slots, List.forall_mem_cons] at hclauses
      split <;> split <;> split <;> simp [Stmt.slots, Simple.slots, *]
  | .switch test done hbody, h => by
      simp only [Stmt.preorder, if_true, holds_cons] at h
      obtain ⟨hbodyC, harms⟩ := hbody.holds hmissing h.2
      have hx := h.1
      simp only [Stmt.slots, List.forall_mem_singleton] at hx
      simpa [Stmt.slots, *] using harms

theorem ListCode.holds {strict : Prop} {E : Expr → Prop} (hmissing : E .missing) {scope : Scope}
    {falls falls₁ : Bool} {body : List Stmt} {arms : List Arm} {code : List Stmt} :
    ListCode strict scope falls body arms code falls₁ → Holds E (allStmts body) →
    Holds E code ∧ ∀ arm ∈ arms, E arm.value
  | .nil _, _ => by simp
  | .cons hfirst hothers, h => by
      simp only [allStmts, preorderList, holds_append] at h
      obtain ⟨hothersC, harms⟩ := hothers.holds hmissing h.2
      exact ⟨holds_append.2 ⟨hfirst.holds hmissing h.1, hothersC⟩, harms⟩
  | .case l _ hrest, h => by
      simp only [allStmts, preorderList, holds_append] at h
      obtain ⟨hothersC, harms⟩ := hrest.holds hmissing h.2
      have hx := h.1
      simp only [Stmt.preorder, holds_cons, Stmt.slots, List.forall_mem_singleton] at hx
      simpa [*] using harms
  | .default l hrest, h => by
      simp only [allStmts, preorderList, holds_append] at h
      obtain ⟨hothersC, harms⟩ := hrest.holds hmissing h.2
      simpa [*] using harms
  | .label l hrest, h => by
      obtain ⟨hothersC, harms⟩ := hrest.holds hmissing h
      simpa [*] using harms

end

theorem StmtCode.isCaseMark_eq {strict : Prop} {scope : Scope} {falls falls₁ : Bool} {s : Stmt}
    {code : List Stmt}
    (h : StmtCode strict scope falls s code falls₁) : s.isCaseMark = false := by
  cases h <;> rfl

/-- Without the marks of a switch its code is the same. -/
theorem ListCode.unmark {strict : Prop} {scope : Scope} {falls falls₁ : Bool} {body : List Stmt}
    {arms : List Arm}
    {code : List Stmt} : ListCode strict scope falls body arms code falls₁ →
    ListCode strict scope falls (body.filter fun s => !s.isCaseMark) [] code falls₁
  | .nil _ => .nil _
  | .cons hfirst hothers => by
      rw [List.filter_cons_of_pos (by simp [hfirst.isCaseMark_eq])]
      exact .cons hfirst hothers.unmark
  | .case l _ hrest | .default l hrest | .label l hrest => .label l hrest.unmark

/-! ## Function bodies -/

/-- The jump code of a function body: the code of its statements between the
labels of its start and its end. -/
def BodyCode (strict : Prop) (body code : List Stmt) : Prop :=
  ∃ c falls, ListCode strict [] true body [] c falls ∧
    code = .goto Label.begin :: .label Label.begin :: (c ++ enter falls Label.finish)

section

variable {strict : Prop} {body code : List Stmt} {n n' : Names}

theorem bodyCode_of_ofBody (hdecided : strict → ∀ t ∈ allStmts body, t.isDecided = true)
    (h : ofBody body n = .ok code n') : BodyCode strict body code := by
  unfold ofBody at h
  obtain ⟨c, n₁, hlist, hcode⟩ := bind_eq_ok.1 h
  obtain ⟨rfl, rfl⟩ := pure_eq_ok.1 hcode
  exact ⟨_, _, lowerList_spec body hdecided hlist, by simp⟩

end

namespace BodyCode

variable {strict : Prop} {body code : List Stmt}

theorem neverFalls (h : BodyCode strict body code) : Resumable.neverFalls false code = true := by
  obtain ⟨c, falls, hlist, rfl⟩ := h
  refine hlist.neverFalls ?_
  cases falls <;> rfl

theorem jumpsTo (h : BodyCode strict body code) {T : String → Prop} (hopens : Opens T code) :
    JumpsTo T code := by
  obtain ⟨c, falls, hlist, rfl⟩ := h
  simp only [opens_cons, opens_append, opens_enter] at hopens
  obtain ⟨-, hbegin, hopens, hfinish⟩ := hopens
  have hcode := (hlist.jumpsTo hopens (by simp [Scope.exits])).1
  simp [Stmt.targets, hcode, hfinish, hbegin]

theorem holds (h : BodyCode strict body code) {E : Expr → Prop} (hmissing : E .missing)
    (hbody : Holds E (allStmts body)) : Holds E code := by
  obtain ⟨c, falls, hlist, rfl⟩ := h
  simp [Stmt.slots, (hlist.holds hmissing hbody).1]

end BodyCode

end JumpCode

end Resumable
