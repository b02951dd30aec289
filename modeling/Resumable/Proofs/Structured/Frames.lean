import Resumable.Proofs.Structured.Code
import Resumable.Proofs.Structured.Shape

/-!
# Structured stacks and positions in jump code

In an activation of structured code the rest of the work waits in blocks, loops
and switches. In jump code it is all that follows a position. Here a stack of
the one kind is related to a position of the other.
-/

namespace Resumable

open Machine JumpCode

/-! ## Positions -/

/-- With labels that occur once each, a jump leads to where its label stands. -/
theorem Stmt.after?_of_suffix {whole post : List Stmt} {l : String}
    (hnodup : (Graph.labelsOf whole).Nodup) (h : .label l :: post <:+ whole) :
    Stmt.after? l whole = some post := by
  obtain ⟨pre, rfl⟩ := h
  induction pre using Stmt.code_induction with
  | nil => simp [Stmt.after?]
  | label m pre ih =>
      rw [List.cons_append] at hnodup ⊢
      rw [Graph.labelsOf_cons_label, List.nodup_cons, Graph.mem_labelsOf] at hnodup
      have hm : m ≠ l := by
        rintro rfl
        exact hnodup.1 (by simp)
      rw [Stmt.after?, if_neg hm]
      exact ih hnodup.2
  | other s pre hs ih =>
      rw [List.cons_append, Graph.labelsOf_cons hs] at hnodup
      rw [List.cons_append, Stmt.after?_cons hs, ih hnodup]

/-- From the first position control comes to the second one through labels and
jumps only. -/
inductive Leads (whole : List Stmt) : List Stmt → List Stmt → Prop where
  | refl (post : List Stmt) : Leads whole post post
  | label (l : String) {post pos : List Stmt} : Leads whole post pos →
      Leads whole (.label l :: post) pos
  | goto {l : String} (post : List Stmt) {rest pos : List Stmt} :
      Stmt.after? l whole = some rest → Leads whole rest pos → Leads whole (.goto l :: post) pos

section

variable {whole post pos tail : List Stmt} {f : Bool} {l : String}

theorem Leads.trans {rest : List Stmt} (first : Leads whole post pos)
    (second : Leads whole pos rest) : Leads whole post rest := by
  induction first with
  | refl => exact second
  | label l _ ih => exact .label l (ih second)
  | goto post hl _ ih => exact .goto post hl (ih second)

theorem Leads.single {rest : List Stmt} (hl : Stmt.after? l whole = some rest) (post : List Stmt) :
    Leads whole (.goto l :: post) rest :=
  .goto post hl (.refl rest)

theorem suffix_of_append {first : List Stmt} (h : first ++ post <:+ whole) : post <:+ whole :=
  (List.suffix_append first post).trans h

theorem after?_of_enter (hnodup : (Graph.labelsOf whole).Nodup) (h : enter f l ++ post <:+ whole) :
    Stmt.after? l whole = some post := by
  rw [enter, List.append_assoc] at h
  exact Stmt.after?_of_suffix hnodup (suffix_of_append h)

theorem leads_enter (hnodup : (Graph.labelsOf whole).Nodup) (h : enter f l ++ post <:+ whole) :
    Leads whole (enter f l ++ post) post := by
  cases f with
  | false => exact .label l (.refl post)
  | true => exact .goto _ (after?_of_enter hnodup h) (.refl post)

end

/-! ## Loops -/

/-- From a position the test of a loop is made; it starts a round at `start`. -/
inductive Tests (whole : List Stmt) (l : Loop) (done : String) (start : List Stmt) :
    List Stmt → Prop where
  | always {pos : List Stmt} : l.cond.isMissing = true → Leads whole pos start →
      Tests whole l done start pos
  | cond {pos rest : List Stmt} {m : String} : l.cond.isMissing = false →
      Stmt.after? m whole = some start → Leads whole pos (.condGoto l.cond m done :: rest) →
      Tests whole l done start pos

theorem Tests.of_leads {whole : List Stmt} {l : Loop} {done : String} {start post pos : List Stmt}
    (hpost : Leads whole post pos) (h : Tests whole l done start pos) :
    Tests whole l done start post := by
  cases h with
  | always hmissing hpos => exact .always hmissing (hpost.trans hpos)
  | cond hmissing hm hpos => exact .cond hmissing hm (hpost.trans hpos)

inductive Rounds (whole : List Stmt) (l : Loop) (done : String) (start : List Stmt) :
    List Stmt → Prop where
  | test {pos : List Stmt} : l.post.isMissing = true → Tests whole l done start pos →
      Rounds whole l done start pos
  | post {pos rest : List Stmt} : l.post.isMissing = false →
      Leads whole pos (.expr l.post :: rest) → Tests whole l done start rest →
      Rounds whole l done start pos

/-- A position at which the code of some statements starts; from their end
control comes to `tail` if it can run off it. -/
structure StretchAt (whole : List Stmt) (scope : Scope) (body : List Stmt) (arms : List Arm)
    (falls : Bool) (pos tail : List Stmt) : Prop where
  code : ∃ code falls₁ more, ListCode True scope falls body arms code falls₁ ∧ pos = code ++ more ∧
    (falls₁ = true → Leads whole more tail)
  suffix : pos <:+ whole

theorem StretchAt.unmark {whole : List Stmt} {scope : Scope} {body : List Stmt} {arms : List Arm}
    {falls : Bool} {pos tail : List Stmt} (h : StretchAt whole scope body arms falls pos tail) :
    StretchAt whole scope (body.filter fun s => !s.isCaseMark) [] falls pos tail := by
  obtain ⟨⟨code, falls₁, more, hlist, hpos, hmore⟩, hsuffix⟩ := h
  exact ⟨⟨code, falls₁, more, hlist.unmark, hpos, hmore⟩, hsuffix⟩

/-- From the start of no statements control comes to their end. -/
theorem StretchAt.leads {whole : List Stmt} (hnodup : (Graph.labelsOf whole).Nodup) {scope : Scope}
    {pos tail : List Stmt} (h : StretchAt whole scope [] [] true pos tail) :
    Leads whole pos tail := by
  obtain ⟨⟨code, falls₁, more, hlist, rfl, hmore⟩, hsuffix⟩ := h
  exact leads_nil hnodup hlist hsuffix hmore
where
  leads_nil {whole : List Stmt} (hnodup : (Graph.labelsOf whole).Nodup) {scope : Scope}
      {code more tail : List Stmt} {falls₁ : Bool} : ListCode True scope true [] [] code falls₁ →
      code ++ more <:+ whole → (falls₁ = true → Leads whole more tail) →
      Leads whole (code ++ more) tail
    | .nil _, _, hmore => hmore rfl
    | .label l hrest, hsuffix, hmore => by
        rw [List.append_assoc] at hsuffix ⊢
        exact (leads_enter hnodup hsuffix).trans
          (leads_nil hnodup hrest (suffix_of_append hsuffix) hmore)

/-- The first of some statements and those after it. -/
theorem StretchAt.uncons {whole : List Stmt} (hnodup : (Graph.labelsOf whole).Nodup) {scope : Scope}
    {s : Stmt} {rest pos tail : List Stmt} (h : StretchAt whole scope (s :: rest) [] true pos tail) :
    ∃ code falls pos₁, StmtCode True scope true s code falls ∧ code ++ pos₁ <:+ whole ∧
      Leads whole pos (code ++ pos₁) ∧ StretchAt whole scope rest [] falls pos₁ tail := by
  obtain ⟨⟨code, falls₁, more, hlist, rfl, hmore⟩, hsuffix⟩ := h
  exact leads_cons hnodup hlist hsuffix hmore
where
  leads_cons {whole : List Stmt} (hnodup : (Graph.labelsOf whole).Nodup) {scope : Scope} {s : Stmt}
      {rest code more tail : List Stmt} {falls₁ : Bool} :
      ListCode True scope true (s :: rest) [] code falls₁ → code ++ more <:+ whole →
      (falls₁ = true → Leads whole more tail) →
      ∃ first falls pos₁, StmtCode True scope true s first falls ∧ first ++ pos₁ <:+ whole ∧
        Leads whole (code ++ more) (first ++ pos₁) ∧ StretchAt whole scope rest [] falls pos₁ tail
    | .cons hfirst hothers, hsuffix, hmore => by
        rw [List.append_assoc] at hsuffix ⊢
        exact ⟨_, _, _, hfirst, hsuffix, .refl _,
          ⟨_, _, _, hothers, rfl, hmore⟩, suffix_of_append hsuffix⟩
    | .label l hrest, hsuffix, hmore => by
        rw [List.append_assoc] at hsuffix ⊢
        obtain ⟨first, falls, pos₁, hfirst, hsuffix₁, hleads, hstretch⟩ :=
          leads_cons hnodup hrest (suffix_of_append hsuffix) hmore
        exact ⟨first, falls, pos₁, hfirst, hsuffix₁, (leads_enter hnodup hsuffix).trans hleads,
          hstretch⟩

/-- The code of a loop: a round is at `start`, and `next` is where it goes on
with the next one. -/
structure LoopCode (whole : List Stmt) (scope : Scope) (l : Loop) (cont done : String)
    (start next : List Stmt) : Prop where
  body : StretchAt whole (⟨l.label, done, some cont⟩ :: scope) l.body [] true start next
  again : Stmt.after? cont whole = some next
  rounds : Rounds whole l done start next

/-! ### The loops that code is made of -/

section

variable {whole : List Stmt} {scope : Scope} {c : Expr} {body bodyC pos : List Stmt}
  {f falls : Bool} {l test start last done : String}

theorem loopCode_while (hnodup : (Graph.labelsOf whole).Nodup) (hc : c.isMissing = false)
    (hbody : ListCode True (⟨l, done, some test⟩ :: scope) true body [] bodyC falls)
    {rest : List Stmt} (hrest : rest = .condGoto c start done :: .label start ::
      (bodyC ++ (jump falls test ++ .label done :: pos))) (hsuffix : enter f test ++ rest <:+ whole) :
    ∃ first, LoopCode whole scope ⟨l, c, .missing, body⟩ test done first rest ∧
      Tests whole ⟨l, c, .missing, body⟩ done first rest ∧ Stmt.after? done whole = some pos := by
  have htest := after?_of_enter hnodup hsuffix
  have hrest' := suffix_of_append hsuffix
  rw [hrest] at hrest'
  have hstart := (List.suffix_cons _ _).trans hrest'
  have hfirst := (List.suffix_cons _ _).trans hstart
  have htests : Tests whole ⟨l, c, .missing, body⟩ done _ rest :=
    .cond hc (Stmt.after?_of_suffix hnodup hstart) (by rw [hrest]; exact .refl _)
  refine ⟨_, ⟨⟨⟨_, _, _, hbody, rfl, ?_⟩, hfirst⟩, htest, .test rfl htests⟩, htests,
    Stmt.after?_of_suffix hnodup (suffix_of_append (suffix_of_append hfirst))⟩
  rintro rfl
  exact .single htest _

theorem loopCode_doWhile (hnodup : (Graph.labelsOf whole).Nodup) (hc : c.isMissing = false)
    (hbody : ListCode True (⟨l, done, some test⟩ :: scope) true body [] bodyC falls)
    {first : List Stmt} (hfirst : first = bodyC ++ (enter falls test ++
      .condGoto c start done :: .label done :: pos)) (hsuffix : enter f start ++ first <:+ whole) :
    ∃ next, LoopCode whole scope ⟨l, c, .missing, body⟩ test done first next ∧
      Stmt.after? done whole = some pos := by
  have hstart := after?_of_enter hnodup hsuffix
  have hfirst' := suffix_of_append hsuffix
  subst hfirst
  have htest := suffix_of_append hfirst'
  have hnext := suffix_of_append htest
  exact ⟨_, ⟨⟨⟨_, _, _, hbody, rfl, fun _ => leads_enter hnodup htest⟩, hfirst'⟩,
    after?_of_enter hnodup htest, .test rfl (.cond hc hstart (.refl _))⟩,
    Stmt.after?_of_suffix hnodup ((List.suffix_cons _ _).trans hnext)⟩

theorem loopCode_for (hnodup : (Graph.labelsOf whole).Nodup) {post : Expr}
    (hbody : ListCode True (⟨l, done, some last⟩ :: scope) true body [] bodyC falls)
    {rest : List Stmt} (hrest : rest =
      (if c.isMissing then .goto start else .condGoto c start done) :: .label start ::
        (bodyC ++ (enter falls last ++ ((if post.isMissing then [] else [.expr post]) ++
          .goto test :: .label done :: pos)))) (hsuffix : enter f test ++ rest <:+ whole) :
    ∃ first next, LoopCode whole scope ⟨l, c, post, body⟩ last done first next ∧
      Tests whole ⟨l, c, post, body⟩ done first rest ∧ Stmt.after? done whole = some pos := by
  have htest := after?_of_enter hnodup hsuffix
  have hrest' := suffix_of_append hsuffix
  rw [hrest] at hrest'
  have hstart := (List.suffix_cons _ _).trans hrest'
  have hfirst := (List.suffix_cons _ _).trans hstart
  have hlast := suffix_of_append hfirst
  have hnext := suffix_of_append hlast
  have hgoto := suffix_of_append hnext
  have htests {first : List Stmt} (hstart : Stmt.after? start whole = some first) :
      Tests whole ⟨l, c, post, body⟩ done first rest := by
    rw [hrest]
    cases hmissing : c.isMissing with
    | true => exact .always hmissing (.single hstart _)
    | false => exact .cond hmissing hstart (.refl _)
  have hrounds {first : List Stmt} (htests : Tests whole ⟨l, c, post, body⟩ done first rest) :
      Rounds whole ⟨l, c, post, body⟩ done first
        ((if post.isMissing then [] else [.expr post]) ++ .goto test :: .label done :: pos) := by
    have hagain := htests.of_leads (.single htest (.label done :: pos))
    cases hmissing : post.isMissing with
    | true => exact .test hmissing hagain
    | false => exact .post hmissing (.refl _) hagain
  have htests := htests (Stmt.after?_of_suffix hnodup hstart)
  exact ⟨_, _, ⟨⟨⟨_, _, _, hbody, rfl, fun _ => leads_enter hnodup hlast⟩, hfirst⟩,
    after?_of_enter hnodup hlast, hrounds htests⟩, htests,
    Stmt.after?_of_suffix hnodup ((List.suffix_cons _ _).trans hgoto)⟩

end

/-! ## Frames of an activation -/

/-- What waits in an activation, and the position that control comes to with the
normal end of the statement at hand. -/
inductive Frames (whole : List Stmt) (env : Env) : Scope → List Waiting → List Stmt → Prop where
  | base : Frames whole env [] [] []
  | block {scope : Scope} {rest pos tail : List Stmt} {frames : List Waiting} :
      StretchAt whole scope rest [] true pos tail → Frames whole env scope frames tail →
      Frames whole env scope (.block rest env :: frames) pos
  | loop {scope : Scope} {l : Loop} {cont done : String} {start next tail : List Stmt}
      {frames : List Waiting} : LoopCode whole scope l cont done start next →
      Stmt.after? done whole = some tail → Frames whole env scope frames tail →
      Frames whole env (⟨l.label, done, some cont⟩ :: scope) (.loop l env :: frames) next
  | switch {scope : Scope} {own done : String} {tail : List Stmt} {frames : List Waiting} :
      Stmt.after? done whole = some tail → Frames whole env scope frames tail →
      Frames whole env (⟨own, done, none⟩ :: scope) (.switch own :: frames) tail

/-- What waits in an activation if the statement at hand may not end normally;
then nothing is known of what follows it in its block. -/
inductive Around (whole : List Stmt) (env : Env) :
    Scope → Bool → List Waiting → List Stmt → Prop where
  | live {scope : Scope} (falls : Bool) {frames : List Waiting} {pos : List Stmt} :
      Frames whole env scope frames pos → Around whole env scope falls frames pos
  | dead {scope : Scope} (rest : List Stmt) {frames : List Waiting} (pos : List Stmt)
      {tail : List Stmt} : Frames whole env scope frames tail →
      Around whole env scope false (.block rest env :: frames) pos

def EntersAt (whole : List Stmt) (scope : Scope) (tail : List Stmt) (rest : List Stmt)
    (jumps : List Stmt) : Prop :=
  ∃ l more arms pos, jumps = .goto l :: more ∧ Stmt.after? l whole = some pos ∧
    StretchAt whole scope rest arms true pos tail

/-- What waits on top of an activation for a value that decides where control
goes, in structured code and in jump code. -/
inductive Decides (whole : List Stmt) (env : Env) :
    Waiting → List Waiting → Waiting → List Stmt → Prop where
  | branch {scope : Scope} {thenS elseS thenP elseP pos : List Stmt} {succ fail : String}
      {frames : List Waiting} (post : List Stmt) : Stmt.after? succ whole = some thenP →
      StretchAt whole scope thenS [] true thenP pos → Stmt.after? fail whole = some elseP →
      StretchAt whole scope elseS [] true elseP pos → Frames whole env scope frames pos →
      Decides whole env (.operands (.branch thenS elseS) [] [] env) frames
        (.operands (.branch [.goto succ] [.goto fail]) [] [] env) post
  | loopTest {scope : Scope} {l : Loop} {cont done m : String} {start next tail : List Stmt}
      {frames : List Waiting} (post : List Stmt) : LoopCode whole scope l cont done start next →
      Stmt.after? m whole = some start → Stmt.after? done whole = some tail →
      Frames whole env scope frames tail →
      Decides whole env (.operands (.loopTest l) [] [] env) frames
        (.operands (.branch [.goto m] [.goto done]) [] [] env) post
  | loopAgain {scope : Scope} {l : Loop} {cont done : String} {start next tail post : List Stmt}
      {frames : List Waiting} : LoopCode whole scope l cont done start next →
      Tests whole l done start post → Stmt.after? done whole = some tail →
      Frames whole env scope frames tail →
      Decides whole env (.operands (.loopAgain l) [] [] env) frames
        (.operands .discard [] [] env) post
  | switchOn {scope : Scope} {own done : String} {body pos tail : List Stmt} {arms : List Arm}
      {frames : List Waiting} (post : List Stmt) :
      StretchAt whole (⟨own, done, none⟩ :: scope) body arms false pos tail →
      Stmt.after? done whole = some tail → Frames whole env scope frames tail →
      Decides whole env (.operands (.switchOn own body) [] [] env) frames
        (.operands (.switchOn "" (arms.flatMap Arm.stmts)) [] [] env) (.goto done :: post)
  | caseTest {scope : Scope} {own done l : String} {subject : Value} {rest pos tail : List Stmt}
      {fallback fallback' : Option (List Stmt)} {arms : List Arm} {frames : List Waiting}
      (post : List Stmt) : Stmt.after? l whole = some pos →
      StretchAt whole (⟨own, done, none⟩ :: scope) rest arms true pos tail →
      Option.Rel (EntersAt whole (⟨own, done, none⟩ :: scope) tail) fallback fallback' →
      Stmt.after? done whole = some tail → Frames whole env scope frames tail →
      Decides whole env (.operands (.caseTest own subject rest fallback) [] [] env) frames
        (.operands (.caseTest "" subject (.goto l :: arms.flatMap Arm.stmts) fallback') [] [] env)
        (.goto done :: post)

/-! ## Stacks and states -/

/-- What may wait in both programs alike above a stack. -/
def Waiting.Suits (id : FuncId) (w : Waiting) (below : List Waiting) : Prop :=
  match w with
  | .call fn => fn ≠ id
  | w => w.isMild = true ∨ activeFn? below ≠ some id

/-- Two stacks correspond, the first of structured code and the second of jump
code. If `falls`, the statement at hand may end normally. -/
inductive Stacks (whole : List Stmt) (id : FuncId) :
    Bool → List Waiting → List Waiting → Prop where
  | nil (falls : Bool) : Stacks whole id falls [] []
  | same (falls : Bool) {below : Bool} {w : Waiting} {stack stack' : List Waiting} :
      (w.completes = true → below = true) → w.Suits id stack' → Stacks whole id below stack stack' →
      Stacks whole id falls (w :: stack) (w :: stack')
  | frames {scope : Scope} {falls : Bool} {env : Env} {frames : List Waiting}
      {post pos : List Stmt} {stack stack' : List Waiting} : Around whole env scope falls frames pos →
      Leads whole post pos → Stacks whole id true stack stack' →
      Stacks whole id falls (frames ++ .call id :: stack) (.block post env :: .call id :: stack')
  | decides (falls : Bool) {env : Env} {w w' : Waiting} {frames : List Waiting} {post : List Stmt}
      {stack stack' : List Waiting} : Decides whole env w frames w' post →
      Stacks whole id true stack stack' →
      Stacks whole id falls (w :: (frames ++ .call id :: stack))
        (w' :: .block post env :: .call id :: stack')

def Focus.Suits (id : FuncId) (falls : Bool) (stack' : List Waiting) : Focus → Prop
  | .exec .. | .complete (.broke _) | .complete (.continued _) => activeFn? stack' ≠ some id
  | .complete .normal => falls = true
  | _ => True

def exitTarget (scope : Scope) : Completion → Except Failure String
  | .broke l => scope.breakTarget l
  | .continued l => scope.continueTarget l
  | _ => .error default

/-- Two states correspond, the first of structured code and the second of jump
code. -/
inductive Match (whole : List Stmt) (id : FuncId) : State → State → Prop where
  | same (falls : Bool) {focus : Focus} {stack stack' : List Waiting} {depth : Nat} {σ : Store} :
      Stacks whole id falls stack stack' → focus.Suits id falls stack' →
      Match whole id ⟨focus, stack, depth, σ⟩ ⟨focus, stack', depth, σ⟩
  | exec {scope : Scope} {falls : Bool} {s : Stmt} {env : Env} {frames : List Waiting}
      {code post pos : List Stmt} {stack stack' : List Waiting} {depth : Nat} {σ : Store} :
      StmtCode True scope true s code falls → code ++ pos <:+ whole →
      Around whole env scope falls frames pos → Leads whole post (code ++ pos) →
      Stacks whole id true stack stack' →
      Match whole id ⟨.exec s env, frames ++ .call id :: stack, depth, σ⟩
        ⟨.complete .normal, .block post env :: .call id :: stack', depth, σ⟩
  | exit {scope : Scope} {falls : Bool} {c : Completion} {target : String} {env : Env}
      {frames : List Waiting} {post pos rest : List Stmt} {stack stack' : List Waiting}
      {depth : Nat} {σ : Store} : exitTarget scope c = .ok target →
      Leads whole post (.goto target :: rest) → Around whole env scope falls frames pos →
      Stacks whole id true stack stack' →
      Match whole id ⟨.complete c, frames ++ .call id :: stack, depth, σ⟩
        ⟨.complete .normal, .block post env :: .call id :: stack', depth, σ⟩
  | leave {v : Value} {frames dead : List Waiting} {stack stack' : List Waiting} {depth : Nat}
      {σ : Store} {focus : Focus} : focus = .complete (.returned v) ∨ focus = .thrown v →
      frames.all Waiting.isFrame = true → dead.all Waiting.isFrame = true →
      Stacks whole id true stack stack' →
      Match whole id ⟨focus, frames ++ .call id :: stack, depth, σ⟩
        ⟨focus, dead ++ .call id :: stack', depth, σ⟩

end Resumable
