import Resumable.Proofs.Structured.Mirror

/-!
# Runs of structured code and of its jump code

The steps of an activation of structured code, one kind after the other, and
the run lemma.
-/

namespace Resumable

open Machine JumpCode

section

variable {p q : Program} {id : FuncId} {whole : List Stmt} {ok : State → Prop} {env : Env}
  {stack stack' : List Waiting} {depth : Nat} {σ : Store} {s' : State} {scope : Scope}
  {frames : List Waiting} {post pos : List Stmt} {σ' : Store}

theorem Lowered.body_eq (h : Lowered p q id whole) : (q.func? id).map Func.body = some whole := by
  obtain ⟨f, g, pos, -, hg, -, -, hbody, -, -⟩ := h.code
  rw [hg, Option.map_some, hbody]

theorem Around.frames_of_falls (h : Around whole env scope true frames pos) :
    Frames whole env scope frames pos := by
  cases h with
  | live _ h => exact h

/-! ## Statements -/

/-- A simple statement is the same in both. -/
theorem Mirrors.simple (hL : Lowered p q id whole) (hok : Guard ok) {falls : Bool} {s : Simple}
    (hfalls : (!s.isTerminator) = true → falls = true) (share : Option Nat)
    (hstacks : Stacks whole id falls stack stack') :
    Mirrors q id whole ok (free p ⟨.exec (.simple s share) env, stack, depth, σ⟩)
      ⟨.exec (.simple s share) env, stack', depth, σ⟩ := by
  have honto (stack : List Waiting) :
      free p ⟨.exec (.simple s share) env, stack, depth, σ⟩ =
        (stepSimple ⟨p, depth + 1⟩ s env [] depth σ).onto stack :=
    free_onto_of_starts p stack rfl [] depth σ
  rw [honto]
  have hmoves : Moves true False ((!s.isTerminator) = true) False depth []
      (stepSimple ⟨p, depth + 1⟩ s env [] depth σ) :=
    stepSimple_moves _ s fun h => by rw [h]; rfl
  refine .mild hmoves.mild hstacks hfalls hok.exec ?_
  rw [jump_eq_free_of_simple, hL.twins.free_eq (by simp [callee?]), honto]

/-- A statement is followed by its code. -/
theorem Mirrors.exec (hL : Lowered p q id whole) (hok : Guard ok) {falls : Bool} {s : Stmt}
    {code : List Stmt} (hstmt : StmtCode True scope true s code falls) (hsuffix : code ++ pos <:+ whole)
    (haround : Around whole env scope falls frames pos) (hpost : Leads whole post (code ++ pos))
    (hstacks : Stacks whole id true stack stack') :
    Mirrors q id whole ok (free p ⟨.exec s env, frames ++ .call id :: stack, depth, σ⟩)
      ⟨.complete .normal, .block post env :: .call id :: stack', depth, σ⟩ := by
  have hcode := hL.body_eq
  have hnodup := hL.nodup
  cases hstmt with
  | simple s share =>
      refine .steps ((hpost.steps hok hcode).trans (.single hok.complete rfl)) ?_
      exact .simple hL hok (fun h => h) share (.frames haround (.refl pos) hstacks)
  | yield x share l =>
      rw [List.cons_append] at hsuffix hpost
      refine .steps ((hpost.steps hok hcode).trans (.single hok.complete rfl)) ?_
      have hleads := leads_enter hnodup ((List.suffix_cons _ _).trans hsuffix)
      exact .simple hL hok (fun _ => rfl) share (.frames haround hleads hstacks)
  | breakTo htarget => exact .next (.refl _) (.exit htarget hpost haround hstacks)
  | continueTo htarget => exact .next (.refl _) (.exit htarget hpost haround hstacks)
  | @ifElse _ _ _ _ c thenS elseS thenC elseC test succ fail done hthen helse =>
      simp only [List.append_assoc, List.cons_append, List.nil_append] at hsuffix hpost
      have htest := suffix_of_append hsuffix
      have hsucc := (List.suffix_cons _ _).trans htest
      have hthenP := (List.suffix_cons _ _).trans hsucc
      have hfail := suffix_of_append (suffix_of_append hthenP)
      have helseP := (List.suffix_cons _ _).trans hfail
      have hdone := suffix_of_append helseP
      have hthenS : StretchAt whole scope thenS [] true _ pos := ⟨⟨_, _, _, hthen, rfl, by
        rintro rfl
        exact .single (after?_of_enter hnodup hdone) _⟩, hthenP⟩
      have helseS : StretchAt whole scope elseS [] true _ pos :=
        ⟨⟨_, _, _, helse, rfl, fun _ => leads_enter hnodup hdone⟩, helseP⟩
      exact .next (((hpost.trans (leads_enter hnodup hsuffix)).steps hok hcode).trans
        (steps_condGoto hok _ _ _ _))
        (.same true (.decides _ (.branch _ (Stmt.after?_of_suffix hnodup hsucc) hthenS
          (Stmt.after?_of_suffix hnodup hfail) helseS haround.frames_of_falls) hstacks) trivial)
  | whileLoop test start done hc hbody =>
      simp only [List.append_assoc, List.cons_append, List.nil_append] at hsuffix hpost
      obtain ⟨first, hloop, htests, hdone⟩ := loopCode_while hnodup (hc trivial) hbody rfl hsuffix
      exact .enterLoop hok hcode hloop hdone haround.frames_of_falls hstacks htests
        ((hpost.trans (leads_enter hnodup hsuffix)).steps hok hcode)
  | doWhile start test done hc hbody =>
      simp only [List.append_assoc, List.cons_append, List.nil_append] at hsuffix hpost
      obtain ⟨next, hloop, hdone⟩ := loopCode_doWhile hnodup (hc trivial) hbody rfl hsuffix
      exact .live (.block hloop.body (.loop hloop hdone haround.frames_of_falls))
        (hpost.trans (leads_enter hnodup hsuffix)) hstacks (.refl _)
  | @forLoop _ _ _ init cond last body bodyC l first test start again done hbody =>
      simp only [List.append_assoc, List.cons_append, List.nil_append] at hsuffix hpost
      have hinit := suffix_of_append hsuffix
      have htest := suffix_of_append hinit
      have hleads := hpost.trans (leads_enter hnodup hsuffix)
      obtain ⟨first, next, hloop, htests, hdone⟩ := loopCode_for hnodup hbody rfl htest
      have htests := htests.of_leads (leads_enter hnodup htest)
      simp only [free, step, stepExec]
      split
      · next hmissing =>
          rw [if_pos hmissing] at hleads
          exact .enterLoop hok hcode hloop hdone haround.frames_of_falls hstacks htests
            (hleads.steps hok hcode)
      · next hmissing =>
          rw [if_neg hmissing] at hleads
          exact .next ((hleads.steps hok hcode).trans (steps_expr hok _ _)) (.same true
            (.decides _ (.loopAgain hloop htests hdone haround.frames_of_falls) hstacks) trivial)
  | switch test done hbody =>
      simp only [List.append_assoc, List.cons_append, List.nil_append] at hsuffix hpost
      have htest := suffix_of_append hsuffix
      have hgoto := (List.suffix_cons _ _).trans htest
      have hbodyP := (List.suffix_cons _ _).trans hgoto
      have hend := suffix_of_append hbodyP
      exact .next (((hpost.trans (leads_enter hnodup hsuffix)).steps hok hcode).trans
        (steps_dispatch hok _ _ _))
        (.same true (.decides _ (.switchOn _
          ⟨⟨_, _, _, hbody, rfl, fun _ => leads_enter hnodup hend⟩, hbodyP⟩
          (after?_of_enter hnodup hend) haround.frames_of_falls) hstacks) trivial)

/-! ## Values that decide where control goes -/

theorem Mirrors.decides (hL : Lowered p q id whole) (hok : Guard ok) {w w' : Waiting}
    (h : Decides whole env w frames w' post) (hstacks : Stacks whole id true stack stack')
    (v : Value) :
    Mirrors q id whole ok (free p ⟨.value v, w :: (frames ++ .call id :: stack), depth, σ⟩)
      ⟨.value v, w' :: .block post env :: .call id :: stack', depth, σ⟩ := by
  have hcode := hL.body_eq
  cases h with
  | @branch _ thenS elseS _ _ _ _ _ _ post hsucc hthen hfail helse hframes =>
      have hstep : free p ⟨.value v, .operands (.branch thenS elseS) [] [] env ::
          (frames ++ .call id :: stack), depth, σ⟩ =
          enterBlock (if v.truthy then thenS else elseS) env (frames ++ .call id :: stack) depth σ :=
        rfl
      rw [hstep]
      split
      · next hv =>
          refine .live (.block hthen hframes) (.refl _) hstacks (steps_branch hok hcode ?_ post)
          rwa [if_pos hv]
      · next hv =>
          refine .live (.block helse hframes) (.refl _) hstacks (steps_branch hok hcode ?_ post)
          rwa [if_neg hv]
  | @loopTest _ l _ _ _ _ _ _ _ post hloop hm hdone hframes =>
      have hstep : free p ⟨.value v, .operands (.loopTest l) [] [] env ::
          (frames ++ .call id :: stack), depth, σ⟩ =
          if v.truthy then enterBlock l.body env (.loop l env :: (frames ++ .call id :: stack)) depth σ
          else complete (frames ++ .call id :: stack) depth σ .normal := rfl
      rw [hstep]
      split
      · next hv =>
          refine .live (.block hloop.body (.loop hloop hdone hframes)) (.refl _) hstacks
            (steps_branch hok hcode ?_ post)
          rwa [if_pos hv]
      · next hv =>
          refine .live hframes (.refl _) hstacks (steps_branch hok hcode ?_ post)
          rwa [if_neg hv]
  | loopAgain hloop htests hdone hframes =>
      exact .enterLoop hok hcode hloop hdone hframes hstacks htests (.single hok.discard rfl)
  | switchOn post hbody hdone hframes =>
      obtain ⟨⟨code, falls, more, hlist, rfl, hmore⟩, hsuffix⟩ := hbody
      exact .scan hok hcode hL.nodup hdone hframes hstacks post (hok.flow rfl) rfl hlist hsuffix
        hmore .none rfl
  | @caseTest _ own done l subject rest pos tail fallback fallback' arms _ post hl hpart hfallback
      hdone hframes =>
      simp only [free, step, stepValue, perform]
      split
      · next hequal =>
          refine .enterSwitch hok hcode hdone hframes hstacks hl hpart (arms.flatMap Arm.stmts)
            (.goto done :: post) (hok.flow rfl) ?_
          simp only [Machine.jump, free, step, stepValue, perform]
          exact if_pos hequal
      · next hequal =>
          obtain ⟨⟨code, falls, more, hlist, rfl, hmore⟩, hsuffix⟩ := hpart
          refine .scan hok hcode hL.nodup hdone hframes hstacks post (hok.flow rfl) rfl hlist hsuffix
            hmore hfallback ?_
          simp only [Machine.jump, free, step, stepValue, perform]
          exact if_neg hequal

/-! ## Ends of statements -/

/-- A statement ends normally. -/
theorem Mirrors.normal (hL : Lowered p q id whole) (hok : Guard ok)
    (h : Frames whole env scope frames pos) (hpost : Leads whole post pos)
    (hstacks : Stacks whole id true stack stack') :
    Mirrors q id whole ok (free p ⟨.complete .normal, frames ++ .call id :: stack, depth, σ⟩)
      ⟨.complete .normal, .block post env :: .call id :: stack', depth, σ⟩ := by
  have hcode := hL.body_eq
  cases h with
  | base =>
      exact .next ((hpost.steps hok hcode).trans
        (.head hok.complete rfl (.single hok.complete rfl))) (.same true hstacks trivial)
  | @block _ rest _ tail frames hstretch hframes =>
      cases rest with
      | nil => exact .live hframes (hpost.trans (hstretch.leads hL.nodup)) hstacks (.refl _)
      | cons s rest =>
          obtain ⟨code, falls, pos₁, hstmt, hsuffix, hleads, hrest⟩ := hstretch.uncons hL.nodup
          have haround : Around whole env scope falls (.block rest env :: frames) pos₁ := by
            cases falls with
            | false => exact .dead rest pos₁ hframes
            | true => exact .live true (.block hrest hframes)
          exact .next (.refl _) (.exec hstmt hsuffix haround (hpost.trans hleads) hstacks)
  | loop hloop hdone hframes =>
      exact .nextRound hok hcode hloop hdone hframes hstacks hpost (.refl _)
  | switch hdone hframes => exact .live hframes hpost hstacks (.refl _)

theorem Scope.breakTarget_cons (own done : String) (cont : Option String) (scope : Scope)
    (l : String) : Scope.breakTarget (⟨own, done, cont⟩ :: scope) l =
      if targets l own then .ok done else scope.breakTarget l := by
  by_cases hl : l = ""
  · simp [Scope.breakTarget, targets, hl]
  · by_cases ho : own = l
    · simp [Scope.breakTarget, Scope.find?, targets, hl, ho]
    · simp [Scope.breakTarget, Scope.find?, targets, hl, ho, Ne.symm ho]

theorem Scope.continueTarget_loop (own done cont : String) (scope : Scope) (l : String) :
    Scope.continueTarget (⟨own, done, some cont⟩ :: scope) l =
      if targets l own then .ok cont else scope.continueTarget l := by
  by_cases hl : l = ""
  · simp [Scope.continueTarget, targets, hl]
  · by_cases ho : own = l
    · simp [Scope.continueTarget, Scope.find?, targets, hl, ho]
    · simp [Scope.continueTarget, Scope.find?, targets, hl, ho, Ne.symm ho]

theorem Scope.continueTarget_switch {own done l target : String} {scope : Scope}
    (h : Scope.continueTarget (⟨own, done, none⟩ :: scope) l = .ok target) :
    scope.continueTarget l = .ok target := by
  by_cases hl : l = ""
  · simpa [Scope.continueTarget, hl] using h
  · by_cases ho : own = l
    · simp [Scope.continueTarget, Scope.find?, hl, ho] at h
    · simpa [Scope.continueTarget, Scope.find?, hl, ho] using h

theorem exitTarget_nil (c : Completion) (target : String) : exitTarget [] c ≠ .ok target := by
  cases c with
  | broke l => by_cases hl : l = "" <;> simp [exitTarget, Scope.breakTarget, Scope.find?, hl]
  | continued l => by_cases hl : l = "" <;> simp [exitTarget, Scope.continueTarget, Scope.find?, hl]
  | _ => simp [exitTarget]

/-- A `break` or `continue` is on its way out. -/
theorem Mirrors.exit (hL : Lowered p q id whole) (hok : Guard ok) {falls : Bool} {c : Completion}
    {target : String} {rest : List Stmt} (htarget : exitTarget scope c = .ok target)
    (hpost : Leads whole post (.goto target :: rest))
    (haround : Around whole env scope falls frames pos)
    (hstacks : Stacks whole id true stack stack') :
    Mirrors q id whole ok (free p ⟨.complete c, frames ++ .call id :: stack, depth, σ⟩)
      ⟨.complete .normal, .block post env :: .call id :: stack', depth, σ⟩ := by
  have hcode := hL.body_eq
  have hnormal : c ≠ .normal := by rintro rfl; cases htarget
  have hpop {scope : Scope} {frames : List Waiting} {tail : List Stmt}
      (htarget : exitTarget scope c = .ok target) (hframes : Frames whole env scope frames tail) :
      Mirrors q id whole ok (.next ⟨.complete c, frames ++ .call id :: stack, depth, σ⟩)
        ⟨.complete .normal, .block post env :: .call id :: stack', depth, σ⟩ :=
    .next (.refl _) (.exit htarget hpost (.live true hframes) hstacks)
  have hblock (rest : List Stmt) (stack : List Waiting) :
      free p ⟨.complete c, .block rest env :: stack, depth, σ⟩ =
        .next ⟨.complete c, stack, depth, σ⟩ := by
    cases c <;> first | rfl | exact absurd rfl hnormal
  cases haround with
  | dead rest pos hframes =>
      rw [List.cons_append, hblock]
      exact hpop htarget hframes
  | live _ hframes =>
      cases hframes with
      | base => exact absurd htarget (exitTarget_nil c target)
      | block hstretch hframes =>
          rw [List.cons_append, hblock]
          exact hpop htarget hframes
      | @loop scope l cont done start next tail frames hloop hdone hframes =>
          cases c with
          | broke label =>
              simp only [exitTarget, Scope.breakTarget_cons] at htarget
              simp only [free, step, List.cons_append, stepComplete, complete]
              split at htarget
              · next ht =>
                  cases htarget
                  rw [if_pos ht]
                  exact .live hframes (hpost.trans (.single hdone rest)) hstacks (.refl _)
              · next ht =>
                  rw [if_neg ht]
                  exact hpop htarget hframes
          | continued label =>
              simp only [exitTarget, Scope.continueTarget_loop] at htarget
              simp only [free, step, List.cons_append, stepComplete, complete]
              split at htarget
              · next ht =>
                  cases htarget
                  rw [if_pos ht]
                  exact .nextRound hok hcode hloop hdone hframes hstacks
                    (hpost.trans (.single hloop.again rest)) (.refl _)
              · next ht =>
                  rw [if_neg ht]
                  exact hpop htarget hframes
          | _ => cases htarget
      | @switch scope own done tail frames hdone hframes =>
          cases c with
          | broke label =>
              simp only [exitTarget, Scope.breakTarget_cons] at htarget
              simp only [free, step, List.cons_append, stepComplete, complete]
              split at htarget
              · next ht =>
                  cases htarget
                  rw [if_pos ht]
                  exact .live hframes (hpost.trans (.single hdone rest)) hstacks (.refl _)
              · next ht =>
                  rw [if_neg ht]
                  exact hpop htarget hframes
          | continued label => exact hpop (Scope.continueTarget_switch htarget) hframes
          | _ => cases htarget

/-! ## Ends of activations -/

theorem Frames.all_isFrame (h : Frames whole env scope frames pos) :
    frames.all Waiting.isFrame = true := by
  induction h with
  | base => rfl
  | block _ _ ih => exact ih
  | loop _ _ _ ih => exact ih
  | switch _ _ ih => exact ih

theorem Around.all_isFrame {falls : Bool} (h : Around whole env scope falls frames pos) :
    frames.all Waiting.isFrame = true := by
  cases h with
  | live _ h => exact h.all_isFrame
  | dead _ _ h => exact h.all_isFrame

theorem Decides.all_isFrame {w w' : Waiting} (h : Decides whole env w frames w' post) :
    frames.all Waiting.isFrame = true := by
  cases h with
  | branch _ _ _ _ _ h => exact h.all_isFrame
  | loopTest _ _ _ _ h => exact h.all_isFrame
  | loopAgain _ _ _ h => exact h.all_isFrame
  | switchOn _ _ _ h => exact h.all_isFrame
  | caseTest _ _ _ _ _ h => exact h.all_isFrame

/-- A frame of structured code lets a returned or thrown value pass. -/
theorem free_pop {focus : Focus} {v : Value}
    (hfocus : focus = .complete (.returned v) ∨ focus = .thrown v) {w : Waiting}
    (hw : w.isFrame = true) :
    free p ⟨focus, w :: stack, depth, σ⟩ = .next ⟨focus, stack, depth, σ⟩ := by
  rcases hfocus with rfl | rfl <;> cases w <;> first | rfl | cases hw

theorem steps_pop (hok : Guard ok) {focus : Focus} {v : Value}
    (hfocus : focus = .complete (.returned v) ∨ focus = .thrown v) {dead : List Waiting}
    (hdead : dead.all Waiting.isFrame = true) :
    Steps (jump q id) ok ⟨focus, dead ++ stack, depth, σ⟩ ⟨focus, stack, depth, σ⟩ := by
  induction dead with
  | nil => exact .refl _
  | cons w dead ih =>
      simp only [List.all_cons, Bool.and_eq_true] at hdead
      refine .head ?_ ?_ (ih hdead.2)
      · rcases hfocus with rfl | rfl
        · exact hok.complete
        · exact hok.thrown
      · rw [jump_eq_free_of_focus (by rcases hfocus with rfl | rfl <;> simp)]
        exact free_pop hfocus hdead.1

/-- A returned or thrown value leaves an activation. -/
theorem Mirrors.leave (hok : Guard ok) {focus : Focus} {v : Value}
    (hfocus : focus = .complete (.returned v) ∨ focus = .thrown v)
    (hframes : frames.all Waiting.isFrame = true) {dead : List Waiting}
    (hdead : dead.all Waiting.isFrame = true) (hstacks : Stacks whole id true stack stack') :
    Mirrors q id whole ok (free p ⟨focus, frames ++ .call id :: stack, depth, σ⟩)
      ⟨focus, dead ++ .call id :: stack', depth, σ⟩ := by
  cases frames with
  | nil =>
      refine .steps (steps_pop hok hfocus hdead) ?_
      rcases hfocus with rfl | rfl
      · exact .next (.single hok.complete rfl) (.same true hstacks trivial)
      · exact .next (.single hok.thrown rfl) (.same true hstacks trivial)
  | cons w frames =>
      simp only [List.all_cons, Bool.and_eq_true] at hframes
      rw [List.cons_append, free_pop hfocus hframes.1]
      exact .next (.refl _) (.leave hfocus hframes.2 hdead hstacks)

/-! ## Work that both have alike -/

/-- A step of the jump machine that neither jumps nor calls. -/
theorem Lowered.jump_eq (hL : Lowered p q id whole) {focus : Focus}
    (hfocus : ∀ s env, focus ≠ .exec s env) {w : Waiting}
    (hcallee : callee? ⟨focus, w :: stack', depth, σ⟩ = none) :
    jump q id ⟨focus, w :: stack', depth, σ⟩ = (free p ⟨focus, [w], depth, σ⟩).onto stack' := by
  rw [jump_eq_free_of_focus hfocus, hL.twins.free_eq (by simp [hcallee]), free_onto]

/-- Operands of any kind get a value. -/
theorem Mirrors.value (hL : Lowered p q id whole) (hok : Guard ok) {below : Bool} {task : Task}
    {done : List Value} {rest : List Expr} (v : Value) (hbelow : task.completes = true → below = true)
    (hsuits : Waiting.Suits id (.operands task done rest env) stack')
    (hstacks : Stacks whole id below stack stack')
    (hs : ok ⟨.value v, .operands task done rest env :: stack, depth, σ⟩) :
    Mirrors q id whole ok (free p ⟨.value v, .operands task done rest env :: stack, depth, σ⟩)
      ⟨.value v, .operands task done rest env :: stack', depth, σ⟩ := by
  have hs' : ok ⟨.value v, .operands task done rest env :: stack', depth, σ⟩ := hok.below hs
  cases hcallee : callee? ⟨.value v, [.operands task done rest env], depth, σ⟩ with
  | some fn =>
      have hcall : task = .call ∧ rest = [] := by
        cases task <;> cases rest <;> first | exact ⟨rfl, rfl⟩ | cases hcallee
      obtain ⟨rfl, rfl⟩ := hcall
      obtain rfl := hbelow rfl
      rw [← callee?_onto stack] at hcallee
      exact .call hL hstacks hcallee hs'
  | none =>
      have hstep := hL.jump_eq (fun _ _ => Focus.noConfusion)
        ((callee?_onto stack' _ _ _ _).trans hcallee)
      rw [free_onto]
      cases hflow : task.isFlow with
      | false =>
          refine .mild (stepValue_moves _ task ?_ (fun h => h) v done rest ?_).mild hstacks hbelow hs'
            hstep
          · rw [hflow]
            exact Bool.noConfusion
          · intro fn hfn
            rw [hcallee] at hfn
            cases hfn
      | true =>
          have hactive : activeFn? stack' ≠ some id := by
            simpa [Waiting.Suits, Waiting.isMild, hflow] using hsuits
          exact .inactive (free_callFree rfl hcallee) hstacks hactive hs' hstep

/-- The end of a statement outside the activations of the function. -/
theorem Mirrors.complete (hL : Lowered p q id whole) (hok : Guard ok) {below : Bool} {w : Waiting}
    (c : Completion) (hw : wantsValue (w :: stack) = false)
    (hbelow : w.completes = true → below = true) (hsuits : w.Suits id stack')
    (hstacks : Stacks whole id below stack stack') :
    Mirrors q id whole ok (free p ⟨.complete c, w :: stack, depth, σ⟩)
      ⟨.complete c, w :: stack', depth, σ⟩ := by
  have hstep : jump q id ⟨.complete c, w :: stack', depth, σ⟩ = _ :=
    hL.jump_eq (fun _ _ => Focus.noConfusion) rfl
  rw [free_onto]
  cases w with
  | call fn =>
      have hmild : Mild true (free p ⟨.complete c, [.call fn], depth, σ⟩) := by
        cases c <;> first | exact .value _ _ _ | exact .halt _ _
      exact .mild hmild hstacks hbelow hok.complete hstep
  | operands => cases hw
  | _ =>
      have hactive : activeFn? stack' ≠ some id := by
        simpa [Waiting.Suits, Waiting.isMild] using hsuits
      exact .inactive (free_callFree rfl rfl) hstacks hactive hok.complete hstep

/-- A thrown value outside the activations of the function. -/
theorem Mirrors.thrown (hL : Lowered p q id whole) (hok : Guard ok) {below : Bool} {w : Waiting}
    (v : Value) (hsuits : w.Suits id stack') (hstacks : Stacks whole id below stack stack') :
    Mirrors q id whole ok (free p ⟨.thrown v, w :: stack, depth, σ⟩)
      ⟨.thrown v, w :: stack', depth, σ⟩ := by
  have hstep : jump q id ⟨.thrown v, w :: stack', depth, σ⟩ = _ :=
    hL.jump_eq (fun _ _ => Focus.noConfusion) rfl
  have hmild (hw : ∀ catches env, w ≠ .tryCatch catches env) :
      Mild false (free p ⟨.thrown v, [w], depth, σ⟩) := by
    cases w <;> first | exact .thrown _ _ _ | exact absurd rfl (hw _ _)
  rw [free_onto]
  cases w with
  | tryCatch catches env =>
      have hactive : activeFn? stack' ≠ some id := by
        simpa [Waiting.Suits, Waiting.isMild] using hsuits
      exact .inactive (free_callFree rfl rfl) hstacks hactive hok.thrown hstep
  | _ =>
      exact .mild (hmild fun _ _ => Waiting.noConfusion) hstacks Bool.noConfusion hok.thrown hstep

/-- The work at hand is the same. -/
theorem Mirrors.same (hL : Lowered p q id whole) (hok : Guard ok) {falls : Bool} {focus : Focus}
    (horderly : Orderly ⟨focus, stack, depth, σ⟩) (hstacks : Stacks whole id falls stack stack')
    (hsuits : focus.Suits id falls stack') (hs : ok ⟨focus, stack, depth, σ⟩) :
    Mirrors q id whole ok (free p ⟨focus, stack, depth, σ⟩) ⟨focus, stack', depth, σ⟩ := by
  obtain ⟨-, hwants⟩ := horderly
  cases focus with
  | eval e env =>
      have honto (stack : List Waiting) : free p ⟨.eval e env, stack, depth, σ⟩ =
          (stepEval ⟨p, depth + 1⟩ e env [] depth σ).onto stack :=
        free_onto_of_starts p stack rfl [] depth σ
      rw [honto]
      refine .mild (stepEval_moves _ e rfl).mild (hstacks.of_wantsValue hwants true) (fun h => h)
        (hok.eval hs) ?_
      rw [jump_eq_free_of_focus (by simp), hL.twins.free_eq (by simp [callee?]), honto]
  | exec s env =>
      have honto (stack : List Waiting) : free p ⟨.exec s env, stack, depth, σ⟩ =
          (free p ⟨.exec s env, [], depth, σ⟩).onto stack :=
        free_onto_of_starts p stack rfl [] depth σ
      have hactive : activeFn? stack' ≠ some id := hsuits
      rw [honto]
      refine .inactive (free_callFree rfl rfl) hstacks hactive hok.exec ?_
      rw [jump_eq_free_of_inactive hactive, hL.twins.free_eq (by simp [callee?]), honto]
  | value v =>
      cases hstacks with
      | nil => exact .halt (.of_halt hs rfl)
      | @same _ _ w _ _ hbelow hw hstacks =>
          cases w with
          | operands => exact .value hL hok v hbelow hw hstacks hs
          | _ => cases hwants
      | frames haround _ _ =>
          simp only [haround.wantsValue_eq] at hwants
          cases hwants
      | decides _ hdecides hstacks => exact .decides hL hok hdecides hstacks v
  | complete c =>
      cases hstacks with
      | nil => cases hwants
      | same _ hbelow hw hstacks => exact .complete hL hok c hwants hbelow hw hstacks
      | frames haround hpost hstacks =>
          cases c with
          | normal =>
              obtain rfl : falls = true := hsuits
              exact .normal hL hok haround.frames_of_falls hpost hstacks
          | returned v =>
              exact .leave hok (.inl rfl) haround.all_isFrame (isFrame_block _ _) hstacks
          | _ => exact absurd rfl hsuits
      | decides _ hdecides => cases hdecides <;> cases hwants
  | thrown v =>
      cases hstacks with
      | nil => exact .halt (.of_halt hok.thrown rfl)
      | same _ hbelow hw hstacks => exact .thrown hL hok v hw hstacks
      | frames haround hpost hstacks =>
          exact .leave hok (.inr rfl) haround.all_isFrame (isFrame_block _ _) hstacks
      | decides _ hdecides hstacks =>
          have hframes := hdecides.all_isFrame
          cases hdecides <;> exact .next (.single hok.thrown rfl)
            (.leave (.inr rfl) hframes (isFrame_block _ _) hstacks)

/-! ## Runs -/

/-- A step of a state is followed from every state that it corresponds to. -/
theorem Match.mirrors (hL : Lowered p q id whole) (hok : Guard ok) {s s' : State}
    (h : Match whole id s s') (horderly : Orderly s) (hs : ok s) :
    Mirrors q id whole ok (free p s) s' := by
  cases h with
  | same falls hstacks hsuits => exact .same hL hok horderly hstacks hsuits hs
  | exec hstmt hsuffix haround hpost hstacks => exact .exec hL hok hstmt hsuffix haround hpost hstacks
  | exit htarget hpost haround hstacks => exact .exit hL hok htarget hpost haround hstacks
  | leave hfocus hframes hdead hstacks => exact .leave hok hfocus hframes hdead hstacks

/-- The jump machine on the program with the jump code simulates the machine on
the program with the structured code. -/
theorem Lowered.simulates (hL : Lowered p q id whole) (hok : Guard ok) :
    Simulates (free p) ok (jump q id) ok (fun s s' => Orderly s ∧ Match whole id s s')
      (fun r σ r' σ' => r = r' ∧ σ = σ') where
  step := by
    rintro s s' t ⟨horderly, hmatch⟩ hs hstep
    have hmirrors := hmatch.mirrors hL hok horderly hs
    rw [hstep] at hmirrors
    cases hmirrors with
    | next hsteps hmatch => exact ⟨_, hsteps, horderly.free hstep, hmatch⟩
  halt := by
    rintro s s' r σ ⟨horderly, hmatch⟩ hs hstep
    have hmirrors := hmatch.mirrors hL hok horderly hs
    rw [hstep] at hmirrors
    cases hmirrors with
    | halt hends => exact ⟨r, σ, hends, rfl, rfl⟩

/-- Calls of the function start alike. -/
theorem Lowered.begins (hL : Lowered p q id whole) {f g : Func} (hf : p.func? id = some f)
    (hg : q.func? id = some g) (env : Env) (args : List Value) (σ : Store) :
    Match whole id (entered f id env args σ) (entered g id env args σ) := by
  obtain ⟨f', g', pos, hf', hg', hparams, hlocals, hbody, hleads, hstretch⟩ := hL.code
  cases hf.symm.trans hf'
  cases hg.symm.trans hg'
  simp only [entered, activation, hparams, hlocals, hbody]
  exact .same true (.frames (.live true (.block hstretch .base)) hleads (.nil true)) rfl

/-- A call of the function ends in jump code as it does in structured code. -/
theorem Lowered.ends (hL : Lowered p q id whole) (hok : Guard ok) {f g : Func}
    (hf : p.func? id = some f) (hg : q.func? id = some g) {args : List Value}
    {r : Except Failure Value} (hrun : Ends (free p) ok (entered f id env args σ) r σ') :
    Ends (jump q id) ok (entered g id env args σ) r σ' := by
  have horderly : Orderly (entered f id env args σ) := ⟨rfl, rfl⟩
  obtain ⟨r', σ'', hends, rfl, rfl⟩ :=
    (hL.simulates hok).ends hrun ⟨horderly, hL.begins hf hg env args σ⟩
  exact hends

end

end Resumable
