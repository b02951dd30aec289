import Resumable.Proofs.Structured.Code

/-!
# Which bodies can be lowered

Whether a statement can be lowered depends on what it is and on the loops and
switches around it. Main statement: a body can be lowered exactly if each of its
statements can, and otherwise the failure is that of the first one that cannot.
-/

namespace Resumable.JumpCode

/-! ## Statements and where they stand -/

/-- A loop or switch as the statements in it see it. -/
structure Construct where
  label : String
  isLoop : Bool
  deriving DecidableEq, Repr

structure Site where
  /-- The loops and switches around the statement, innermost first. -/
  around : List Construct
  /-- Whether the statement stands directly in the body of a switch. -/
  inSwitch : Bool
  stmt : Stmt

mutual

def sites (around : List Construct) (inSwitch : Bool) : Stmt → List Site
  | .ifElse c thenS elseS =>
      ⟨around, inSwitch, .ifElse c thenS elseS⟩ ::
        (sitesOf around false thenS ++ sitesOf around false elseS)
  | .whileLoop c body l =>
      ⟨around, inSwitch, .whileLoop c body l⟩ :: sitesOf (⟨l, true⟩ :: around) false body
  | .doWhile c body l =>
      ⟨around, inSwitch, .doWhile c body l⟩ :: sitesOf (⟨l, true⟩ :: around) false body
  | .forLoop init c post body l =>
      ⟨around, inSwitch, .forLoop init c post body l⟩ :: sitesOf (⟨l, true⟩ :: around) false body
  | .switch x body l =>
      ⟨around, inSwitch, .switch x body l⟩ :: sitesOf (⟨l, false⟩ :: around) true body
  | s => [⟨around, inSwitch, s⟩]

def sitesOf (around : List Construct) (inSwitch : Bool) : List Stmt → List Site
  | [] => []
  | s :: rest => sites around inSwitch s ++ sitesOf around inSwitch rest

end

def bodySites (body : List Stmt) : List Site :=
  sitesOf [] false body

def isDefaultMark : Stmt → Bool
  | .defaultMark => true
  | _ => false

namespace Site

def labelled? (site : Site) (label : String) : Option Construct :=
  site.around.find? fun c => c.label = label

/-- Whether a statement can be lowered where it stands, apart from the
statements in it. -/
def sound (site : Site) : Bool :=
  match site.stmt with
  | .simple .. | .ifElse .. | .whileLoop .. | .doWhile .. | .forLoop .. => true
  | .switch _ body _ => body.countP isDefaultMark ≤ 1
  | .caseMark _ | .defaultMark => site.inSwitch
  | .breakTo l => if l = "" then !site.around.isEmpty else (site.labelled? l).isSome
  | .continueTo l =>
      if l = "" then site.around.any Construct.isLoop
      else (site.labelled? l).any Construct.isLoop
  | .forIn .. | .tryCatch .. | .catchClause _ | .label _ | .goto _ | .condGoto .. | .dispatch ..
  | .missing => false

def fault (site : Site) : Failure :=
  match site.stmt with
  | .breakTo l =>
      if l = "" then .logicFlaw .lower "break outside of a loop or switch"
      else .unresolvedLabel .lower l
  | .continueTo l =>
      if l = "" then .logicFlaw .lower "continue outside of a loop"
      else if (site.labelled? l).isSome then
        .logicFlaw .lower ("continue targets switch " ++ Text.quote l)
      else .unresolvedLabel .lower l
  | .switch .. => .logicFlaw .lower "switch with more than one default"
  | .forIn .. => .unsupported .lower "for-in statement"
  | .tryCatch .. => .unsupported .lower "try statement"
  | .catchClause _ => .unsupported .lower "catch clause"
  | .caseMark _ | .defaultMark => .logicFlaw .lower (site.stmt.nodeName ++ " outside of a switch body")
  | .missing => .logicFlaw .lower "unexpected statement <nil>"
  | _ => .logicFlaw .lower ("statement " ++ site.stmt.nodeName ++ " is already lowered")

def fault? (site : Site) : Option Failure :=
  if site.sound then none else some site.fault

theorem fault?_of_sound {site : Site} (h : site.sound = true) : site.fault? = none := by
  rw [fault?, if_pos h]

theorem fault?_of_not_sound {site : Site} (h : site.sound = false) :
    site.fault? = some site.fault := by
  rw [fault?, h, if_neg Bool.false_ne_true]

end Site

def firstFault? (row : List Site) : Option Failure :=
  row.findSome? Site.fault?

theorem firstFault?_cons (site : Site) (row : List Site) :
    firstFault? (site :: row) = site.fault?.or (firstFault? row) := by
  rw [firstFault?, List.findSome?_cons]
  cases site.fault? <;> rfl

theorem firstFault?_append (row more : List Site) :
    firstFault? (row ++ more) = (firstFault? row).or (firstFault? more) :=
  List.findSome?_append

theorem firstFault?_singleton (site : Site) : firstFault? [site] = site.fault? := by
  rw [firstFault?_cons]
  exact Option.or_none

theorem firstFault?_eq_map_find? (row : List Site) :
    firstFault? row = (row.find? fun site => !site.sound).map Site.fault := by
  induction row with
  | nil => rfl
  | cons site row ih =>
      rw [firstFault?_cons, ih, List.find?_cons]
      cases h : site.sound with
      | true => rw [Site.fault?_of_sound h]; rfl
      | false => rw [Site.fault?_of_not_sound h]; rfl

/-! ## What work ends with -/

/-- The work ends with the failure, or succeeds if there is none, whatever names
are in use. -/
def Verdict {α : Type} (m : Lower α) (failure : Option Failure) : Prop :=
  ∀ n, match m n with
    | .ok .. => failure = none
    | .error e _ => failure = some e

namespace Verdict

variable {α β : Type}

theorem pure (a : α) : Verdict (pure a) none :=
  fun _ => rfl

theorem throw (e : Failure) : Verdict (throw e : Lower α) (some e) :=
  fun _ => rfl

theorem draw (kind : LabelKind) : Verdict (draw kind) none :=
  fun _ => rfl

theorem lift_ok {r : Except Failure α} {a : α} (h : r = .ok a) : Verdict (lift r) none := by
  subst h
  exact pure a

theorem lift_error {r : Except Failure α} {e : Failure} (h : r = .error e) :
    Verdict (lift r) (some e) := by
  subst h
  exact throw e

theorem lift_map {r : Except Failure α} {f : α → β} {failure : Option Failure}
    (h : Verdict (lift r) failure) : Verdict (lift (r >>= fun a => .ok (f a))) failure := by
  cases r <;> exact h

/-- The first of two pieces of work decides if it fails. -/
theorem bind {m : Lower α} {f : α → Lower β} {first second : Option Failure} (h : Verdict m first)
    (hf : ∀ a, Verdict (f a) second) : Verdict (m >>= f) (first.or second) := by
  intro n
  have hn := h n
  change match EStateM.bind m f n with
    | .ok .. => first.or second = none
    | .error e _ => first.or second = some e
  unfold EStateM.bind
  cases hm : m n with
  | ok a n₁ =>
      rw [hm] at hn
      obtain rfl : first = none := hn
      exact hf a n₁
  | error e n₁ =>
      rw [hm] at hn
      obtain rfl : first = some e := hn
      rfl

theorem andThen {m : Lower α} {f : α → β} {failure : Option Failure} (h : Verdict m failure) :
    Verdict (m >>= fun a => Pure.pure (f a)) failure := by
  simpa only [Option.or_none] using h.bind fun a => pure (f a)

theorem afterDraw {kind : LabelKind} {f : Nat → Lower β} {failure : Option Failure}
    (h : ∀ k, Verdict (f k) failure) : Verdict (JumpCode.draw kind >>= f) failure :=
  (draw kind).bind h

/-- Work succeeds exactly if its verdict is no failure. -/
theorem ok_iff {m : Lower α} {failure : Option Failure} (h : Verdict m failure) (n : Names) :
    (∃ a n', m n = .ok a n') ↔ failure = none := by
  have hn := h n
  constructor
  · rintro ⟨a, n', hm⟩
    rwa [hm] at hn
  · rintro rfl
    cases hm : m n with
    | ok a n' => exact ⟨a, n', rfl⟩
    | error e n' =>
        rw [hm] at hn
        cases hn

theorem error {m : Lower α} {e : Failure} (h : Verdict m (some e)) (n : Names) :
    ∃ n', m n = .error e n' := by
  have hn := h n
  cases hm : m n with
  | ok a n' =>
      rw [hm] at hn
      cases hn
  | error e' n' =>
      rw [hm] at hn
      cases hn
      exact ⟨n', rfl⟩

end Verdict

/-! ## Jumps out of constructs -/

namespace Scope

def constructs (scope : Scope) : List Construct :=
  scope.map fun e => ⟨e.label, e.continueTo.isSome⟩

variable {scope : Scope} {inSwitch : Bool}

theorem labelled?_constructs (l : String) (s : Stmt) :
    (⟨scope.constructs, inSwitch, s⟩ : Site).labelled? l =
      (scope.find? l).map fun e => ⟨e.label, e.continueTo.isSome⟩ :=
  List.find?_map ..

theorem breakTarget_verdict (l : String) :
    Verdict (lift (scope.breakTarget l)) (Site.fault? ⟨scope.constructs, inSwitch, .breakTo l⟩) := by
  by_cases hl : l = ""
  · cases scope with
    | nil =>
        rw [Site.fault?_of_not_sound (by simp [Site.sound, hl, constructs])]
        exact .lift_error (by simp [breakTarget, Site.fault, hl])
    | cons e scope =>
        rw [Site.fault?_of_sound (by simp [Site.sound, hl, constructs])]
        exact .lift_ok (a := e.breakTo) (by simp [breakTarget, hl])
  · cases hfind : scope.find? l with
    | none =>
        rw [Site.fault?_of_not_sound (by simp [Site.sound, hl, labelled?_constructs, hfind])]
        exact .lift_error (by simp [breakTarget, Site.fault, hl, hfind])
    | some e =>
        rw [Site.fault?_of_sound (by simp [Site.sound, hl, labelled?_constructs, hfind])]
        exact .lift_ok (a := e.breakTo) (by simp [breakTarget, hl, hfind])

theorem any_isLoop_constructs :
    scope.constructs.any Construct.isLoop = (scope.findSome? Enclosing.continueTo).isSome := by
  induction scope with
  | nil => rfl
  | cons e scope ih =>
      change (e.continueTo.isSome || (constructs scope).any Construct.isLoop) = _
      rw [List.findSome?_cons, ih]
      cases e.continueTo <;> rfl

theorem continueTarget_verdict (l : String) :
    Verdict (lift (scope.continueTarget l))
      (Site.fault? ⟨scope.constructs, inSwitch, .continueTo l⟩) := by
  by_cases hl : l = ""
  · cases hfind : scope.findSome? Enclosing.continueTo with
    | none =>
        rw [Site.fault?_of_not_sound (by simp [Site.sound, hl, any_isLoop_constructs, hfind])]
        exact .lift_error (by simp [continueTarget, Site.fault, hl, hfind])
    | some target =>
        rw [Site.fault?_of_sound (by simp [Site.sound, hl, any_isLoop_constructs, hfind])]
        exact .lift_ok (a := target) (by simp [continueTarget, hl, hfind])
  · cases hfind : scope.find? l with
    | none =>
        rw [Site.fault?_of_not_sound (by simp [Site.sound, hl, labelled?_constructs, hfind])]
        exact .lift_error (by simp [continueTarget, Site.fault, hl, labelled?_constructs, hfind])
    | some e =>
        cases hloop : e.continueTo with
        | none =>
            rw [Site.fault?_of_not_sound
              (by simp [Site.sound, hl, labelled?_constructs, hfind, hloop])]
            exact .lift_error
              (by simp [continueTarget, Site.fault, hl, labelled?_constructs, hfind, hloop])
        | some target =>
            rw [Site.fault?_of_sound
              (by simp [Site.sound, hl, labelled?_constructs, hfind, hloop])]
            exact .lift_ok (a := target) (by simp [continueTarget, hl, hfind, hloop])

end Scope

/-! ## The marks of a switch -/

/-- The arms of a switch can be made if it has at most one default, one that was
seen before included. -/
theorem arms_verdict (id ordinal : Nat) (seen : Bool) (body : List Stmt) :
    Verdict (lift (arms id ordinal seen body))
      (if body.countP isDefaultMark + seen.toNat ≤ 1 then none
        else some (.logicFlaw .lower "switch with more than one default")) := by
  induction body generalizing ordinal seen with
  | nil =>
      rw [if_pos (by cases seen <;> decide)]
      exact .lift_ok (a := []) rfl
  | cons s rest ih =>
      cases hs : s.isCaseMark with
      | false =>
          have hdefault : ¬ isDefaultMark s = true := by
            cases s <;> first | exact Bool.false_ne_true | cases hs
          rw [arms_cons hs, List.countP_cons_of_neg hdefault]
          exact ih ordinal seen
      | true =>
          cases s
          case caseMark x =>
              rw [List.countP_cons_of_neg Bool.false_ne_true]
              exact (ih (ordinal + 1) seen).lift_map
          case defaultMark =>
              rw [List.countP_cons_of_pos rfl]
              cases seen with
              | true =>
                  rw [if_neg (by simp)]
                  exact .lift_error rfl
              | false => exact (ih ordinal true).lift_map
          all_goals cases hs

theorem switch_verdict (id : Nat) (around : List Construct) (inSwitch : Bool) (x : Expr)
    (body : List Stmt) (l : String) :
    Verdict (lift (arms id 0 false body)) (Site.fault? ⟨around, inSwitch, .switch x body l⟩) := by
  have harms := arms_verdict id 0 false body
  split at harms
  · next hle =>
      rw [Site.fault?_of_sound (by simpa [Site.sound] using hle)]
      exact harms
  · next hle =>
      rw [Site.fault?_of_not_sound (by simpa [Site.sound] using hle)]
      exact harms

/-! ## Statements -/

mutual

theorem lowerStmt_verdict (scope : Scope) (falls inSwitch : Bool) : (s : Stmt) →
    (s.isCaseMark = true → inSwitch = false) →
    Verdict (lowerStmt scope falls s) (firstFault? (sites scope.constructs inSwitch s))
  | .simple (.yield _) _, _ => .afterDraw fun _ => .pure _
  | .simple (.expr _) _, _ | .simple (.ret _) _, _ | .simple (.delete _) _, _
  | .simple (.throw _) _, _ | .simple (.assert ..) _, _ | .simple (.log _) _, _
  | .simple .debugger _, _ | .simple (.super ..) _, _ => .pure _
  | .breakTo l, _ => by
      change Verdict _ (firstFault? [_])
      rw [firstFault?_singleton]
      exact (Scope.breakTarget_verdict l).andThen
  | .continueTo l, _ => by
      change Verdict _ (firstFault? [_])
      rw [firstFault?_singleton]
      exact (Scope.continueTarget_verdict l).andThen
  | .ifElse c thenS elseS, _ => by
      rw [sites, firstFault?_cons, Site.fault?_of_sound rfl, firstFault?_append]
      exact .afterDraw fun _ =>
        (lowerList_verdict scope true thenS).bind fun _ => (lowerList_verdict scope true elseS).andThen
  | .whileLoop c body l, _ | .doWhile c body l, _ | .forLoop init c post body l, _ => by
      rw [sites, firstFault?_cons, Site.fault?_of_sound rfl]
      exact .afterDraw fun _ => (lowerList_verdict (⟨l, _, some _⟩ :: scope) true body).andThen
  | .switch x body l, _ => by
      rw [sites, firstFault?_cons]
      exact .afterDraw fun id => (switch_verdict id _ inSwitch x body l).bind fun _ =>
        (lowerCases_verdict (⟨l, _, none⟩ :: scope) id 0 false body).andThen
  | .forIn .., _ | .tryCatch .., _ | .catchClause _, _ | .label _, _ | .goto _, _
  | .condGoto .., _ | .dispatch .., _ | .missing, _ => .throw _
  | .caseMark _, hmark | .defaultMark, hmark => by
      obtain rfl := hmark rfl
      exact .throw _

theorem lowerList_verdict (scope : Scope) (falls : Bool) : (body : List Stmt) →
    Verdict (lowerList scope falls body) (firstFault? (sitesOf scope.constructs false body))
  | [] => .pure _
  | s :: rest => by
      rw [sitesOf, firstFault?_append]
      exact (lowerStmt_verdict scope falls false s fun _ => rfl).bind fun first =>
        (lowerList_verdict scope first.falls rest).andThen

theorem lowerCases_verdict (scope : Scope) (id ordinal : Nat) (falls : Bool) :
    (body : List Stmt) → Verdict (lowerCases scope id ordinal falls body)
      (firstFault? (sitesOf scope.constructs true body))
  | [] => .pure _
  | s :: rest => by
      rw [sitesOf, firstFault?_append]
      cases hs : s.isCaseMark with
      | false =>
          rw [lowerCases_cons hs]
          refine (lowerStmt_verdict scope falls true s fun h => ?_).bind fun first =>
            (lowerCases_verdict scope id ordinal first.falls rest).andThen
          rw [hs] at h
          cases h
      | true =>
          cases s
          case caseMark x => exact (lowerCases_verdict scope id (ordinal + 1) true rest).andThen
          case defaultMark => exact (lowerCases_verdict scope id ordinal true rest).andThen
          all_goals cases hs

end

theorem ofBody_verdict (body : List Stmt) :
    Verdict (ofBody body) (((bodySites body).find? fun site => !site.sound).map Site.fault) := by
  rw [← firstFault?_eq_map_find?]
  exact (lowerList_verdict [] true body).andThen

/-- A body can be lowered exactly if each of its statements can be lowered where
it stands. If the first one that cannot is a jump to a label that no loop or
switch around it has, the failure says so. -/
theorem ofBody_accepts (body : List Stmt) (names : Names) :
    ((∃ code names', ofBody body names = .ok code names') ↔
      ∀ site ∈ bodySites body, site.sound = true) ∧
    ∀ site l, (bodySites body).find? (fun site => !site.sound) = some site →
      (site.stmt = .breakTo l ∨ site.stmt = .continueTo l) → l ≠ "" →
      (∀ c ∈ site.around, c.label ≠ l) →
      ∃ names', ofBody body names = .error (.unresolvedLabel .lower l) names' := by
  have hverdict := ofBody_verdict body
  refine ⟨?_, fun site l hfirst hjump hl hnone => ?_⟩
  · rw [hverdict.ok_iff names, Option.map_eq_none_iff, List.find?_eq_none]
    simp
  · rw [hfirst, Option.map_some] at hverdict
    have hfind : site.labelled? l = none := by
      rw [Site.labelled?, List.find?_eq_none]
      simpa using hnone
    have hfault : site.fault = .unresolvedLabel .lower l := by
      rcases hjump with hjump | hjump
      · rw [Site.fault, hjump]
        exact if_neg hl
      · rw [Site.fault, hjump]
        simp [hl, hfind]
    exact hfault ▸ hverdict.error names

/-- A switch in a loop: its first case goes on with the loop, its default leaves
a construct that is not there. A statement that cannot be lowered follows. -/
def strayExit : List Stmt :=
  [.whileLoop (.bool true)
    [.switch (.int 1)
      [.caseMark (.int 1), .continueTo "a", .defaultMark, .breakTo "c"] "b"] "a",
    .tryCatch [] []]

theorem ofBody_accepts_strayExit :
    (bodySites strayExit).find? (fun site => !site.sound) =
        some ⟨[⟨"b", false⟩, ⟨"a", true⟩], true, .breakTo "c"⟩ ∧
      ∃ names', ofBody strayExit {} = .error (.unresolvedLabel .lower "c") names' := by
  have hfirst : (bodySites strayExit).find? (fun site => !site.sound) =
      some ⟨[⟨"b", false⟩, ⟨"a", true⟩], true, .breakTo "c"⟩ := rfl
  exact ⟨hfirst, (ofBody_accepts strayExit {}).2 _ "c" hfirst (.inl rfl) (by decide) (by decide)⟩

end Resumable.JumpCode
