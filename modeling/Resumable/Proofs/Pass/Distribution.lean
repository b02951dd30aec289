import Resumable.Proofs.Difference
import Resumable.Proofs.Jump.Partition
import Resumable.Proofs.Jump.Settings
import Resumable.Proofs.Pass.Stages
import Resumable.Proofs.Structured.Conservation

/-!
# Where the work of a body goes

Conditions, the subjects and values of switches, and simple statements, those
that the clauses of a loop become included, are the work of a body. Lowering
takes each piece of it into the jump code exactly once. Removing the jumps then
distributes it: a piece stands in one fragment, in the entry or among the
statements that can never run, and what is new are the calls that stand for
jumps and the settings of the variables they go through.
-/

namespace Resumable

inductive Work where
  | simple (s : Simple)
  | test (c : Expr)
  | subject (x : Expr)
  | value (x : Expr)

def Work.exprs : Work → List Expr
  | .simple s => filled s.slots
  | .test x | .subject x | .value x => filled [x]

def Work.on (piece : Expr → Work) (x : Expr) : List Work :=
  if x.isMissing then [] else [piece x]

def Stmt.work : Stmt → List Work
  | .simple s _ => [.simple s]
  | .ifElse c _ _ | .whileLoop c _ _ | .doWhile c _ _ | .condGoto c _ _ => [.test c]
  | .forLoop init c post _ _ =>
      Work.on (fun x => .simple (.expr x)) init ++
        (Work.on .test c ++ Work.on (fun x => .simple (.expr x)) post)
  | .forIn _ x _ _ | .switch x _ _ => [.subject x]
  | .dispatch x arms => .subject x :: arms.flatMap fun arm => Work.on .value arm.value
  | .caseMark x => Work.on .value x
  | _ => []

def workOf (body : List Stmt) : List Work :=
  (allStmts body).flatMap Stmt.work

theorem Work.flatMap_exprs_on {piece : Expr → Work} (h : ∀ x, (piece x).exprs = filled [x])
    (x : Expr) : (Work.on piece x).flatMap Work.exprs = filled [x] := by
  unfold Work.on
  split
  · next hx => simp [filled, hx]
  · simp [h]

/-- The work of a statement tells its expressions. -/
theorem Stmt.exprs_eq_work (s : Stmt) : s.exprs = s.work.flatMap Work.exprs := by
  have hclause (x : Expr) : (Work.on (fun x => .simple (.expr x)) x).flatMap Work.exprs =
      filled [x] := Work.flatMap_exprs_on (fun _ => rfl) x
  have htest (x : Expr) : (Work.on .test x).flatMap Work.exprs = filled [x] :=
    Work.flatMap_exprs_on (fun _ => rfl) x
  have hvalue (x : Expr) : (Work.on .value x).flatMap Work.exprs = filled [x] :=
    Work.flatMap_exprs_on (fun _ => rfl) x
  cases s with
  | forLoop init c post body l =>
      simp only [work, List.flatMap_append, hclause, htest]
      rw [← filled_cons c [post], ← filled_cons]
      rfl
  | dispatch x arms =>
      have harms : filled (arms.map (·.value)) =
          (arms.flatMap fun arm => Work.on .value arm.value).flatMap Work.exprs := by
        induction arms with
        | nil => rfl
        | cons arm arms ih =>
            rw [List.map_cons, filled_cons, ih, List.flatMap_cons, List.flatMap_append, hvalue]
      rw [work, List.flatMap_cons, ← harms]
      exact filled_cons x _
  | caseMark x => exact (hvalue x).symm
  | simple | ifElse | whileLoop | doWhile | condGoto | forIn | switch =>
      simp [work, Work.exprs, exprs, slots, filled]
  | _ => rfl

theorem allExprs_eq_work (body : List Stmt) : allExprs body = (workOf body).flatMap Work.exprs := by
  rw [allExprs, workOf, List.flatMap_assoc]
  exact congrArg (List.flatMap · (allStmts body)) (funext Stmt.exprs_eq_work)

@[simp] theorem workOf_append (xs ys : List Stmt) : workOf (xs ++ ys) = workOf xs ++ workOf ys := by
  simp [workOf]

@[simp] theorem workOf_nil : workOf [] = [] := rfl

theorem workOf_of_flat {code : List Stmt} (h : ∀ s ∈ code, s.isStructured = false) :
    workOf code = code.flatMap Stmt.work := by
  rw [workOf, allStmts_of_flat h]

/-- The same work is the same expressions. -/
theorem allExprs_perm {xs ys : List Stmt} (h : (workOf xs).Perm (workOf ys)) :
    (allExprs xs).Perm (allExprs ys) := by
  rw [allExprs_eq_work, allExprs_eq_work]
  exact h.flatMap_right _

/-! ## Lowering -/

theorem carried_work : Carried Stmt.work := by
  constructor
  case dispatch =>
      intro x body k arms
      rfl
  all_goals
    intros
    rfl

/-- Lowering takes the work of a body into its jump code. -/
theorem JumpCode.ofBody_work {body code : List Stmt} {n n' : Names}
    (h : ofBody body n = .ok code n') : (workOf code).Perm (workOf body) := by
  have hcode : BodyCode False body code := bodyCode_of_ofBody (by simp) h
  exact hcode.items_perm carried_work

/-! ## Statements that can never run -/

section

variable {s : Stmt} {code code' : List Stmt} {ended : Bool}

theorem live_subset : live ended code ⊆ code := by
  induction code using Stmt.code_induction generalizing ended with
  | nil => exact List.Subset.refl _
  | label l rest ih => exact List.subset_cons_of_subset _ ih
  | other s rest hs ih =>
      rw [live_cons hs]
      split
      · exact List.subset_cons_of_subset _ ih
      · exact List.cons_subset_cons s ih

theorem dead_subset : dead ended code ⊆ code := by
  induction code using Stmt.code_induction generalizing ended with
  | nil => exact List.Subset.refl _
  | label l rest ih => exact List.subset_cons_of_subset _ ih
  | other s rest hs ih =>
      rw [dead_cons hs]
      split
      · exact List.cons_subset_cons s ih
      · exact List.subset_cons_of_subset _ ih

/-- Work is either among what can run or among what cannot. -/
theorem work_live_dead : ((live ended code).flatMap Stmt.work ++
    (dead ended code).flatMap Stmt.work).Perm (code.flatMap Stmt.work) := by
  induction code using Stmt.code_induction generalizing ended with
  | nil => exact .refl _
  | label l rest ih => exact ih
  | other s rest hs ih =>
      rw [live_cons hs, dead_cons hs, List.flatMap_cons]
      cases ended with
      | false =>
          rw [if_neg (by simp), if_neg (by simp), List.flatMap_cons, List.append_assoc]
          exact ih.append_left s.work
      | true =>
          rw [if_pos rfl, if_pos rfl, List.flatMap_cons, ← List.append_assoc]
          refine (List.perm_append_comm.append_right _).trans ?_
          rw [List.append_assoc]
          exact ih.append_left s.work

theorem Stmt.work_of_same {s s' : Stmt} (h : s.unshare = s'.unshare) : s'.work = s.work := by
  obtain rfl | ⟨x, n, n', rfl, rfl⟩ := same_cases h <;> rfl

theorem SameStmts.flatMap_eq {α : Type} {f : Stmt → List α}
    (hf : ∀ {s s' : Stmt}, s.unshare = s'.unshare → f s' = f s) (h : SameStmts code code') :
    code'.flatMap f = code.flatMap f := by
  induction h with
  | nil => rfl
  | cons hs _ ih => rw [List.flatMap_cons, List.flatMap_cons, hf hs, ih]

/-- Numbers play no part in what can run. -/
theorem SameStmts.live_dead (h : SameStmts code code') :
    SameStmts (live ended code) (live ended code') ∧
      SameStmts (dead ended code) (dead ended code') := by
  induction h using SameStmts.code_induction generalizing ended with
  | nil => exact ⟨.nil, .nil⟩
  | label l _ ih => exact ih
  | other hs _ hlabel hlabel' ih =>
      rw [live_cons hlabel, live_cons hlabel', dead_cons hlabel, dead_cons hlabel',
        Stmt.isTerminator_of_same hs]
      cases ended with
      | false => exact ⟨.cons hs ih.1, ih.2⟩
      | true => exact ⟨ih.1, .cons hs ih.2⟩

end

/-! ## Removing jumps -/

namespace Elimination

def tailCalls (vars : LabelVars) (stmts : List Stmt) : List Stmt :=
  (stmts.flatMap Stmt.targets).map (tailCall vars)

section

variable {vars : LabelVars}

theorem workOf_tailCall (l : String) : workOf [tailCall vars l] = (tailCall vars l).work := by
  unfold tailCall
  split <;> rfl

theorem workOf_tailCalls (stmts : List Stmt) : workOf (tailCalls vars stmts) =
    (stmts.flatMap Stmt.targets).flatMap fun l => (tailCall vars l).work := by
  rw [tailCalls]
  generalize stmts.flatMap Stmt.targets = labels
  induction labels with
  | nil => rfl
  | cons l labels ih =>
      rw [List.map_cons, ← List.singleton_append, workOf_append, workOf_tailCall, ih,
        List.flatMap_cons]

theorem workOf_arms (arms : List Arm) : (workOf (arms.flatMap (convertArm vars))).Perm
    ((arms.map (·.target)).flatMap (fun l => (tailCall vars l).work) ++
      arms.flatMap fun arm => Work.on .value arm.value) := by
  induction arms with
  | nil => exact .refl _
  | cons arm arms ih =>
      have harm : workOf (convertArm vars arm) =
          Work.on .value arm.value ++ (tailCall vars arm.target).work := by
        rw [convertArm, ← List.singleton_append, workOf_append, workOf_tailCall]
        unfold Work.on
        split
        · rfl
        · next hvalue =>
          simp [workOf, allStmts, preorderList, Stmt.preorder, Stmt.work, Work.on, hvalue]
      rw [List.flatMap_cons, workOf_append, harm, List.map_cons, List.flatMap_cons,
        List.flatMap_cons]
      refine (List.perm_append_comm.append ih).trans ?_
      rw [List.append_assoc, List.append_assoc]
      refine List.Perm.append_left _ ?_
      rw [← List.append_assoc, ← List.append_assoc]
      exact List.perm_append_comm.append_right _

/-- A statement without its jumps does its work and makes a call for each jump. -/
theorem work_convertStmt {s : Stmt} (hs : s.isStructured = false) :
    (workOf [convertStmt vars s]).Perm
      (s.targets.flatMap (fun l => (tailCall vars l).work) ++ s.work) := by
  cases s with
  | goto l =>
      rw [convertStmt, workOf_tailCall]
      simp [Stmt.targets, Stmt.work]
  | condGoto c t e =>
      have hwork : workOf [convertStmt vars (.condGoto c t e)] =
          .test c :: (workOf [tailCall vars t] ++ workOf [tailCall vars e]) := by
        simp [workOf, allStmts, preorderList, Stmt.preorder, convertStmt, Stmt.work]
      have htargets : (Stmt.condGoto c t e).targets.flatMap (fun l => (tailCall vars l).work) =
          (tailCall vars t).work ++ (tailCall vars e).work := by
        simp [Stmt.targets]
      rw [hwork, workOf_tailCall, workOf_tailCall, htargets]
      exact (List.perm_append_singleton ..).symm
  | dispatch x arms =>
      have hwork : workOf [convertStmt vars (.dispatch x arms)] =
          .subject x :: workOf (arms.flatMap (convertArm vars)) := by
        simp [workOf, allStmts, preorderList, Stmt.preorder, convertStmt, Stmt.work]
      rw [hwork]
      exact ((workOf_arms arms).cons _).trans List.perm_middle.symm
  | simple | label | missing => exact .refl _
  | _ => cases hs

theorem work_converted {stmts : List Stmt} (h : ∀ s ∈ stmts, s.isStructured = false) :
    (workOf (stmts.map (convertStmt vars))).Perm
      (workOf (tailCalls vars stmts) ++ stmts.flatMap Stmt.work) := by
  rw [workOf_tailCalls]
  induction stmts with
  | nil => exact .refl _
  | cons s rest ih =>
      obtain ⟨hs, hrest⟩ := List.forall_mem_cons.1 h
      rw [List.map_cons, ← List.singleton_append, workOf_append, List.flatMap_cons,
        List.flatMap_append, List.flatMap_cons]
      refine ((work_convertStmt hs).append (ih hrest)).trans ?_
      rw [List.append_assoc, List.append_assoc]
      refine List.Perm.append_left _ ?_
      rw [← List.append_assoc, ← List.append_assoc]
      exact List.perm_append_comm.append_right _

end

def made (p p' : Program) : List Stmt :=
  (List.range' (p.size + 1) (p'.size - p.size)).flatMap p'.bodyOf

/-- A statement that sets a new variable to a new function. -/
def IsSetting (p : Program) (s : Stmt) : Prop :=
  ∃ v fn t, s = .expr (.assign (.ref v) (.lambda fn t)) ∧ p.varCount ≤ v.id ∧ p.size < fn

/-- What removing the jumps from the code of a function does with its work. -/
structure Distributes (id : FuncId) (code : List Stmt) (p p' : Program) (r : Result) : Prop where
  /-- One fragment for each label. -/
  fragments : r.labelVars.map Prod.fst = Graph.labelsOf code ∧
    r.fragments = (Graph.labelsOf code).length ∧ p'.size = p.size + r.fragments
  /-- The function sets the variables of the labels and goes on with the entry. -/
  body : ∃ settings, p'.bodyOf id = settings ++ r.entry ∧ settings.length = r.fragments ∧
    ∀ s ∈ settings, IsSetting p s
  /-- A jump is a call through the new variable of its label. -/
  jumps : ∀ l ∈ (live false code).flatMap Stmt.targets, ∃ v,
    tailCall r.labelVars l = .ret (.mkCall (.ref v) []) ∧ p.varCount ≤ v.id
  work : (workOf (made p p' ++ r.entry) ++ workOf (dead false code)).Perm
    (workOf (tailCalls r.labelVars (live false code)) ++ workOf code)
  exprs : (allExprs (made p p' ++ r.entry) ++ allExprs (dead false code)).Perm
    (allExprs (tailCalls r.labelVars (live false code)) ++ allExprs code)
  dropped : r.dropped = (dead false code).length

theorem Fragments.flatMap_bodyOf {p : Program} {vars : LabelVars} {blocks : List Block}
    {settings : List Stmt} {table : List (String × FuncId)}
    (h : Fragments p (fun b body => body = b.stmts.map (convertStmt vars)) vars blocks settings table) :
    (table.map Prod.snd).flatMap p.bodyOf =
      (blocks.flatMap Block.stmts).map (convertStmt vars) := by
  induction h with
  | nil => rfl
  | @cons b v fn t body blocks settings table _ hfn hbody _ ih =>
      have hown : p.bodyOf fn = body := by
        rw [Program.bodyOf_eq_code?, hfn]
        rfl
      rw [List.map_cons, List.flatMap_cons, ih, hown, hbody, List.flatMap_cons, List.map_append]

theorem Fragments.isSetting {p q : Program} {Body : Block → List Stmt → Prop} {vars : LabelVars}
    {blocks : List Block} {settings : List Stmt} {table : List (String × FuncId)}
    (h : Fragments p Body vars blocks settings table) (hnew : ∀ entry ∈ table, q.size < entry.2)
    (hvars : ∀ {l : String} {v : Variable}, vars.lookup l = some v → q.varCount ≤ v.id) :
    settings.length = blocks.length ∧ ∀ s ∈ settings, IsSetting q s := by
  induction h with
  | nil => exact ⟨rfl, by simp⟩
  | cons hv _ _ _ ih =>
      obtain ⟨hfirst, hrest⟩ := List.forall_mem_cons.1 hnew
      obtain ⟨hlength, hsettings⟩ := ih hrest
      refine ⟨congrArg (· + 1) hlength, List.forall_mem_cons.2 ⟨?_, hsettings⟩⟩
      exact ⟨_, _, _, rfl, hvars hv, hfirst⟩

/-- The fragments and the entry do the work of the blocks and make the calls that
stand for their jumps. -/
theorem Removes.work_perm {id : FuncId} {p p' : Program} {g : Graph} {vars : LabelVars}
    {settings : List Stmt} {table : List (String × FuncId)}
    (h : Removes (fun vars b body => body = b.stmts.map (convertStmt vars)) id p p' g vars settings
      table) (hflat : ∀ s ∈ g.blocks.flatMap Block.stmts, s.isStructured = false) :
    (workOf (made p p' ++ g.entry.stmts.map (convertStmt vars))).Perm
      (workOf (tailCalls vars (g.blocks.flatMap Block.stmts)) ++
        (g.blocks.flatMap Block.stmts).flatMap Stmt.work) := by
  have hmade : made p p' = (g.labelled.flatMap Block.stmts).map (convertStmt vars) := by
    have hcount : p'.size - p.size = g.labelled.length := by
      have hsize := h.size
      omega
    rw [made, hcount, ← h.numbers, h.fragments.flatMap_bodyOf]
  rw [hmade, workOf_append]
  refine List.perm_append_comm.trans ?_
  rw [← workOf_append, ← List.map_append]
  exact work_converted hflat

section

variable {id : FuncId} {result : Ty} {w w' : Workspace} {r : Result} {c : Code}

/-- Removing the jumps of code whose jumps go to its labels distributes its work. -/
theorem distributes_of_eliminate (h : eliminate noHook id result (w, ()) = .ok r (w', ()))
    (hc : w.program.code? id = some c)
    (hjumps : ∀ s ∈ c.body, ∀ l ∈ s.targets, l ∈ Graph.labelsOf c.body) :
    Distributes id c.body w.program w'.program r := by
  obtain ⟨g, settings, table, hg, hhooked, hentry⟩ := eliminate_spec h hc
  have hremoves : Removes (fun vars b body => body = b.stmts.map (convertStmt vars)) id w.program
      w'.program g r.labelVars settings table := by
    refine hhooked.imp fun b body hbody => ?_
    obtain ⟨_, _, _, -, hrun⟩ := hbody
    exact (pure_eq_ok.1 hrun).1.symm
  have hreport := (eliminate_report h hc hg).2
  have hsize := eliminate_size h
  have hdescribes := Graph.describes_of_build hg
  have hsame := Stmt.same_share c.body (w.program.shareCount + ·)
  generalize (c.body.mapIdx fun i s => s.share (w.program.shareCount + i)) = code' at *
  obtain rfl := hdescribes.eq_split
  have hlabels : (Graph.split code').labels = Graph.labelsOf c.body :=
    (Graph.labels_split code').trans (Graph.labelsOf_of_same hsame)
  have hflat : ∀ s ∈ c.body, s.isStructured = false := by
    intro s hs
    obtain ⟨s', hs', hsames⟩ := hsame.symm.exists_of_mem hs
    rw [Stmt.isStructured_of_same hsames]
    exact hdescribes.plain s' hs'
  have hnew {l : String} {v : Variable} (hv : r.labelVars.lookup l = some v) :
      w.program.varCount ≤ v.id := hremoves.le_id (Removes.mem_of_lookup hv)
  have hcount : r.fragments = (Graph.split code').labelled.length := by
    have := hremoves.size
    omega
  obtain ⟨hlive, hdead⟩ : SameStmts (live false c.body) (live false code') ∧
      SameStmts (dead false c.body) (dead false code') := hsame.live_dead
  obtain ⟨hlength, hsettings⟩ := hremoves.fragments.isSetting hremoves.new hnew
  have hwork : (workOf (made w.program w'.program ++ r.entry) ++ workOf (dead false c.body)).Perm
      (workOf (tailCalls r.labelVars (live false c.body)) ++ workOf c.body) := by
    have hblocks := hremoves.work_perm fun s hs => by
      rw [Graph.stmts_split] at hs
      exact hdescribes.plain s (live_subset hs)
    rw [Graph.stmts_split, tailCalls, hlive.flatMap_eq Stmt.targets_of_same,
      hlive.flatMap_eq Stmt.work_of_same, ← hentry] at hblocks
    rw [workOf_of_flat hflat, workOf_of_flat fun s hs => hflat s (dead_subset hs)]
    refine (hblocks.append_right _).trans ?_
    rw [List.append_assoc]
    exact work_live_dead.append_left _
  refine ⟨⟨hremoves.labels.trans hlabels, ?_, hsize⟩, ⟨settings, ?_, ?_, hsettings⟩, ?_, hwork, ?_, ?_⟩
  · rw [hcount, ← hlabels, Graph.labels, List.length_map]
  · rw [Program.bodyOf_eq_code?, hremoves.own, hc, hentry]
    rfl
  · rw [hlength, hcount]
  · intro l hl
    obtain ⟨s, hs, hl⟩ := List.mem_flatMap.1 hl
    have hmem : l ∈ r.labelVars.map Prod.fst := by
      rw [hremoves.labels, hlabels]
      exact hjumps s (live_subset hs) l hl
    obtain ⟨v, hv⟩ := exists_lookup_of_mem hmem
    refine ⟨v, ?_, hnew hv⟩
    rw [tailCall, hv]
  · rw [allExprs_eq_work, allExprs_eq_work, allExprs_eq_work, allExprs_eq_work,
      ← List.flatMap_append, ← List.flatMap_append]
    exact hwork.flatMap_right _
  · rw [hreport, Graph.dropped_split]
    exact hdead.length_eq.symm

end

end Elimination

/-- Lowering and removing jumps conserve the work of a body and its expressions. -/
theorem JumpCode.ofBody_conserves {body code : List Stmt} {n n' : Names}
    (h : ofBody body n = .ok code n') :
    (allExprs code).Perm (allExprs body) ∧ (workOf code).Perm (workOf body) ∧
      ∀ {id : FuncId} {w w' : Workspace} {r : Elimination.Result},
        (w.program.func? id).map Func.body = some code → Elimination.plain id w = .ok r w' →
        Elimination.Distributes id code w.program w'.program r := by
  refine ⟨allExprs_perm (ofBody_work h), ofBody_work h, ?_⟩
  intro id w w' r hbody hplain
  obtain ⟨f, hf, rfl⟩ := Option.map_eq_some_iff.1 hbody
  simp only [Elimination.plain, bind_eq_ok, pure_eq_ok, Lowering.func_eq_ok] at hplain
  obtain ⟨_, _, ⟨rfl, rfl⟩, ⟨r, notes⟩, _, hrun, rfl, rfl⟩ := hplain
  have hsame : SameStmts f.body f.body := List.forall₂_same.2 fun _ _ => rfl
  exact Elimination.distributes_of_eliminate (Elimination.withNotes_eq_ok.1 hrun)
    (Program.code?_eq_some hf) (jumps_of_same h hsame)

/-- A function with a loop, a switch and statements after a return. -/
def scattered : List Stmt :=
  let n : Expr := .ref ⟨0, "n", .variant⟩
  [.forLoop n n n
      [.switch n [.caseMark n, .breakTo "", .expr n, .defaultMark, .yield n] ""] "",
    .ret n, .expr n]

theorem JumpCode.ofBody_conserves_scattered : ∃ code n', ofBody scattered {} = .ok code n' ∧
    (allExprs code).Perm (allExprs scattered) ∧ (workOf code).Perm (workOf scattered) ∧
    ∃ r w', Elimination.plain 1 (sample #[{ name := "f", body := code }]) = .ok r w' ∧
      Elimination.Distributes 1 code (sample #[{ name := "f", body := code }]).program w'.program r ∧
      r.dropped = 4 := by
  obtain ⟨code, n', h, hruns⟩ : ∃ code n', ofBody scattered {} = .ok code n' ∧
      Lowering.gives (Elimination.plain 1) (sample #[{ name := "f", body := code }])
        (fun r _ => r.dropped == 4) = true := ⟨_, _, rfl, by decide +kernel⟩
  obtain ⟨r, w', hplain, hdropped⟩ := Lowering.ok_of_gives hruns
  obtain ⟨hexprs, hwork, hrest⟩ := ofBody_conserves h
  exact ⟨code, n', h, hexprs, hwork, r, w', hplain, hrest rfl hplain, by simpa using hdropped⟩

end Resumable
