import Resumable.Proofs.Generator.Exhausted
import Resumable.Proofs.Jump.Adoption
import Resumable.Proofs.Structured.Yields
import Resumable.Proofs.Unreachable.Reachability

/-!
# How compiling a generator can end

Compiling recognises yields and jumps by their places in a fragment. Main
statement: the places are always right. If the types of a generator are in
order and its closures can be moved, compiling ends with the failure of lowering its body, with
the failure that a value is returned, or with success; then the yields it counts
are those that were not dropped.
-/

namespace Resumable.Generator

open Elimination

def valueReturned : Failure :=
  .unsupported .generator "returning a value from a generator"

/-! ## Fragments -/

def Named (vars : LabelVars) (stmts : List Stmt) : Prop :=
  ∀ s ∈ stmts, ∀ l ∈ s.targets, ∃ v, vars.lookup l = some v ∧ v.name = l

section

variable {types : TypeTable} {object : Variable} {f : Fragment} {vars : LabelVars}

theorem jumpTarget?_tailCall {l : String} {v : Variable} (hv : f.vars.lookup l = some v)
    (hname : v.name = l) : f.jumpTarget? (tailCall f.vars l) = some v := by
  rw [tailCall, hv]
  simp [Fragment.jumpTarget?, Expr.mkCall, hname, hv]

theorem compileYield_cons {s : Stmt} (hs : s.isYield = false) (rest : List Stmt) :
    compileYield types object f (s :: rest) = do
      let (rest, n) ← compileYield types object f rest
      return (s :: rest, n) := by
  rw [compileYield]
  rintro x share after rfl
  cases hs

theorem isYield_convertStmt (vars : LabelVars) (s : Stmt) :
    (convertStmt vars s).isYield = s.isYield := by
  cases s with
  | goto l =>
      rw [convertStmt, tailCall]
      split <;> rfl
  | _ => rfl

/-- The one yield of a fragment is found with the jump after it. -/
theorem compileYield_of_paused (types : TypeTable) (object : Variable) {f : Fragment}
    {stmts : List Stmt} (h : Paused stmts) (hnamed : Named f.vars stmts) :
    ∃ stmts', compileYield types object f (stmts.map (convertStmt f.vars)) =
        .ok (stmts', stmts.countP Stmt.isYield) ∧
      ∀ s ∈ stmts', s.isYield = false ∧
        ∀ x share, s = .simple (.ret x) share → s ∈ stmts.map (convertStmt f.vars) := by
  induction h with
  | nil => exact ⟨[], rfl, fun _ hs => absurd hs List.not_mem_nil⟩
  | @yield x share l =>
      obtain ⟨v, hv, hname⟩ := hnamed (.goto l) (by simp) l (by simp [Stmt.targets])
      refine ⟨[setField types object valueField x, setField types object nextField (.ref v)], ?_, ?_⟩
      · change compileYield types object f [.simple (.yield x) share, tailCall f.vars l] = _
        rw [compileYield, jumpTarget?_tailCall hv hname]
        rfl
      · simp [setField, Stmt.isYield]
  | @cons s rest hs _ ih =>
      obtain ⟨rest', hrest, hkept⟩ := ih fun t ht => hnamed t (.tail _ ht)
      have hfirst : (convertStmt f.vars s).isYield = false := (isYield_convertStmt _ s).trans hs
      refine ⟨convertStmt f.vars s :: rest', ?_, List.forall_mem_cons.2 ⟨⟨hfirst, ?_⟩, ?_⟩⟩
      · rw [List.map_cons, compileYield_cons hfirst, hrest, List.countP_cons_of_neg (by simp [hs])]
        rfl
      · intro x share _
        exact .head _
      · intro t ht
        exact ⟨(hkept t ht).1, fun x share heq => .tail _ ((hkept t ht).2 x share heq)⟩

/-- A statement that is no yield is kept, or it returns a value. -/
theorem kept_or_valueReturned (f : Fragment) (finish : Variable) {s : Stmt} (hs : s.isYield = false) :
    (∃ s', compileReturn f finish s = .ok s') ∨
      compileReturn f finish s = .error valueReturned ∧ ∃ x share, s = .simple (.ret x) share ∧
        x.isMissing = false ∧ f.jumpTarget? s = none := by
  unfold compileReturn
  split
  · cases hs
  · next x share =>
      cases htarget : f.jumpTarget? (.simple (.ret x) share) with
      | some v => exact .inl ⟨_, rfl⟩
      | none =>
          cases hx : x.isMissing with
          | true => exact .inl ⟨_, rfl⟩
          | false => exact .inr ⟨rfl, x, share, rfl, hx, rfl⟩
  · exact .inl ⟨_, rfl⟩

theorem mapM_compileReturn_cases (f : Fragment) (finish : Variable) {stmts : List Stmt}
    (h : ∀ s ∈ stmts, s.isYield = false) :
    (∃ stmts', stmts.mapM (compileReturn f finish) = .ok stmts') ∨
      stmts.mapM (compileReturn f finish) = .error valueReturned ∧ ∃ x share,
        .simple (.ret x) share ∈ stmts ∧ x.isMissing = false ∧
        f.jumpTarget? (.simple (.ret x) share) = none := by
  induction stmts with
  | nil => exact .inl ⟨[], rfl⟩
  | cons s rest ih =>
      obtain ⟨hs, hrest⟩ := List.forall_mem_cons.1 h
      rw [List.mapM_cons]
      rcases kept_or_valueReturned f finish hs with ⟨s', hs'⟩ | ⟨hs', x, share, rfl, hx, hjump⟩
      · rcases ih hrest with ⟨rest', hrest'⟩ | ⟨hrest', x, share, hmem, hx, hjump⟩
        · exact .inl ⟨s' :: rest', by rw [hs', hrest']; rfl⟩
        · exact .inr ⟨by rw [hs', hrest']; rfl, x, share, .tail _ hmem, hx, hjump⟩
      · exact .inr ⟨by rw [hs']; rfl, x, share, .head _, hx, hjump⟩

/-- A return that is no jump stood in the block. -/
theorem mem_of_mem_convert {stmts : List Stmt} (hnamed : Named f.vars stmts) {x : Expr}
    {share : Option Nat} (hmem : .simple (.ret x) share ∈ stmts.map (convertStmt f.vars))
    (hjump : f.jumpTarget? (.simple (.ret x) share) = none) : .simple (.ret x) share ∈ stmts := by
  obtain ⟨s, hs, heq⟩ := List.mem_map.1 hmem
  cases s with
  | simple s k =>
      rw [← heq]
      exact hs
  | goto l =>
      obtain ⟨v, hv, hname⟩ := hnamed _ hs l (by simp [Stmt.targets])
      rw [← heq] at hjump
      cases hjump.symm.trans (jumpTarget?_tailCall hv hname)
  | _ => cases heq

/-- A fragment is compiled with the yields of its block, or it returns a value. -/
theorem compileFragment_cases {stop : ClassId} {b : Block} (hpaused : Paused b.stmts)
    (hnamed : Named vars b.stmts) {finish : Variable} (hfinish : vars.lookup Label.finish = some finish)
    (hend : b.label = Label.finish → b.stmts = []) :
    (∃ body, compileFragment types object stop ⟨b.label, b.stmts.map (convertStmt vars), vars⟩ =
      .ok (body, b.stmts.countP Stmt.isYield)) ∨
    compileFragment types object stop ⟨b.label, b.stmts.map (convertStmt vars), vars⟩ =
      .error valueReturned ∧ ∃ x share, .simple (.ret x) share ∈ b.stmts ∧ x.isMissing = false := by
  simp only [compileFragment, Fragment.labelVar?, hfinish]
  by_cases hlabel : b.label = Label.finish
  · rw [if_pos hlabel, hend hlabel]
    exact .inl ⟨_, rfl⟩
  · rw [if_neg hlabel]
    obtain ⟨stmts, hstmts, hkept⟩ := compileYield_of_paused types object
      (f := ⟨b.label, b.stmts.map (convertStmt vars), vars⟩) hpaused hnamed
    rw [hstmts]
    rcases mapM_compileReturn_cases ⟨b.label, b.stmts.map (convertStmt vars), vars⟩ finish
      (fun s hs => (hkept s hs).1) with ⟨body, hbody⟩ | ⟨hbody, x, share, hmem, hx, hjump⟩
    · refine .inl ⟨body, ?_⟩
      change Except.bind (stmts.mapM (compileReturn _ finish)) _ = _
      rw [hbody]
      rfl
    · refine .inr ⟨?_, x, share, mem_of_mem_convert hnamed ((hkept _ hmem).2 x share rfl) hjump, hx⟩
      change Except.bind (stmts.mapM (compileReturn _ finish)) _ = _
      rw [hbody]
      rfl

theorem outcome_hook (object : Variable) (stop : ClassId) {b : Block} (hpaused : Paused b.stmts)
    (hnamed : Named vars b.stmts) {finish : Variable} (hfinish : vars.lookup Label.finish = some finish)
    (hend : b.label = Label.finish → b.stmts = []) (p : Program) (n : Nat) :
    Outcome (hook object stop p ⟨b.label, b.stmts.map (convertStmt vars), vars⟩) n
      (fun _ n' => n' = n + b.stmts.countP Stmt.isYield) fun e => e = valueReturned ∧
        ∃ x share, .simple (.ret x) share ∈ b.stmts ∧ x.isMissing = false := by
  rcases compileFragment_cases hpaused hnamed hfinish hend with ⟨body, hbody⟩ | ⟨hbody, hreturn⟩
  · refine .of_ok (a := body) (t := n + b.stmts.countP Stmt.isYield) ?_ rfl
    rw [hook, hbody]
  · refine .of_error (e := valueReturned) (t := n) ?_ ⟨rfl, hreturn⟩
    rw [hook, hbody]

end

/-! ## Graphs of lowered bodies -/

section

variable {body code code' : List Stmt} {n n' : Names}

theorem named_of_mem_split (h : JumpCode.ofBody body n = .ok code n') (hsame : SameStmts code code')
    {vars : LabelVars} (hfst : vars.map Prod.fst = (Graph.split code').labels)
    (hname : vars.map (fun entry => entry.2.name) = (Graph.split code').labels) {b : Block}
    (hb : b ∈ (Graph.split code').blocks) : Named vars b.stmts := by
  intro s hs l hl
  have hlabel := JumpCode.jumps_of_same h hsame s (Graph.mem_of_mem_split hb hs) l hl
  rw [← Graph.labels_split, ← hfst] at hlabel
  obtain ⟨v, hv⟩ := exists_lookup_of_mem hlabel
  exact ⟨v, hv, List.map_eq_map_iff.1 (hname.trans hfst.symm) (l, v) (Removes.mem_of_lookup hv)⟩

/-- The end of a body has an empty block. -/
theorem stmts_of_finish (h : JumpCode.ofBody body n = .ok code n') {k : Nat} {b : Block}
    (hb : b ∈ (Graph.split (code.mapIdx fun i s => s.share (k + i))).labelled)
    (hlabel : b.label = Label.finish) : b.stmts = [] := by
  have hg := Graph.describes_of_build (JumpCode.build_of_same h (Stmt.same_share code (k + ·)))
  obtain ⟨pre, rfl⟩ := Pass.ofBody_finish h
  rw [List.mapIdx_append] at hg hb
  exact hg.last_empty hb hlabel

theorem countP_of_same {stmts stmts' : List Stmt} (h : SameStmts stmts stmts') :
    stmts'.countP Stmt.isYield = stmts.countP Stmt.isYield := by
  induction h with
  | nil => rfl
  | cons hs _ ih => rw [List.countP_cons, List.countP_cons, Stmt.isYield_of_same hs, ih]

/-- The labelled blocks of numbered code hold the yields that the code keeps. -/
theorem countP_labelled (h : JumpCode.ofBody body n = .ok code n') (hsame : SameStmts code code') :
    ((Graph.split code').labelled.flatMap Block.stmts).countP Stmt.isYield =
      ((Graph.split code).blocks.flatMap Block.stmts).countP Stmt.isYield := by
  have hblocks {bs bs' : List Block} (hbs : List.Forall₂ Block.Same bs bs') :
      (bs'.flatMap Block.stmts).countP Stmt.isYield = (bs.flatMap Block.stmts).countP Stmt.isYield := by
    induction hbs with
    | nil => rfl
    | cons hb _ ih =>
        rw [List.flatMap_cons, List.flatMap_cons, List.countP_append, List.countP_append, ih,
          countP_of_same hb.2]
  rw [← hblocks (Graph.split_same hsame), Graph.blocks, List.flatMap_cons, List.countP_append,
    JumpCode.entry_of_same h hsame]
  exact (Nat.zero_add _).symm

theorem isCallOf_tailCall {vars : LabelVars} {l : String} {v : Variable}
    (h : vars.lookup l = some v) : isCallOf v (tailCall vars l) = true := by
  rw [tailCall, h]
  simp [isCallOf, Expr.mkCall]

def KeepsReturn (g : Graph) : Prop :=
  ∃ b ∈ g.blocks, ∃ x share, .simple (.ret x) share ∈ b.stmts ∧ x.isMissing = false

/-- Removing the jumps of a lowered generator. -/
theorem outcome_eliminate (hcode : JumpCode.ofBody body n = .ok code n') {object : Variable}
    {stop : ClassId} {id : FuncId} {result : Ty} {w : Workspace} {c : Code}
    (hc : w.program.code? id = some c) (hbody : c.body = code)
    (hw : w.program.Hosts id (bodyLiterals code)) :
    Outcome (eliminate (hook object stop) id result) (w, 0)
      (fun r s => r.entry = [tailCall r.labelVars Label.begin] ∧
        (∃ start, r.labelVars.lookup Label.begin = some start) ∧
        s.2 = ((Graph.split code).blocks.flatMap Block.stmts).countP Stmt.isYield)
      fun e => e = valueReturned ∧ KeepsReturn (Graph.split code) := by
  subst hbody
  have hsame := Stmt.same_share c.body (w.program.shareCount + ·)
  have hlabels : (Graph.split (c.body.mapIdx fun i s => s.share (w.program.shareCount + i))).labels =
      Graph.labelsOf c.body := by
    rw [Graph.labels_split, Graph.labelsOf_of_same hsame]
  obtain ⟨-, forms, -, hperm⟩ := JumpCode.ofBody_labels hcode
  have hmarks : Label.begin ∈ Graph.labelsOf c.body ∧ Label.finish ∈ Graph.labelsOf c.body :=
    ⟨hperm.mem_iff.2 (.head _), hperm.mem_iff.2 (.tail _ (.head _))⟩
  rw [← hlabels] at hmarks
  refine (Elimination.outcome_eliminate (faithful_hook object stop) Stmt.isYield hc hw
    (JumpCode.build_of_same hcode hsame) fun vars hfst hname b hb p n => ?_).imp fun r s hr => ?_
  · obtain ⟨finish, hfinish⟩ := exists_lookup_of_mem (hfst ▸ hmarks.2)
    have hpaused := ((JumpCode.ofBody_resumed hcode).of_same hsame).paused_of_mem_split (.tail _ hb)
    have hblock := outcome_hook object stop hpaused
      (named_of_mem_split hcode hsame hfst hname (.tail _ hb)) hfinish
      (stmts_of_finish hcode hb) p n
    rcases hblock.cases with ⟨stmts, m, hrun, hm⟩ | ⟨e, m, hrun, he, x, share, hmem, hx⟩
    · exact .of_ok hrun hm
    · refine .of_error hrun ⟨he, ?_⟩
      obtain ⟨b₀, hb₀, -, hstmts⟩ := exists_of_forall₂ (Graph.split_same hsame)
        (List.mem_cons_of_mem _ hb)
      obtain ⟨s, hs, hsames⟩ := hstmts.exists_of_mem hmem
      obtain rfl | ⟨_, k, _, rfl, heq⟩ := Stmt.same_cases hsames
      · exact ⟨b₀, hb₀, x, share, hs, hx⟩
      · cases heq
        exact ⟨b₀, hb₀, x, k, hs, hx⟩
  · obtain ⟨hfst, hentry, hcount⟩ := hr
    refine ⟨?_, exists_lookup_of_mem (hfst ▸ hmarks.1), ?_⟩
    · rw [hentry, JumpCode.entry_of_same hcode hsame]
      rfl
    · rw [hcount, Nat.zero_add, countP_labelled hcode hsame]

end

/-! ## Compiling -/

section

variable {b : Builtins} {id : FuncId} {f : Func} {w w₁ : Workspace} {element : Ty} {cls : ClassId}

theorem outcome_ofBody (body : List Stmt) {cause : Failure → Prop} {w : Workspace}
    (h : ∀ e names, JumpCode.ofBody body w.names = .error e names → cause e) :
    Outcome (Lowering.withNames (JumpCode.ofBody body)) w
      (fun code w' => ∃ names, JumpCode.ofBody body w.names = .ok code names ∧ w' = { w with names })
      cause := by
  cases hcode : JumpCode.ofBody body w.names with
  | ok code names => exact .of_ok (Lowering.withNames_eq_ok.2 ⟨names, hcode, rfl⟩) ⟨names, rfl, rfl⟩
  | error e names =>
      refine .of_error (e := e) (t := { w with names }) ?_ (h e names hcode)
      rw [Lowering.withNames, hcode]

/-- The closures of a generator can still be moved when it has jump code. -/
theorem hosts_formed (registry : Registry) (types : TypeTable) (object : Variable)
    {code : List Stmt} {names names' : Names} (hcode : JumpCode.ofBody f.body names = .ok code names')
    (hw : w.program.Hosts id (bodyLiterals f.body)) :
    (Pass.formed (Pass.objected w id registry types object) id code names').program.Hosts id
      (bodyLiterals code) := by
  have htypes : Program.Hosts { w.program with types, varCount := w.program.varCount + 1 } id
      (bodyLiterals code) :=
    (hw.fewer (JumpCode.ofBody_literals hcode).subset).of_funcs rfl
  have hobjected : (Pass.objected w id registry types object).program.Hosts id (bodyLiterals code) :=
    htypes.modifyFunc (by intro f; rfl) (by intro f; rfl) id
  exact hobjected.modifyFunc (by intro f; rfl) (by intro f; rfl) id

/-- How compiling a generator ends, whose types are in order and whose closures
can be moved. -/
theorem outcome_compile (hf : w.program.func? id = some f) (hgenerator : f.generator = true)
    (helement : elementType w.program.types id f = .ok element)
    (hclass : objectClass b.template element w = .ok cls w₁)
    (hnew : checkConstruct cls w₁ = .ok () w₁) (hstop : checkConstruct b.stop w₁ = .ok () w₁)
    (hw : w.program.Hosts id (bodyLiterals f.body)) :
    Outcome (compile (some b) id) w
      (fun r _ => ∃ code names, JumpCode.ofBody f.body w.names = .ok code names ∧
        r.yields = ((Graph.split code).blocks.flatMap Block.stmts).countP Stmt.isYield)
      fun e => (∃ names, JumpCode.ofBody f.body w.names = .error e names) ∨
        ∃ code names, JumpCode.ofBody f.body w.names = .ok code names ∧ e = valueReturned ∧
          KeepsReturn (Graph.split code) := by
  have hfunc : Lowering.func id w = .ok f w := Lowering.func_eq_ok.2 ⟨by rw [hf]; rfl, rfl⟩
  unfold compile
  refine .bind_ok hfunc ?_
  simp only [hgenerator, Bool.not_true, Bool.false_eq_true, if_false]
  refine .bind_ok rfl (.bind_ok (Lowering.lift_eq_ok.2 ⟨helement, rfl⟩) (.bind_ok hclass
    (.bind_ok hnew (.bind_ok hstop (.bind_ok rfl (.bind_ok rfl (.bind_ok rfl ?_)))))))
  obtain ⟨registry, types, rfl⟩ := Pass.objectClass_eq_ok hclass
  refine (outcome_ofBody f.body fun e names h => .inl ⟨names, h⟩).bind fun code w₂ hw₂ => ?_
  obtain ⟨names, hcode, rfl⟩ := hw₂
  refine .bind_ok rfl (.bind_ok rfl ?_)
  have hremoved (object : Variable) : Outcome
      (withNotes (eliminate (hook object b.stop) id .void) 0)
      (Pass.formed (Pass.objected w id registry types object) id code names)
      (fun r _ => r.1.entry = [tailCall r.1.labelVars Label.begin] ∧
        (∃ start, r.1.labelVars.lookup Label.begin = some start) ∧
        r.2 = ((Graph.split code).blocks.flatMap Block.stmts).countP Stmt.isYield)
      fun e => (∃ names, JumpCode.ofBody f.body w.names = .error e names) ∨
        ∃ code names, JumpCode.ofBody f.body w.names = .ok code names ∧ e = valueReturned ∧
          KeepsReturn (Graph.split code) := by
    have hhosts := hosts_formed registry types object hcode hw
    obtain ⟨c, hc, hbody⟩ : ∃ c, (Pass.formed (Pass.objected w id registry types object) id code
        names).program.code? id = some c ∧ c.body = code := by
      have hknown : ((Pass.objected w id registry types object).program.func? id).isSome := by
        rw [Pass.objected, Program.isSome_func?_modifyFunc]
        exact Option.isSome_of_eq_some hf
      obtain ⟨f', hf'⟩ : ∃ f', (Pass.formed (Pass.objected w id registry types object) id code
          names).program.func? id = some f' := by
        rw [← Option.isSome_iff_exists, Pass.formed, Program.isSome_func?_modifyFunc]
        exact hknown
      refine ⟨f'.code, Program.code?_eq_some hf', ?_⟩
      change f'.body = code
      rw [← Pass.bodyOf_eq hf', Pass.formed, Pass.bodyOf_setBody hknown]
    rcases (outcome_withNotes (outcome_eliminate hcode hc hbody hhosts)).cases with
      ⟨r, w', hrun, hr⟩ | ⟨e, w', hrun, he⟩
    · exact .of_ok hrun hr
    · exact .of_error hrun (.inr ⟨code, names, hcode, he⟩)
  refine (hremoved _).bind fun r w' hr => ?_
  obtain ⟨r, yields⟩ := r
  obtain ⟨hentry, ⟨start, hstart⟩, hyields⟩ := hr
  refine .bind_ok rfl ?_
  dsimp only at hentry hstart hyields ⊢
  simp only [hentry, hstart, isCallOf_tailCall hstart, if_true]
  exact .bind_ok rfl (.of_ok rfl ⟨code, names, hcode, hyields⟩)

/-- Compiling a generator ends in one of three ways, if its types are in order and
its literals name definitions that are neither the generator nor its owners: with
the failure of lowering its body, with the failure that it returns a value, or
with success. The yields it then counts are those that the blocks keep. -/
theorem compile_outcomes (hf : w.program.func? id = some f) (hgenerator : f.generator = true)
    (helement : elementType w.program.types id f = .ok element)
    (hclass : objectClass b.template element w = .ok cls w₁)
    (hnew : checkConstruct cls w₁ = .ok () w₁) (hstop : checkConstruct b.stop w₁ = .ok () w₁)
    (hforest : w.program.Forest)
    (hclosures : ∀ c ∈ bodyClosures f.body, (w.program.func? c).isSome ∧ c ∉ w.program.chain id) :
    (∃ e names w', JumpCode.ofBody f.body w.names = .error e names ∧
      compile (some b) id w = .error e w') ∨
    ∃ code names g, JumpCode.ofBody f.body w.names = .ok code names ∧ Graph.build code = .ok g ∧
      ((∃ r w', compile (some b) id w = .ok r w' ∧
        r.yields = (g.blocks.flatMap Block.stmts).countP Stmt.isYield) ∨
      ∃ w', compile (some b) id w =
          .error (.unsupported .generator "returning a value from a generator") w' ∧
        KeepsReturn g) := by
  have hhosts : w.program.Hosts id (bodyLiterals f.body) :=
    ⟨hforest, .inr (Option.isSome_of_eq_some hf), fun c hc =>
      hclosures c (mem_bodyClosures_iff.2 hc)⟩
  rcases (outcome_compile hf hgenerator helement hclass hnew hstop hhosts).cases with
    ⟨r, w', hrun, code, names, hcode, hyields⟩ |
    ⟨e, w', hrun, ⟨names, hcode⟩ | ⟨code, names, hcode, rfl, hreturn⟩⟩
  · exact .inr ⟨code, names, _, hcode, JumpCode.build_ofBody hcode, .inl ⟨r, w', hrun, hyields⟩⟩
  · exact .inl ⟨e, names, w', hcode, hrun⟩
  · exact .inr ⟨code, names, _, hcode, JumpCode.build_ofBody hcode, .inr ⟨w', hrun, hreturn⟩⟩

end

def nestedGenerator (body : List Stmt) : Workspace :=
  let declared := ({} : TypeTable).addClass { name := templateName, typeArgs := [.variant] }
  let builtin := Registry.builtin declared.2
  { program :=
      { (Program.nested body []).modifyFunc 1 (fun f =>
          { f with result := .object (some declared.1), generator := true }) with
        types := builtin.2 }
    registry := builtin.1 }

theorem forest_nestedGenerator (body : List Stmt) : (nestedGenerator body).program.Forest :=
  ((Program.forest_nested body []).modifyFunc (by intro f; rfl) (by intro f; rfl) 1).congr
    (fun _ => rfl) (fun _ => rfl) fun _ _ => rfl

def yieldsInLoop : List Stmt :=
  let x : Expr := .ref ⟨0, "x", .variant⟩
  [.whileLoop x
    [.ifElse x [.yield (.lambda 2 .variant), .continueTo ""] [.ret .missing, .yield x]] "",
    .switch x [.caseMark x, .yield x, .defaultMark, .yield x] ""]

theorem compile_outcomes_yieldsInLoop : ∃ code names g r w',
    JumpCode.ofBody yieldsInLoop {} = .ok code names ∧ Graph.build code = .ok g ∧
    compile (some Pass.singleBuiltins) 1 (nestedGenerator yieldsInLoop) = .ok r w' ∧
    r.yields = (g.blocks.flatMap Block.stmts).countP Stmt.isYield ∧ r.yields = 3 ∧
    code.countP Stmt.isYield = 4 := by
  obtain ⟨r, w', hrun, hthree⟩ := Lowering.ok_of_gives
    (show Lowering.gives (compile (some Pass.singleBuiltins) 1) (nestedGenerator yieldsInLoop)
      (fun r _ => r.yields = 3) = true by decide +kernel)
  obtain ⟨cls, w₁, hclass, hchecks⟩ := Lowering.ok_of_gives
    (show Lowering.gives (objectClass Pass.singleBuiltins.template .variant)
      (nestedGenerator yieldsInLoop) (fun cls w₁ =>
        Lowering.succeeds (checkConstruct cls) w₁ (fun _ => true) &&
        Lowering.succeeds (checkConstruct Pass.singleBuiltins.stop) w₁ (fun _ => true)) = true
      by decide +kernel)
  obtain ⟨hnew, hstop⟩ := Bool.and_eq_true_iff.1 hchecks
  obtain ⟨⟨⟩, w₂, hnew, -⟩ := Lowering.ok_of_succeeds hnew
  obtain ⟨⟨⟩, w₃, hstop, -⟩ := Lowering.ok_of_succeeds hstop
  cases Pass.checkConstruct_eq_ok hnew
  cases Pass.checkConstruct_eq_ok hstop
  rcases compile_outcomes (show (nestedGenerator yieldsInLoop).program.func? 1 = some _ from rfl) rfl
    (by rfl) hclass hnew hstop (forest_nestedGenerator yieldsInLoop) (by decide +kernel) with
    ⟨e, names, w', -, herror⟩ | ⟨code, names, g, hcode, hg, ⟨r', w', hok, hyields⟩ | ⟨w', herror, -⟩⟩
  · cases hrun.symm.trans herror
  · cases hrun.symm.trans hok
    refine ⟨code, names, g, r, w', hcode, hg, hrun, hyields, of_decide_eq_true hthree, ?_⟩
    obtain ⟨code', names', hcode', hfour⟩ : ∃ code names, JumpCode.ofBody yieldsInLoop {} =
        .ok code names ∧ code.countP Stmt.isYield = 4 := ⟨_, _, rfl, by decide +kernel⟩
    cases hcode.symm.trans hcode'
    exact hfour
  · cases hrun.symm.trans herror

end Resumable.Generator
