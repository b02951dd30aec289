import Resumable.Proofs.Difference
import Resumable.Proofs.Pass.Expansion
import Resumable.Proofs.Unreachable.Fragments

/-!
# Reports of unreachable labels

Lowering a function reports the labels that no path of jumps leads to. Main
statements: the fragment of a reported label is never entered, whatever the
surroundings do; for a generator this holds of its end only if no fragment that can be
reached returns.
-/

namespace Resumable

open Elimination Machine

/-! ## What lowering starts from -/

theorem Program.lt_of_mem_bodyRefs {p : Program} (hp : p.scoped = true) {fn : FuncId} {v : Variable}
    (hv : v ∈ bodyRefs (p.bodyOf fn)) : v.id < p.varCount := by
  rw [bodyRefs_eq] at hv
  obtain ⟨s, hs, hv⟩ := List.mem_flatMap.1 hv
  obtain ⟨e, he, hv⟩ := List.mem_flatMap.1 hv
  cases hf : p.func? fn with
  | none =>
      rw [bodyOf, hf] at hs
      cases hs
  | some f =>
      rw [bodyOf, hf] at hs
      exact p.lt_of_scoped hp hf (List.mem_append_right _ (mem_bodyVariables hs he hv))

namespace Pass

variable {id : FuncId} {w w₁ w' : Workspace} {code : List Stmt} {names names₀ : Names}

/-- The jump code of a body and what becomes of it. The second graph is that of the
numbered code. -/
theorem graphs_of_eliminate {η : Type} {hook : Hook η} {result : Ty} {n n' : η} {r : Result}
    {body : List Stmt} {f : Func} (hf : w₁.program.func? id = some f)
    (hcode : JumpCode.ofBody body names₀ = .ok code names)
    (hrun : eliminate hook id result (formed w₁ id code names, n) = .ok r (w', n')) :
    ∃ g g' settings table, Graph.build code = .ok g ∧ r.unreachable = g.unreachable ∧
      List.Forall₂ Block.Same g.blocks g'.blocks ∧
      g'.Describes
        (code.mapIdx fun i s => s.share ((formed w₁ id code names).program.shareCount + i)) ∧
      Removes (HookBody hook (formed w₁ id code names).program.types) id
        (formed w₁ id code names).program w'.program g' r.labelVars settings table ∧
      Label.begin ∈ g'.reachable [entryLabel] ∧ r.entry = [tailCall r.labelVars Label.begin] ∧
      w'.program.bodyOf id = settings ++ r.entry := by
  have hg := JumpCode.build_ofBody hcode
  obtain ⟨g', settings, table, hg', hremoves, hentry'⟩ :=
    eliminate_spec hrun (code?_formed hf code names)
  have hsame : List.Forall₂ Block.Same (Graph.split code).blocks g'.blocks := by
    rw [(Graph.describes_of_build hg').eq_split]
    exact Graph.split_same (Stmt.same_share code _)
  have hstart : g'.entry.stmts = [.goto Label.begin] := by
    rw [(Graph.describes_of_build hg').eq_split]
    exact JumpCode.entry_of_same hcode (Stmt.same_share code _)
  have hdescribes := Graph.describes_of_build hg'
  refine ⟨_, g', settings, table, hg, ?_, hsame, hdescribes, hremoves, ?_, ?_, ?_⟩
  · rw [(eliminate_report hrun (code?_formed hf code names) hg').1, Graph.unreachable_same hsame]
  · have hlabel : g'.entry.label ∈ g'.reachable [entryLabel] := by
      rw [hdescribes.entry]
      exact Graph.mem_reachable_of_source (.head _)
    have hjump : .goto Label.begin ∈ g'.entry.stmts := hstart ▸ .head _
    exact hdescribes.mem_reachable_of_target (.head _) hlabel hjump (.head _)
  · rw [hentry', hstart]
    rfl
  · rw [Program.bodyOf_eq_code?, hremoves.own, code?_formed hf code names, hentry']
    rfl

section

variable {Body : LabelVars → Block → List Stmt → Prop} {p p' q : Program} {g : Graph}
  {vars : LabelVars} {settings : List Stmt} {table : List (String × FuncId)} {live : String → Prop}
  (h : Removes Body id p p' g vars settings table) (hsize : p.size = w.program.size)
  (hq : q.size = p'.size)

include h hsize hq

theorem adds_of_sealOn {fn : FuncId} (hfn : (sealOn vars table live).func fn) :
    w.program.Adds q fn := by
  obtain ⟨entry, hentry, -, rfl⟩ := hfn
  have hadds := Program.adds_iff.1 (h.adds_of_mem_table hentry)
  rw [hsize, ← hq] at hadds
  exact Program.adds_iff.2 hadds

/-- Code that was there before lowering is clear if its literals name no new
functions. -/
theorem clearCode_of_scoped (hscoped : w.program.scoped = true)
    (hcount : w.program.varCount ≤ p.varCount) {fn : FuncId}
    (hliterals : ∀ lit ∈ bodyLiterals (w.program.bodyOf fn), ¬ w.program.Adds q lit) :
    (sealOn vars table live).ClearCode (w.program.bodyOf fn) := by
  refine Seal.clearCode_iff.2 ⟨fun v hv => h.not_var_of_lt ?_, fun lit hlit hfn => ?_⟩
  · exact Nat.lt_of_lt_of_le (Program.lt_of_mem_bodyRefs hscoped hv) hcount
  · exact hliterals lit hlit (adds_of_sealOn h hsize hq hfn)

/-- A program that keeps the seal enters living fragments only. -/
theorem live_of_everEnters (hguards : (sealOn vars table live).Guards q)
    (hsettings : ∀ v fn, (q.bodyOf id).any (setsTo v fn) = settings.any (setsTo v fn))
    {first : Store} (hfirst : (Seal.on (w.program.Adds q)).ClearStore first) {limit : Nat}
    {fn : FuncId}
    (henters : EverEnters ⟨q, limit⟩ (Seal.on (w.program.Adds q)).Free first fn) :
    (w.program.Adds q fn → ∃ l, live l ∧ isFragment q id vars l fn = true) ∧
      ∀ l, isFragment q id vars l fn = true → live l := by
  have hfree : ¬ (sealOn vars table live).func fn :=
    Seal.not_everEnters hguards (fun v hv => hv.mono fun _ => adds_of_sealOn h hsize hq)
      (hfirst.mono (fun _ => False.elim) fun _ => adds_of_sealOn h hsize hq) henters
  have hlive {l : String} (hl : (l, fn) ∈ table) : live l := by
    by_contra hdead
    exact hfree ⟨(l, fn), hl, hdead, rfl⟩
  refine ⟨fun hadds => ?_, ?_⟩
  · rw [Program.adds_iff, hq, ← hsize] at hadds
    obtain ⟨l, hl⟩ := h.exists_label (Program.adds_iff.2 hadds)
    obtain ⟨-, -, v, t, -, -, hv, hset, -⟩ := h.fragments.of_mem_table hl
    refine ⟨l, hlive hl, ?_⟩
    rw [isFragment, hv, Option.any_some, hsettings]
    exact List.any_eq_true.2 ⟨_, hset, by simp [setsTo]⟩
  · intro l hl
    obtain ⟨v, hv, hset⟩ := (Option.any_eq_true _ _).1 hl
    rw [hsettings] at hset
    obtain ⟨s, hs, hset⟩ := List.any_eq_true.1 hset
    obtain ⟨m, u, fn', t, hm, hu, rfl⟩ := h.fragments.of_mem_settings hs
    simp only [setsTo, Bool.and_eq_true, decide_eq_true_eq] at hset
    rw [Removes.eq_of_id_eq h.ids hv hu hset.1.symm]
    exact hlive (hset.2 ▸ hm)

end

/-- A lowered program keeps the seal on all labels that do not live, if hooks
mention no more of them than blocks do. -/
theorem guards_of_blocks {η : Type} {hook : Hook η} (hfaithful : hook.Faithful) {types : TypeTable}
    {p p' q : Program} {g : Graph} {vars : LabelVars} {settings body : List Stmt}
    {table : List (String × FuncId)} {live : String → Prop} {k : Nat}
    (h : Removes (HookBody hook types) id p p' g vars settings table)
    (hcode : JumpCode.ofBody body names₀ = .ok code names)
    (hg : g.Describes (code.mapIdx fun i s => s.share (k + i)))
    (hlive : ∀ b ∈ g.blocks, live b.label → ∀ s ∈ b.stmts, ∀ l ∈ s.targets, live l)
    (hbody : (sealOn vars table live).ClearCode body)
    (hothers : ∀ fn, fn ≠ id → (sealOn vars table live).ClearCode (p.bodyOf fn))
    (hhook : ∀ b ∈ g.labelled, live b.label → ∀ q n n' stmts,
      Mentioned (fun v => ¬ (sealOn vars table live).var v.id) (b.stmts.map (convertStmt vars)) →
      hook q ⟨b.label, b.stmts.map (convertStmt vars), vars⟩ n = .ok stmts n' →
      Mentioned (fun v => ¬ (sealOn vars table live).var v.id) stmts)
    (hq : ∀ fn, fn ≠ id → q.code? fn = p'.code? fn)
    (hown : (sealOn vars table live).Admits (q.bodyOf id)) :
    (sealOn vars table live).Guards q := by
  obtain ⟨hrefs, hliterals⟩ := Seal.clearCode_iff.1 hbody
  refine h.guards hq hown hothers fun b hb hl stmts hstmts => ?_
  obtain ⟨p₁, n, n', -, hrun⟩ := hstmts
  have hb' : b ∈ g.blocks := .tail _ hb
  refine Seal.clearCode_of_mentioned (hhook b hb hl p₁ n n' stmts ?_ hrun) ?_
  · exact h.convert_clear (mentioned_block hcode hg hrefs hb') (hlive b hb' hl)
  · rw [hfaithful.literals hrun, bodyLiterals_map_convertStmt]
    exact fun fn hfn => hliterals fn (literals_block hcode hg hb' hfn)

theorem bodyOf_formed {fn : FuncId} (h : fn ≠ id) :
    (formed w id code names).program.bodyOf fn = w.program.bodyOf fn := by
  refine Program.bodyOf_of_code? ?_
  rw [formed, Program.code?_setBody, if_neg h]

theorem setsTo_tailCall (vars : LabelVars) (l : String) (v : Variable) (fn : FuncId) :
    setsTo v fn (tailCall vars l) = false := by
  unfold tailCall
  split <;> rfl

/-! ## Plain functions -/

/-- Reachable labels are not reported. -/
theorem not_mem_unreachable {g : Graph} {l : String} (h : l ∈ g.reachable [entryLabel]) :
    l ∉ g.unreachable := by
  intro hl
  have hdead := (List.mem_filter.1 hl).2
  rw [List.contains_iff_mem.2 h] at hdead
  cases hdead

/-- Once a function without yields is lowered, every fragment that is entered has a
label that jumps lead to from the entry, and no fragment of a reported label is
entered. -/
theorem lowerPlain_reports {r : Result} (h : lowerPlain id w = .ok r w') {f : Func}
    (hf : w.program.func? id = some f) (hscoped : w.program.scoped = true)
    (hliterals : ∀ fn, ∀ lit ∈ bodyLiterals (w.program.bodyOf fn),
      ¬ w.program.Adds w'.program lit) :
    ∃ code names g, JumpCode.ofBody f.body w.names = .ok code names ∧ Graph.build code = .ok g ∧
      r.unreachable = g.unreachable ∧
      ∀ first, (Seal.on (w.program.Adds w'.program)).ClearStore first → ∀ limit fn,
        EverEnters ⟨w'.program, limit⟩ (Seal.on (w.program.Adds w'.program)).Free first fn →
        (w.program.Adds w'.program fn →
          ∃ l ∈ g.reachable [entryLabel], isFragment w'.program id r.labelVars l fn = true) ∧
        ∀ l ∈ r.unreachable, isFragment w'.program id r.labelVars l fn = false := by
  obtain ⟨result, code, names, hcode, hrun⟩ := lowerPlain_eq_ok h
  obtain ⟨g, g', settings, table, hg, hreport, hsame, hg', hremoves, hbegin, hentry, hbody⟩ :=
    graphs_of_eliminate hf hcode hrun
  refine ⟨code, names, g, bodyOf_eq hf ▸ hcode, hg, hreport, fun first hfirst limit fn henters => ?_⟩
  rw [hreport, ← Graph.reachable_same hsame]
  have hsize : (formed w id code names).program.size = w.program.size := Program.modifyFunc_size ..
  have hcount : (formed w id code names).program.varCount = w.program.varCount :=
    Program.modifyFunc_varCount ..
  have hold (fn : FuncId) : (sealOn r.labelVars table (· ∈ g'.reachable [entryLabel])).ClearCode
      (w.program.bodyOf fn) :=
    clearCode_of_scoped hremoves hsize rfl hscoped hcount.ge (hliterals fn)
  have hguards : (sealOn r.labelVars table (· ∈ g'.reachable [entryLabel])).Guards w'.program := by
    refine guards_of_blocks faithful_noHook hremoves hcode hg'
      (fun b hb hl s hs l => hg'.mem_reachable_of_target hb hl hs) (hold id) (fun fn hne => ?_)
      (fun b hb hl q n n' stmts hmentioned hhook => ?_) (fun _ _ => rfl) ?_
    · rw [bodyOf_formed hne]
      exact hold fn
    · cases hhook
      exact hmentioned
    · rw [hbody, hentry]
      refine List.forall_mem_append.2 ⟨hremoves.admits_settings, Rule.Admits.of_code ?_⟩
      refine Seal.clearCode_of_mentioned
        (mentioned_tailCall fun v hv => hremoves.not_var_of_live hbegin hv) ?_
      rw [bodyLiterals_tailCall]
      simp
  have hsettings (v : Variable) (fn : FuncId) :
      (w'.program.bodyOf id).any (setsTo v fn) = settings.any (setsTo v fn) := by
    rw [hbody, hentry, List.any_append, List.any_cons, setsTo_tailCall, List.any_nil, Bool.or_false,
      Bool.or_false]
  obtain ⟨hadded, hlive⟩ := live_of_everEnters hremoves hsize rfl hguards hsettings hfirst henters
  refine ⟨hadded, fun l hl => Bool.eq_false_iff.2 fun hfragment => ?_⟩
  refine not_mem_unreachable (hlive l hfragment) ?_
  rwa [Graph.unreachable_same hsame]

/-- Literals that name functions of the program name no new ones. -/
theorem not_adds_of_known {p p' : Program}
    (h : ∀ fn ∈ p.ids, ∀ lit ∈ bodyLiterals (p.bodyOf fn), (p.func? lit).isSome = true) (fn : FuncId) :
    ∀ lit ∈ bodyLiterals (p.bodyOf fn), ¬ p.Adds p' lit := by
  intro lit hlit hadds
  have hknown := Program.forall_bodyOf
    (P := fun _ body => ∀ lit ∈ bodyLiterals body, (p.func? lit).isSome = true) (by simp) h fn lit hlit
  rw [hadds.1] at hknown
  cases hknown

theorem clearStore_tracing (func : FuncId → Prop) : (Seal.on func).ClearStore tracing where
  globals b hb := by
    obtain rfl := List.mem_singleton.1 hb
    exact .inr trivial
  frames := by simp [tracing, Store.bindTracing, Store.newNative, Store.newTag, Store.setGlobal]
  objects := by simp [tracing, Store.bindTracing, Store.newNative, Store.newTag, Store.setGlobal]

/-- Two branches that both return, and a call that can never be made. -/
def deadCall : Func where
  name := "f"
  params := [⟨0, "x", .variant⟩]
  body :=
    let x : Expr := .ref ⟨0, "x", .variant⟩
    [.ifElse x [.ret x] [.expr (.mkCall (.lambda 2 .variant) []), .ret .missing],
      .expr (.mkCall (.ref ⟨1, "t", .variant⟩) [x])]

theorem lowerPlain_reports_deadCall : ∃ r w' code names g,
    lowerPlain 1 (sample #[deadCall, { name := "" }]) = .ok r w' ∧
    JumpCode.ofBody deadCall.body {} = .ok code names ∧ Graph.build code = .ok g ∧
    r.unreachable = ["$END_IF_1", "$END"] ∧
    ∀ limit fn, EverEnters ⟨w'.program, limit⟩
      (Seal.on ((sample #[deadCall, { name := "" }]).program.Adds w'.program)).Free tracing fn →
      ((sample #[deadCall, { name := "" }]).program.Adds w'.program fn →
        ∃ l ∈ g.reachable [entryLabel], isFragment w'.program 1 r.labelVars l fn = true) ∧
      ∀ l ∈ r.unreachable, isFragment w'.program 1 r.labelVars l fn = false := by
  obtain ⟨r, w', hlower, hreport⟩ := Lowering.ok_of_gives
    (show Lowering.gives (lowerPlain 1) (sample #[deadCall, { name := "" }])
      (fun r _ => r.unreachable = ["$END_IF_1", "$END"]) = true by decide +kernel)
  obtain ⟨code, names, g, hcode, hg, -, hruns⟩ := lowerPlain_reports hlower
    (show (sample #[deadCall, { name := "" }]).program.func? 1 = some deadCall from rfl)
    (by decide +kernel) (not_adds_of_known (by decide +kernel))
  exact ⟨r, w', code, names, g, hlower, hcode, hg, of_decide_eq_true hreport,
    hruns tracing (clearStore_tracing _)⟩

/-- A function that calls what it is given, or else a function that the program does
not have. -/
def danglingCall : Func where
  name := "f"
  params := [⟨0, "x", .variant⟩]
  body :=
    let x : Expr := .ref ⟨0, "x", .variant⟩
    [.ifElse x
        [.expr (.mkCall x []), .ifElse x [.ret .missing] [.ret .missing],
          .expr (.mkCall (.ref ⟨1, "t", .variant⟩) [x])]
        [.expr (.mkCall (.lambda 8 .variant) [])]]

/-- A literal of an unknown function or a value from outside can name a fragment
that is reported as unreachable. -/
theorem reported_is_entered : ∃ r w', lowerPlain 1 (sample #[danglingCall]) = .ok r w' ∧
    (sample #[danglingCall]).program.scoped = true ∧ "$END_IF_2" ∈ r.unreachable ∧
    isFragment w'.program 1 r.labelVars "$END_IF_2" 8 = true ∧
    Enters ⟨w'.program, 10⟩ (.closure 0 1 []) [.null] tracing 8 ∧
    Enters ⟨w'.program, 10⟩ (.closure 0 1 []) [.closure 0 8 []] tracing 8 := by
  obtain ⟨r, w', hlower, hchecks⟩ := Lowering.ok_of_gives
    (show Lowering.gives (lowerPlain 1) (sample #[danglingCall]) (fun r w' =>
      r.unreachable.contains "$END_IF_2" && isFragment w'.program 1 r.labelVars "$END_IF_2" 8 &&
      callEnters ⟨w'.program, 10⟩ 200 (.closure 0 1 []) [.null] tracing 8 &&
      callEnters ⟨w'.program, 10⟩ 200 (.closure 0 1 []) [.closure 0 8 []] tracing 8) = true by
        decide +kernel)
  simp only [Bool.and_eq_true, List.contains_iff_mem] at hchecks
  obtain ⟨⟨⟨hreport, hfragment⟩, hliteral⟩, hvalue⟩ := hchecks
  exact ⟨r, w', hlower, by decide +kernel, hreport, hfragment, enters_of_callEnters hliteral,
    enters_of_callEnters hvalue⟩

/-! ## Generators -/

theorem isBareReturn_convertStmt (vars : LabelVars) (s : Stmt) :
    (convertStmt vars s).isBareReturn = s.isBareReturn := by
  cases s with
  | goto l =>
      rw [convertStmt, tailCall]
      split <;> rfl
  | _ => rfl

theorem isBareReturn_of_same {s s' : Stmt} (h : s.unshare = s'.unshare) :
    s.isBareReturn = s'.isBareReturn := by
  obtain rfl | ⟨x, n, n', rfl, rfl⟩ := Stmt.same_cases h
  · rfl
  · cases x <;> rfl

/-- Some block that jumps lead to returns without a value. -/
def Returns (g : Graph) : Prop :=
  ∃ b ∈ g.blocks, b.label ∈ g.reachable [entryLabel] ∧ ∃ s ∈ b.stmts, s.isBareReturn = true

theorem returns_of_same {g g' : Graph} (h : List.Forall₂ Block.Same g.blocks g'.blocks)
    (hg' : Returns g') : Returns g := by
  obtain ⟨b', hb', hlabel, s', hs', hreturn⟩ := hg'
  obtain ⟨b, hb, hsame⟩ := exists_of_forall₂ h hb'
  obtain ⟨s, hs, hstmt⟩ := hsame.2.exists_of_mem hs'
  rw [Graph.reachable_same h, ← hsame.1] at hlabel
  exact ⟨b, hb, hlabel, s, hs, (isBareReturn_of_same hstmt).trans hreturn⟩

/-- The labels of a generator that can be entered: the end is jumped to from
every return. -/
def Enterable (g : Graph) (l : String) : Prop :=
  l ∈ g.reachable [entryLabel] ∨ l = Label.finish ∧ Returns g

theorem enterable_of_target {g : Graph} {pre : List Stmt}
    (hg : g.Describes (pre ++ [.label Label.finish])) {b : Block} (hb : b ∈ g.blocks)
    (hlabel : Enterable g b.label) {s : Stmt} (hs : s ∈ b.stmts) {l : String} (hl : l ∈ s.targets) :
    Enterable g l := by
  rcases hlabel with hlabel | ⟨hlabel, -⟩
  · exact .inl (hg.mem_reachable_of_target hb hlabel hs hl)
  · rcases List.mem_cons.1 hb with rfl | hb
    · rw [hg.entry] at hlabel
      exact absurd (show entryLabel = Label.finish from hlabel) (by decide)
    · rw [hg.last_empty hb hlabel] at hs
      cases hs

/-- The fragments of a compiled generator mention labels that can be entered. -/
theorem mentioned_hook_of_enterable {Body : LabelVars → Block → List Stmt → Prop} {p p' q : Program}
    {g : Graph} {vars : LabelVars} {settings stmts : List Stmt} {table : List (String × FuncId)}
    (h : Removes Body id p p' g vars settings table) {object : Variable}
    (hobject : object.id < p.varCount) {stop : ClassId} {b : Block} (hb : b ∈ g.labelled)
    (hlabel : Enterable g b.label) {n n' : Nat}
    (hstmts : Mentioned (fun v => ¬ (sealOn vars table (Enterable g)).var v.id)
      (b.stmts.map (convertStmt vars)))
    (hrun : Generator.hook object stop q ⟨b.label, b.stmts.map (convertStmt vars), vars⟩ n =
      .ok stmts n') :
    Mentioned (fun v => ¬ (sealOn vars table (Enterable g)).var v.id) stmts := by
  refine Generator.mentioned_hook (h.not_var_of_lt hobject) (fun hend v hv => ?_) hstmts hrun
  have hfinish : Enterable g Label.finish := by
    rcases hend with hend | ⟨s, hs, hreturn⟩
    · exact (show b.label = Label.finish from hend) ▸ hlabel
    · rcases hlabel with hlabel | ⟨-, hreturns⟩
      · obtain ⟨t, ht, rfl⟩ := List.mem_map.1 hs
        rw [isBareReturn_convertStmt] at hreturn
        exact .inr ⟨rfl, b, .tail _ hb, hlabel, t, ht, hreturn⟩
      · exact .inr ⟨rfl, hreturns⟩
  exact h.not_var_of_live hfinish hv

/-- The body of a compiled generator sets the variables of labels and mentions
the start. -/
theorem admits_wrapped {S : Seal} {types : TypeTable} {cls : ClassId} {object start : Variable}
    {settings : List Stmt} {entry : Stmt} (hobject : ¬ S.var object.id) (hstart : ¬ S.var start.id)
    (hsettings : S.Admits settings) :
    S.Admits (wrapped types cls object start (settings ++ [entry])) := by
  have hmake : S.ClearCode [.setVar object (.construct (some cls) [])] := by
    refine Seal.clearCode_of_mentioned ?_ (by simp [Stmt.setVar, Simple.slots])
    simpa [Stmt.setVar, Simple.slots] using hobject
  have hnext : S.ClearCode [Generator.setField types object Generator.nextField (.ref start)] := by
    refine Seal.clearCode_of_mentioned (Generator.mentioned_setField hobject (by simpa using hstart)) ?_
    rw [Generator.bodyLiterals_setField]
    simp
  have hret : S.ClearCode [.ret (.ref object)] := by
    refine Seal.clearCode_of_mentioned ?_ (by simp [Simple.slots])
    simpa [Simple.slots] using hobject
  rw [wrapped, List.dropLast_concat]
  refine List.forall_mem_append.2 ⟨List.forall_mem_append.2 ⟨?_, hsettings⟩, ?_⟩
  · exact Rule.Admits.of_code hmake
  · exact Rule.Admits.of_code (Rule.code_cons.2 ⟨hnext, hret⟩)

theorem any_setsTo_wrapped {types : TypeTable} {cls : ClassId} {object start : Variable}
    {settings : List Stmt} {entry : Stmt} (v : Variable) (fn : FuncId) :
    (wrapped types cls object start (settings ++ [entry])).any (setsTo v fn) =
      settings.any (setsTo v fn) := by
  rw [wrapped, List.dropLast_concat, List.any_append, List.any_append]
  simp [setsTo, Stmt.setVar, Generator.setField, Stmt.ret, Expr.mkProperty]

/-- Once a generator is compiled, every fragment that is entered has a label that
jumps lead to from the entry, or it is the end and some fragment that jumps lead to
returns. -/
theorem compile_reports {builtins : Option Generator.Builtins} {r : Generator.Result}
    (h : Generator.compile builtins id w = .ok r w') {f : Func}
    (hf : w.program.func? id = some f) (hscoped : w.program.scoped = true)
    (hliterals : ∀ fn, ∀ lit ∈ bodyLiterals (w.program.bodyOf fn),
      ¬ w.program.Adds w'.program lit) :
    ∃ code names g, JumpCode.ofBody f.body w.names = .ok code names ∧ Graph.build code = .ok g ∧
      r.elimination.unreachable = g.unreachable ∧
      ∀ first, (Seal.on (w.program.Adds w'.program)).ClearStore first → ∀ limit fn,
        EverEnters ⟨w'.program, limit⟩ (Seal.on (w.program.Adds w'.program)).Free first fn →
        (w.program.Adds w'.program fn →
          ∃ l, Enterable g l ∧ isFragment w'.program id r.elimination.labelVars l fn = true) ∧
        ∀ l ∈ r.elimination.unreachable,
          isFragment w'.program id r.elimination.labelVars l fn = true →
            l = Label.finish ∧ Returns g := by
  obtain ⟨b, registry, types, start, depth, code, names, entry, w₂, -, hobject, -, hcode, hrun,
    hentry, hstart, -, rfl⟩ := compile_eq_ok h
  have hid₁ : ((objected w id registry types r.object).program.func? id).isSome := by
    have hid : (w.program.func? id).isSome := Option.isSome_of_eq_some hf
    rw [Program.isSome_func?] at hid ⊢
    rwa [objected, Program.modifyFunc_size]
  obtain ⟨f₁, hf₁⟩ := Option.isSome_iff_exists.1 hid₁
  obtain ⟨g, g', settings, table, hg, hreport, hsame, hg', hremoves, hbegin, hentry', hbody⟩ :=
    graphs_of_eliminate hf₁ hcode hrun
  refine ⟨code, names, g, bodyOf_eq hf ▸ hcode, hg, hreport, fun first hfirst limit fn henters => ?_⟩
  set p := (formed (objected w id registry types r.object) id code names).program
  set q := w₂.program.modifyFunc id fun f =>
    { f with body := wrapped types r.cls r.object start (w₂.program.bodyOf id) }
  have hsize : p.size = w.program.size :=
    (Program.modifyFunc_size ..).trans (Program.modifyFunc_size ..)
  have hcount : p.varCount = w.program.varCount + 1 :=
    (Program.modifyFunc_varCount ..).trans (Program.modifyFunc_varCount ..)
  have hq : q.size = w₂.program.size := Program.modifyFunc_size ..
  have hqbody : q.bodyOf id = wrapped types r.cls r.object start (settings ++ [entry]) := by
    have hid₂ : (w₂.program.func? id).isSome := by
      have hcode₂ := hremoves.own
      rw [code?_formed hf₁] at hcode₂
      obtain ⟨f₂, hf₂, -⟩ := Option.map_eq_some_iff.1 hcode₂
      exact Option.isSome_of_eq_some hf₂
    rw [bodyOf_setBody hid₂, hbody, hentry]
  obtain ⟨pre, hlast⟩ : ∃ pre, g'.Describes (pre ++ [.label Label.finish]) := by
    obtain ⟨pre, rfl⟩ := ofBody_finish hcode
    rw [List.mapIdx_append] at hg'
    exact ⟨_, hg'⟩
  have hold (fn : FuncId) : (sealOn r.elimination.labelVars table (Enterable g')).ClearCode
      (w.program.bodyOf fn) :=
    clearCode_of_scoped hremoves hsize hq hscoped (by omega) (hliterals fn)
  have hguards : (sealOn r.elimination.labelVars table (Enterable g')).Guards q := by
    refine guards_of_blocks (Generator.faithful_hook r.object b.stop) hremoves hcode hg'
      (fun b hb hl s hs l => enterable_of_target hlast hb hl hs) (hold id) (fun fn hne => ?_)
      (fun b hb hl q n n' stmts hstmts hhook => ?_) (fun fn hne => ?_) ?_
    · rw [bodyOf_formed hne, bodyOf_objected]
      exact hold fn
    · exact mentioned_hook_of_enterable hremoves (by omega) hb hl hstmts hhook
    · rw [Program.code?_setBody, if_neg hne]
    · rw [hqbody]
      exact admits_wrapped (hremoves.not_var_of_lt (by omega))
        (hremoves.not_var_of_live (.inl hbegin) hstart) hremoves.admits_settings
  have hsettings (v : Variable) (fn : FuncId) :
      (q.bodyOf id).any (setsTo v fn) = settings.any (setsTo v fn) := by
    rw [hqbody]
    exact any_setsTo_wrapped v fn
  obtain ⟨hadded, hlive⟩ := live_of_everEnters hremoves hsize hq hguards hsettings hfirst henters
  have htransfer {l : String} (hl : Enterable g' l) : Enterable g l :=
    hl.imp (fun hl => Graph.reachable_same hsame _ ▸ hl) fun hl => ⟨hl.1, returns_of_same hsame hl.2⟩
  refine ⟨fun hadds => ?_, fun l hl hfragment => ?_⟩
  · obtain ⟨l, hl, hfragment⟩ := hadded hadds
    exact ⟨l, htransfer hl, hfragment⟩
  · refine (htransfer (hlive l hfragment)).resolve_left fun hreach => ?_
    exact not_mem_unreachable hreach (hreport ▸ hl)

def deadYield : List Stmt :=
  [.yield (.literal (.int 1) .variant), .throw (.literal (.int 7) .variant),
    .yield (.literal (.int 2) .variant)]

theorem compile_reports_deadYield : ∃ r w' code names g,
    Generator.compile (some singleBuiltins) 1 (single deadYield) = .ok r w' ∧
    JumpCode.ofBody deadYield {} = .ok code names ∧ Graph.build code = .ok g ∧
    r.elimination.unreachable = ["$YIELD_2", "$END"] ∧
    ∀ limit fn, EverEnters ⟨w'.program, limit⟩
      (Seal.on ((single deadYield).program.Adds w'.program)).Free tracing fn →
      ((single deadYield).program.Adds w'.program fn →
        ∃ l, Enterable g l ∧ isFragment w'.program 1 r.elimination.labelVars l fn = true) ∧
      ∀ l ∈ r.elimination.unreachable,
        isFragment w'.program 1 r.elimination.labelVars l fn = true →
          l = Label.finish ∧ Returns g := by
  obtain ⟨r, w', hcompile, hreport⟩ := Lowering.ok_of_gives
    (show Lowering.gives (Generator.compile (some singleBuiltins) 1) (single deadYield)
      (fun r _ => r.elimination.unreachable = ["$YIELD_2", "$END"]) = true by decide +kernel)
  obtain ⟨code, names, g, hcode, hg, -, hruns⟩ := compile_reports hcompile
    (show (single deadYield).program.func? 1 = some _ from rfl) (by decide +kernel)
    (not_adds_of_known (by decide +kernel))
  exact ⟨r, w', code, names, g, hcompile, hcode, hg, of_decide_eq_true hreport,
    hruns tracing (clearStore_tracing _)⟩

def resumeEnters (p : Program) (fn : FuncId) : Bool :=
  (callFunc ⟨p, 10⟩ 1000 1 [] tracing).any fun started =>
    match started.1 with
    | .ok (.object ref _) => callEnters ⟨p, 10⟩ 200 (nextOf started.2 ref) [] started.2 fn
    | _ => false

/-- The end of a generator that only returns is reported as unreachable, and the
first resumption enters it. -/
theorem end_is_entered : ∃ r w' ref cls σ,
    Generator.compile (some singleBuiltins) 1 (single [.ret .missing]) = .ok r w' ∧
    Label.finish ∈ r.elimination.unreachable ∧
    isFragment w'.program 1 r.elimination.labelVars Label.finish 3 = true ∧
    callFunc ⟨w'.program, 10⟩ 1000 1 [] tracing = some (.ok (.object ref cls), σ) ∧
    Enters ⟨w'.program, 10⟩ (nextOf σ ref) [] σ 3 := by
  obtain ⟨r, w', hcompile, hchecks⟩ := Lowering.ok_of_gives
    (show Lowering.gives (Generator.compile (some singleBuiltins) 1) (single [.ret .missing])
      (fun r w' => r.elimination.unreachable.contains Label.finish &&
        isFragment w'.program 1 r.elimination.labelVars Label.finish 3 &&
        resumeEnters w'.program 3) = true by decide +kernel)
  simp only [Bool.and_eq_true, List.contains_iff_mem] at hchecks
  obtain ⟨⟨hreport, hfragment⟩, hresume⟩ := hchecks
  obtain ⟨⟨started, σ⟩, hcall, hstarted⟩ := (Option.any_eq_true _ _).1 hresume
  split at hstarted
  · next ref cls heq =>
      cases heq
      exact ⟨r, w', ref, cls, σ, hcompile, hreport, hfragment, hcall, enters_of_callEnters hstarted⟩
  · cases hstarted

end Pass

end Resumable
