import Resumable.Proofs.Hygiene.Mentions
import Resumable.Proofs.Jump.Settings

/-!
# The variables of lowered control flow

Lowering the control flow of a function declares new variables in the function
itself, one for each label and one for a generator object. The function and its
fragments mention these and what the body mentioned before.
-/

namespace Resumable

namespace Elimination

variable {p : Program} {Body : Block → List Stmt → Prop} {vars : LabelVars} {blocks : List Block}
  {settings : List Stmt} {table : List (String × FuncId)}

theorem Fragments.mentioned {P : Variable → Prop} (hvars : ∀ entry ∈ vars, P entry.2)
    (h : Fragments p Body vars blocks settings table) : Mentioned P settings := by
  induction h with
  | nil => simp
  | @cons b v _ _ _ _ _ _ hv _ _ _ ih =>
      obtain ⟨before, after, rfl, -⟩ := List.lookup_eq_some_iff.1 hv
      have hv : P v := hvars (b.label, v) (by simp)
      rw [mentioned_cons]
      exact ⟨by simpa [Simple.slots] using hv, ih⟩

/-- Every new function is the fragment of a block. -/
theorem Removes.eq_fragment {Body : LabelVars → Block → List Stmt → Prop} {id fn : FuncId}
    {p p' : Program} {g : Graph} {c : Code} (h : Removes Body id p p' g vars settings table)
    (hfn : p.size < fn) (hc : p'.code? fn = some c) :
    ∃ b ∈ g.labelled, ∃ body, c = ⟨"", [], [], body⟩ ∧ Body vars b body ∧
      fn ∈ bodyLiterals settings := by
  obtain ⟨f, hf, -⟩ := Option.map_eq_some_iff.1 hc
  have hle := (Program.isSome_func?.1 (Option.isSome_of_eq_some hf)).2
  rw [h.size] at hle
  obtain ⟨i, rfl⟩ := Nat.exists_eq_add_of_lt hfn
  have hi : i < g.labelled.length := by omega
  obtain ⟨body, hbody, hfragment, hmem⟩ := h.fragment (List.getElem?_eq_getElem hi)
  rw [Nat.add_right_comm] at hbody hmem
  exact ⟨_, List.getElem_mem hi, body, (Option.some.inj (hbody.symm.trans hc)).symm, hfragment, hmem⟩

theorem names_eliminate (id : FuncId) (names : Names) :
    Upkeep id (fun _ w => w.names = names) (fun w => w.names = names) (fun _ => True)
      (fun _ => True) where
  failed _ := trivial
  fewer _ h := h
  shared h := h
  declared _ _ h := h
  begun _ h := ⟨trivial, h⟩
  adopted _ _ h :=
    .intro (fun _ _ hrun => (Lowering.keeps_of_adoptBody hrun).names.trans h) fun _ _ _ => trivial
  closed h := h

end Elimination

namespace Pass

open Elimination
open Label (Form)

/-- What a lowered function and its fragments declare and mention. -/
structure Laid (id : FuncId) (more : List Variable) (w w' : Workspace) : Prop where
  size : w.program.size ≤ w'.program.size
  others : ∀ fn, fn ≤ w.program.size → fn ≠ id → w'.program.code? fn = w.program.code? fn
  own : ∃ body, w'.program.code? id =
      ((w.program.code? id).map fun c => { c with locals := c.locals ++ more, body }) ∧
    Mentioned (fun v => v ∈ bodyRefs (w.program.bodyOf id) ∨ v ∈ more) body
  fragments : ∀ fn c, w.program.size < fn → w'.program.code? fn = some c →
    c.params = [] ∧ c.locals = [] ∧ fn ∈ bodyLiterals (w'.program.bodyOf id) ∧
      Mentioned (fun v => v ∈ bodyRefs (w.program.bodyOf id) ∨ v ∈ more) c.body
  literals : ∀ fn, fn = id ∨ w.program.size < fn → ∀ g ∈ bodyLiterals (w'.program.bodyOf fn),
    w.program.size < g ∨ g ∈ bodyLiterals (w.program.bodyOf id)
  distinct : (more.map Variable.name).Nodup
  made : ∀ u ∈ more, ∃ a : Form, a.isProper = true ∧ (∀ n, a ≠ .fresh n) ∧ u.name = a.text
  ids : more.map Variable.id = List.range' w.program.varCount more.length
  varCount : w'.program.varCount = w.program.varCount + more.length
  fresh : w'.names.fresh = w.names.fresh

section

variable {P : Variable → Prop} {body code : List Stmt} {names names' : Names} {g : Graph} {k : Nat}

theorem plain_block (hg : g.Describes (code.mapIdx fun i s => s.share (k + i))) {b : Block}
    (hb : b ∈ g.blocks) : ∀ s ∈ b.stmts, s.isStructured = false :=
  fun s hs => hg.plain s (hg.mem_code hb hs)

/-- The statements of a block are statements of the code, up to their numbers. -/
theorem slots_block (hg : g.Describes (code.mapIdx fun i s => s.share (k + i))) {b : Block}
    (hb : b ∈ g.blocks) {s : Stmt} (hs : s ∈ allStmts b.stmts) :
    ∃ t ∈ allStmts code, s.slots = t.slots := by
  rw [allStmts_of_flat (plain_block hg hb)] at hs
  obtain ⟨t, ht, hsame⟩ := (Stmt.same_share code _).exists_of_mem (hg.mem_code hb hs)
  refine ⟨t, mem_allStmts ht, ?_⟩
  obtain rfl | ⟨x, n, n', rfl, rfl⟩ := Stmt.same_cases hsame <;> rfl

/-- The blocks of a body mention what the expressions of the body refer to. -/
theorem mentioned_block (hcode : JumpCode.ofBody body names = .ok code names')
    (hg : g.Describes (code.mapIdx fun i s => s.share (k + i))) (hbody : ∀ v ∈ bodyRefs body, P v)
    {b : Block} (hb : b ∈ g.blocks) : Mentioned P b.stmts := by
  refine mentioned_of_flat (plain_block hg hb) fun v hv => hbody v ?_
  rw [bodyRefs_eq] at hv
  obtain ⟨s, hs, hv⟩ := List.mem_flatMap.1 hv
  obtain ⟨t, ht, hslots⟩ := slots_block hg hb hs
  rw [← (JumpCode.ofBody_refs hcode).mem_iff, bodyRefs_eq]
  exact List.mem_flatMap.2 ⟨t, ht, hslots ▸ hv⟩

theorem literals_block (hcode : JumpCode.ofBody body names = .ok code names')
    (hg : g.Describes (code.mapIdx fun i s => s.share (k + i))) {b : Block} (hb : b ∈ g.blocks) :
    bodyLiterals b.stmts ⊆ bodyLiterals body := by
  intro fn hfn
  rw [bodyLiterals_eq] at hfn
  obtain ⟨s, hs, hfn⟩ := List.mem_flatMap.1 hfn
  obtain ⟨t, ht, hslots⟩ := slots_block hg hb hs
  rw [← (JumpCode.ofBody_literals hcode).mem_iff, bodyLiterals_eq]
  exact List.mem_flatMap.2 ⟨t, ht, hslots ▸ hfn⟩

/-- The labels of a body are made up for places in it. -/
theorem made_of_mem_labels (hcode : JumpCode.ofBody body names = .ok code names')
    (hg : g.Describes (code.mapIdx fun i s => s.share (k + i))) {l : String} (hl : l ∈ g.labels) :
    ∃ a : Form, a.isProper = true ∧ (∀ n, a ≠ .fresh n) ∧ (∀ n, a ≠ .object n) ∧ l = a.text := by
  obtain ⟨-, forms, hforms, hperm⟩ := JumpCode.ofBody_labels hcode
  rw [hg.eq_split, Graph.labels_split, Graph.labelsOf_of_same (Stmt.same_share code _),
    hperm.mem_iff, List.mem_map] at hl
  obtain ⟨a, ha, rfl⟩ := hl
  refine ⟨a, ?_, ?_, ?_, rfl⟩
  all_goals
    rcases List.mem_cons.1 ha with rfl | ha
    · simp [Form.isProper]
    rcases List.mem_cons.1 ha with rfl | ha
    · simp [Form.isProper]
  · exact hforms.proper a ha
  · rintro n rfl
    obtain ⟨_, _, ⟨⟩, -⟩ := hforms.drawn _ ha
  · rintro n rfl
    obtain ⟨_, _, ⟨⟩, -⟩ := hforms.drawn _ ha

end

section

variable {builtins : Option Generator.Builtins} {id : FuncId} {w w' : Workspace}

/-- Another body for the function, which still names the fragments. -/
theorem Laid.setBody {more : List Variable} {body : List Stmt} (h : Laid id more w w')
    (hid : (w.program.func? id).isSome)
    (hbody : Mentioned (fun v => v ∈ bodyRefs (w.program.bodyOf id) ∨ v ∈ more) body)
    (hliterals : bodyLiterals body ⊆ bodyLiterals (w'.program.bodyOf id))
    (hnamed : ∀ fn d, w.program.size < fn → w'.program.code? fn = some d → fn ∈ bodyLiterals body) :
    Laid id more w
      { w' with program := w'.program.modifyFunc id fun f => { f with body } } := by
  have hcode (fn : FuncId) := Program.code?_setBody w'.program id fn body
  have hown : (w'.program.modifyFunc id fun f => { f with body }).code? id =
      (w.program.code? id).map fun c => { c with locals := c.locals ++ more, body } := by
    obtain ⟨old, hold, -⟩ := h.own
    rw [hcode, if_pos rfl, hold, Option.map_map]
    rfl
  have hset : (w'.program.modifyFunc id fun f => { f with body }).bodyOf id = body := by
    obtain ⟨f, hf⟩ := Option.isSome_iff_exists.1 hid
    rw [Program.bodyOf_eq_code?, hown, Program.code?, hf]
    rfl
  refine ⟨h.size.trans (Nat.le_of_eq (Program.modifyFunc_size ..).symm), fun fn hfn hne => ?_,
    ⟨body, hown, hbody⟩, fun fn c hfn hc => ?_, fun fn hfn c hc => ?_, h.distinct, h.made, h.ids,
    (Program.modifyFunc_varCount ..).trans h.varCount, h.fresh⟩
  · exact ((hcode fn).trans (if_neg hne)).trans (h.others fn hfn hne)
  · have hne : fn ≠ id :=
      Nat.ne_of_gt (Nat.lt_of_le_of_lt (Program.isSome_func?.1 hid).2 hfn)
    replace hc := ((hcode fn).trans (if_neg hne)).symm.trans hc
    obtain ⟨hparams, hlocals, -, hmentioned⟩ := h.fragments fn c hfn hc
    refine ⟨hparams, hlocals, ?_, hmentioned⟩
    rw [hset]
    exact hnamed fn c hfn hc
  · refine h.literals fn hfn c ?_
    by_cases hne : fn = id
    · subst hne
      exact hliterals (hset ▸ hc)
    · rwa [Program.bodyOf_of_code? ((hcode fn).trans (if_neg hne))] at hc

/-- Jump code and its fragments after some variables are declared, at most that
of a generator object. -/
theorem laid_of_eliminate {η : Type} {hook : Hook η} (hhook : hook.Faithful) {front : List Variable}
    {w₁ : Workspace} {c : Code} {result : Ty} {code : List Stmt} {names : Names} {r : Result} {n n' : η}
    (hc : w.program.code? id = some c)
    (hc₁ : w₁.program.code? id = some { c with locals := c.locals ++ front })
    (hothers : ∀ fn, fn ≠ id → w₁.program.code? fn = w.program.code? fn)
    (hsize : w₁.program.size = w.program.size)
    (hcount : w₁.program.varCount = w.program.varCount + front.length)
    (hids : front.map Variable.id = List.range' w.program.varCount front.length)
    (hfront : ∀ u ∈ front, ∃ depth : Nat, u.name = Label.generatorVariable depth)
    (hdistinct : (front.map Variable.name).Nodup)
    (hmentioned : ∀ (P : Variable → Prop) (p : Program) (f : Fragment) (n n' : η) (body : List Stmt),
      (∀ v ∈ front, P v) → (∀ entry ∈ f.vars, P entry.2) → Mentioned P f.body →
      hook p f n = .ok body n' → Mentioned P body)
    (hcode : JumpCode.ofBody (w.program.bodyOf id) w.names = .ok code names)
    (h : eliminate hook id result (formed w₁ id code names, n) = .ok r (w', n')) :
    Laid id (front ++ r.labelVars.map Prod.snd) w w' ∧
      ∃ settings, w'.program.bodyOf id = settings ++ r.entry ∧
        Mentioned (· ∈ front ++ r.labelVars.map Prod.snd) settings ∧
        ∀ fn d, w.program.size < fn → w'.program.code? fn = some d → fn ∈ bodyLiterals settings := by
  have hformed : (formed w₁ id code names).program.code? id =
      some { c with locals := c.locals ++ front, body := code } := by
    rw [formed, Program.code?_setBody, if_pos rfl, hc₁]
    rfl
  obtain ⟨g, settings, table, hbuild, hremoves, hentry⟩ := eliminate_spec h hformed
  have hg := Graph.describes_of_build hbuild
  have hnames : (r.labelVars.map Prod.snd).map Variable.name = g.labels := by
    rw [List.map_map]
    exact hremoves.named
  have hlength : (r.labelVars.map Prod.snd).length = g.labels.length := by
    rw [← hnames]
    exact (List.length_map ..).symm
  have hsize₁ : (formed w₁ id code names).program.size = w.program.size :=
    (Program.modifyFunc_size ..).trans hsize
  have hcount₁ : (formed w₁ id code names).program.varCount = w.program.varCount + front.length :=
    (Program.modifyFunc_varCount ..).trans hcount
  have hvars : ∀ entry ∈ r.labelVars, entry.2 ∈ front ++ r.labelVars.map Prod.snd :=
    fun entry hentry => List.mem_append_right _ (List.mem_map_of_mem hentry)
  have hsettings : Mentioned (· ∈ front ++ r.labelVars.map Prod.snd) settings :=
    hremoves.fragments.mentioned hvars
  have hblock {b : Block} (hb : b ∈ g.blocks) : Mentioned (fun v =>
      v ∈ bodyRefs (w.program.bodyOf id) ∨ v ∈ front ++ r.labelVars.map Prod.snd)
        (b.stmts.map (convertStmt r.labelVars)) :=
    mentioned_map_convertStmt (fun _ _ l _ v hv => .inr (hvars (l, v) (Removes.mem_of_lookup hv)))
      (mentioned_block hcode hg (fun _ hv => .inl hv) hb)
  have hown : w'.program.code? id = (w.program.code? id).map fun c =>
      { c with locals := c.locals ++ (front ++ r.labelVars.map Prod.snd)
               body := settings ++ g.entry.stmts.map (convertStmt r.labelVars) } := by
    rw [hremoves.own, hformed, hc, Option.map_some, Option.map_some, List.append_assoc]
  have hbody : w'.program.bodyOf id = settings ++ r.entry := by
    rw [Program.bodyOf_eq_code?, hown, hc, hentry]
    rfl
  have hliterals (b : Block) (hb : b ∈ g.blocks) :
      bodyLiterals (b.stmts.map (convertStmt r.labelVars)) ⊆ bodyLiterals (w.program.bodyOf id) := by
    rw [bodyLiterals_map_convertStmt]
    exact literals_block hcode hg hb
  refine ⟨⟨?_, fun fn hfn hne => ?_, ⟨_, hown, ?_⟩, fun fn d hfn hd => ?_, fun fn hfn c hmem => ?_, ?_,
    fun u hu => ?_, ?_, ?_, ?_⟩, settings, hbody, hsettings, fun fn d hfn hd => ?_⟩
  · rw [hremoves.size, hsize₁]
    exact Nat.le_add_right _ _
  · rw [hremoves.others fn (hsize₁ ▸ hfn) hne, formed, Program.code?_setBody, if_neg hne]
    exact hothers fn hne
  · exact mentioned_append.2 ⟨hsettings.imp fun _ => .inr, hblock (.head _)⟩
  · obtain ⟨b, hb, body, rfl, hbody', hmem⟩ := hremoves.eq_fragment (hsize₁ ▸ hfn) hd
    obtain ⟨p, _, _, -, hrun⟩ := hbody'
    refine ⟨rfl, rfl, ?_, ?_⟩
    · rw [hbody, bodyLiterals_append]
      exact List.mem_append_left _ hmem
    · exact hmentioned _ p _ _ _ _ (fun v hv => .inr (List.mem_append_left _ hv))
        (fun entry hentry => .inr (hvars entry hentry)) (hblock (.tail _ hb)) hrun
  · rcases hfn with rfl | hfn
    · rw [hbody, hentry, bodyLiterals_append, List.mem_append, hremoves.fragments.literals] at hmem
      rcases hmem with hmem | hmem
      · obtain ⟨entry, hnew, rfl⟩ := List.mem_map.1 hmem
        exact .inl (hsize₁ ▸ hremoves.new entry hnew)
      · exact .inr (hliterals _ (.head _) hmem)
    · rw [Program.bodyOf_eq_code?] at hmem
      cases hd : w'.program.code? fn with
      | none =>
          rw [hd] at hmem
          cases hmem
      | some d =>
          obtain ⟨b, hb, body, rfl, ⟨p, _, _, -, hrun⟩, -⟩ := hremoves.eq_fragment (hsize₁ ▸ hfn) hd
          rw [hd] at hmem
          exact .inr (hliterals b (.tail _ hb) (hhook.literals hrun ▸ hmem))
  · rw [List.map_append, hnames]
    refine List.nodup_append.2 ⟨hdistinct, ?_, ?_⟩
    · rw [hg.eq_split, Graph.labels_split]
      exact hg.nodup
    · rintro name hname _ hl rfl
      obtain ⟨u, hu, rfl⟩ := List.mem_map.1 hname
      obtain ⟨depth, hdepth⟩ := hfront u hu
      obtain ⟨a, ha, -, hobject, heq⟩ := made_of_mem_labels hcode hg hl
      refine hobject depth (Form.text_injective ha rfl ?_)
      exact heq.symm.trans hdepth
  · rcases List.mem_append.1 hu with hu | hu
    · obtain ⟨depth, hdepth⟩ := hfront u hu
      exact ⟨.object depth, rfl, by simp, hdepth⟩
    · have hl : u.name ∈ g.labels := hnames ▸ List.mem_map_of_mem hu
      obtain ⟨a, ha, hfresh, -, heq⟩ := made_of_mem_labels hcode hg hl
      exact ⟨a, ha, hfresh, heq⟩
  · rw [List.map_append, hids, List.length_append, hlength, ← List.range'_append_1, ← hcount₁,
      List.map_map]
    exact congrArg _ hremoves.ids
  · rw [List.length_append, hlength, hremoves.varCount, hcount₁, Nat.add_assoc]
  · have hdraws := (JumpCode.ofBody_labels hcode).1
    have hkept := ((names_eliminate id names).eliminate hhook rfl).ok h
    exact (congrArg Names.fresh hkept).trans hdraws.fresh
  · obtain ⟨_, _, _, _, _, hmem⟩ := hremoves.eq_fragment (hsize₁ ▸ hfn) hd
    exact hmem

/-- The wrapped body of a generator mentions nothing else. -/
theorem mentioned_wrapped {P : Variable → Prop} {types : TypeTable} {cls : ClassId}
    {object start : Variable} {settings : List Stmt} {entry : Stmt} (hobject : P object)
    (hstart : P start) (hsettings : Mentioned P settings) :
    Mentioned P (wrapped types cls object start (settings ++ [entry])) := by
  have hset : Mentioned P [.setVar object (.construct (some cls) [])] := by
    simpa [Stmt.setVar, Simple.slots] using hobject
  have hnext : Mentioned P [Generator.setField types object Generator.nextField (.ref start)] :=
    Generator.mentioned_setField hobject (by simpa using hstart)
  have hret : Mentioned P [.ret (.ref object)] := by
    simpa [Simple.slots] using hobject
  rw [wrapped, List.dropLast_concat, mentioned_append, mentioned_append]
  exact ⟨⟨hset, hsettings⟩, mentioned_cons.2 ⟨hnext, hret⟩⟩

/-- Wrapping keeps the settings and what they name. -/
theorem mem_bodyLiterals_wrapped {types : TypeTable} {cls : ClassId} {object start : Variable}
    {settings : List Stmt} {entry : Stmt} {fn : FuncId} (h : fn ∈ bodyLiterals settings) :
    fn ∈ bodyLiterals (wrapped types cls object start (settings ++ [entry])) := by
  rw [wrapped, List.dropLast_concat, bodyLiterals_append, bodyLiterals_append]
  exact List.mem_append_left _ (List.mem_append_right _ h)

theorem laid_of_flow {generator : Bool} (h : Flow builtins id generator w w')
    (hid : (w.program.func? id).isSome) : ∃ more, Laid id more w w' := by
  obtain ⟨f, hf⟩ := Option.isSome_iff_exists.1 hid
  have hc : w.program.code? id = some f.code := by rw [Program.code?, hf]; rfl
  cases h with
  | plain hcode hrun =>
      refine ⟨_, (laid_of_eliminate faithful_noHook hc ?_ (fun _ _ => rfl) rfl rfl
        (show ([] : List Variable).map Variable.id = _ from rfl) (by simp) (by simp) ?_ hcode hrun).1⟩
      · rw [hc, List.append_nil]
      · intro P p f n n' body _ _ hbody hhook
        cases hhook
        exact hbody
  | @generator b registry types cls object start depth code names r n entry _ w₁ _ hobject hname hcode
      hrun hentry hstart hcall =>
      have hc₁ : (objected w id registry types object).program.code? id =
          some { f.code with locals := f.code.locals ++ [object] } := by
        rw [objected, Program.code?_addLocal, if_pos rfl, Program.code?, Program.func?]
        change ((w.program.func? id).map Func.code).map _ = _
        rw [hf]
        rfl
      have hmentioned (P : Variable → Prop) (p : Program) (f : Fragment) (n n' : Nat)
          (body : List Stmt) (hfront : ∀ v ∈ [object], P v) (hvars : ∀ entry ∈ f.vars, P entry.2)
          (hbody : Mentioned P f.body) (hhook : Generator.hook object b.stop p f n = .ok body n') :
          Mentioned P body :=
        Generator.mentioned_hook (hfront object (.head _))
          (fun _ v hv => hvars (Label.finish, v) (Removes.mem_of_lookup hv)) hbody hhook
      obtain ⟨hlaid, settings, hbody, hsettings, hnamed⟩ := laid_of_eliminate
        (Generator.faithful_hook object b.stop) hc hc₁ (fun fn hne => objected_code? fn hne)
        (Program.modifyFunc_size ..) (Program.modifyFunc_varCount ..) (by simp [hobject])
        (by simpa using ⟨depth, hname⟩) (by simp) hmentioned hcode hrun
      rw [hentry] at hbody
      refine ⟨_, hlaid.setBody hid ?_ (bodyLiterals_wrapped ..).subset fun fn d hfn hd => ?_⟩
      · obtain ⟨before, after, heq, -⟩ := List.lookup_eq_some_iff.1 hstart
        rw [hbody]
        refine mentioned_wrapped (.inr (.head _)) (.inr (.tail _ ?_)) (hsettings.imp fun _ => .inr)
        exact List.mem_map.2 ⟨(Label.begin, start), by simp [heq], rfl⟩
      · rw [hbody]
        exact mem_bodyLiterals_wrapped (hnamed fn d hfn hd)

end

end Pass

end Resumable
