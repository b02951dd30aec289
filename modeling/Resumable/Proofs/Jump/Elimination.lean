import Resumable.Proofs.Jump.Graph
import Resumable.Proofs.Lowering.Effect
import Resumable.Lowering.Fragment

/-!
# What removing jumps makes of a program

The function gets a variable for each label; its body sets each to a new
function, the fragment of the label, and goes on with the entry block. No other
code changes.
-/

namespace Resumable.Elimination

/-- Settings of label variables and the functions that they set them to, for a
row of blocks. `Body` relates a block to the body of its fragment. -/
inductive Fragments (p : Program) (Body : Block → List Stmt → Prop) (vars : LabelVars) :
    List Block → List Stmt → List (String × FuncId) → Prop where
  | nil : Fragments p Body vars [] [] []
  | cons {b : Block} {v : Variable} {fn : FuncId} {t : Ty} {body : List Stmt} {blocks : List Block}
      {settings : List Stmt} {table : List (String × FuncId)} :
      vars.lookup b.label = some v → p.code? fn = some ⟨"", [], [], body⟩ → Body b body →
      Fragments p Body vars blocks settings table →
      Fragments p Body vars (b :: blocks) (.expr (.assign (.ref v) (.lambda fn t)) :: settings)
        ((b.label, fn) :: table)

namespace Fragments

variable {p q : Program} {Body : Block → List Stmt → Prop} {vars : LabelVars}
  {blocks : List Block} {settings : List Stmt} {table : List (String × FuncId)}

theorem imp {Body' : Block → List Stmt → Prop} (himp : ∀ b body, Body b body → Body' b body)
    (h : Fragments p Body vars blocks settings table) :
    Fragments p Body' vars blocks settings table := by
  induction h with
  | nil => exact .nil
  | cons hv hcode hbody _ ih => exact .cons hv hcode (himp _ _ hbody) ih

theorem of_code (h : Fragments p Body vars blocks settings table)
    (hcode : ∀ entry ∈ table, q.code? entry.2 = p.code? entry.2) :
    Fragments q Body vars blocks settings table := by
  induction h with
  | nil => exact .nil
  | cons hv hfn hbody _ ih =>
      obtain ⟨hfirst, hrest⟩ := List.forall_mem_cons.1 hcode
      exact .cons hv (hfirst.trans hfn) hbody (ih hrest)

theorem lookup (h : Fragments p Body vars blocks settings table) {l : String}
    (hl : l ∈ blocks.map Block.label) : ∃ b ∈ blocks, ∃ fn body, b.label = l ∧
      table.lookup l = some fn ∧ p.code? fn = some ⟨"", [], [], body⟩ ∧ Body b body := by
  induction h with
  | nil => cases hl
  | @cons b v fn t body blocks settings table _ hfn hbody _ ih =>
      by_cases hb : b.label = l
      · exact ⟨b, .head _, fn, body, hb, by simp [hb], hfn, hbody⟩
      · obtain ⟨b', hb', fn', body', hlabel, htable, hrest⟩ :=
          ih ((List.mem_cons.1 hl).resolve_left (Ne.symm hb))
        refine ⟨b', .tail _ hb', fn', body', hlabel, ?_, hrest⟩
        rw [List.lookup_cons, beq_false_of_ne (Ne.symm hb)]
        exact htable

end Fragments

/-- The statements of a block become the body of a fragment. -/
def HookBody {η : Type} (hook : Hook η) (types : TypeTable) (vars : LabelVars) (b : Block)
    (body : List Stmt) : Prop :=
  ∃ (p : Program) (notes notes' : η), p.types = types ∧
    hook p ⟨b.label, b.stmts.map (convertStmt vars), vars⟩ notes = .ok body notes'

structure Removes (Body : LabelVars → Block → List Stmt → Prop) (id : FuncId) (p p' : Program)
    (g : Graph) (vars : LabelVars) (settings : List Stmt) (table : List (String × FuncId)) :
    Prop where
  types : p'.types = p.types
  others : ∀ fn, fn ≤ p.size → fn ≠ id → p'.code? fn = p.code? fn
  own : p'.code? id = (p.code? id).map fun c =>
    { c with
      locals := c.locals ++ vars.map Prod.snd
      body := settings ++ g.entry.stmts.map (convertStmt vars) }
  labels : vars.map Prod.fst = g.labels
  named : vars.map (fun entry => entry.2.name) = g.labels
  ids : vars.map (fun entry => entry.2.id) = List.range' p.varCount g.labels.length
  fragments : Fragments p' (Body vars) vars g.labelled settings table
  new : ∀ entry ∈ table, p.size < entry.2
  numbers : table.map Prod.snd = List.range' (p.size + 1) g.labelled.length
  size : p'.size = p.size + g.labelled.length
  varCount : p'.varCount = p.varCount + g.labels.length
  shareCount : ∀ c, p.code? id = some c → p'.shareCount = p.shareCount + c.body.length

theorem Removes.imp {Body Body' : LabelVars → Block → List Stmt → Prop} {id : FuncId}
    {p p' : Program} {g : Graph} {vars : LabelVars} {settings : List Stmt}
    {table : List (String × FuncId)} (himp : ∀ b body, Body vars b body → Body' vars b body)
    (h : Removes Body id p p' g vars settings table) :
    Removes Body' id p p' g vars settings table :=
  { h with fragments := h.fragments.imp himp }

/-! ## The steps of the work -/

section

variable {η : Type} {id : FuncId}

theorem onWorkspace_eq_ok {α : Type} {m : Lowering α} {w w' : Workspace} {n n' : η} {a : α} :
    onWorkspace m (w, n) = .ok a (w', n') ↔ m w = .ok a w' ∧ n = n' := by
  unfold onWorkspace
  cases h : m w <;> simp [h, and_assoc]

theorem onWorkspace_bind_eq_ok {α β : Type} {m : Lowering α} {k : α → Noted η β}
    {w : Workspace} {n : η} {b : β} {t : Workspace × η} :
    (onWorkspace m >>= k) (w, n) = .ok b t ↔ ∃ a w', m w = .ok a w' ∧ k a (w', n) = .ok b t := by
  rw [bind_eq_ok]
  constructor
  · rintro ⟨a, ⟨w', n'⟩, h, hk⟩
    obtain ⟨hm, rfl⟩ := onWorkspace_eq_ok.1 h
    exact ⟨a, w', hm, hk⟩
  · rintro ⟨a, w', hm, hk⟩
    exact ⟨a, (w', n), onWorkspace_eq_ok.2 ⟨hm, rfl⟩, hk⟩

theorem withNotes_eq_ok {α : Type} {m : Noted η α} {w w' : Workspace} {n n' : η} {a : α} :
    withNotes m n w = .ok (a, n') w' ↔ m (w, n) = .ok a (w', n') := by
  unfold withNotes
  rcases m (w, n) with ⟨a, w, n⟩ | f <;> simp [and_assoc, and_left_comm, and_comm]

theorem runHook_eq_ok {hook : Hook η} {f : Fragment} {w w' : Workspace} {n n' : η}
    {body : List Stmt} :
    runHook hook f (w, n) = .ok body (w', n') ↔ hook w.program f n = .ok body n' ∧ w = w' := by
  unfold runHook
  cases h : hook w.program f n <;> simp [h, and_assoc, and_left_comm, and_comm]

/-- Each label gets the next variable, which becomes a local of the function. -/
theorem declareLabels_spec {type : Ty} {labels : List String} {vars : LabelVars}
    {w w' : Workspace} (h : declareLabels id type labels w = .ok vars w') :
    vars.map Prod.fst = labels ∧ vars.map (fun entry => entry.2.name) = labels ∧
    vars.map (fun entry => entry.2.id) = List.range' w.program.varCount labels.length ∧
    w'.program.types = w.program.types ∧ w'.program.size = w.program.size ∧
    w'.program.varCount = w.program.varCount + labels.length ∧
    w'.program.shareCount = w.program.shareCount ∧
    ∀ fn, w'.program.code? fn = if fn = id then
      (w.program.code? fn).map fun c => { c with locals := c.locals ++ vars.map Prod.snd }
      else w.program.code? fn := by
  induction labels generalizing vars w with
  | nil =>
      cases h
      refine ⟨rfl, rfl, rfl, rfl, rfl, rfl, rfl, fun fn => ?_⟩
      split <;> simp
  | cons l rest ih =>
      simp only [declareLabels, bind_eq_ok, pure_eq_ok] at h
      obtain ⟨v, w₁, ⟨⟩, _, w₂, ⟨⟩, more, w₃, hrest, rfl, rfl⟩ := h
      obtain ⟨hfst, hnamed, hids, htypes, hsize, hvars, hshares, hcode⟩ := ih hrest
      refine ⟨by simp [hfst], ?_, ?_, htypes.trans (Program.modifyFunc_types ..),
        hsize.trans (Program.modifyFunc_size ..), ?_,
        hshares.trans (Program.modifyFunc_shareCount ..), fun fn => ?_⟩
      · rw [List.map_cons, hnamed]
      · rw [List.map_cons, hids, List.length_cons, List.range'_succ]
        simp
      · rw [hvars, Program.modifyFunc_varCount, List.length_cons]
        change w.program.varCount + 1 + rest.length = _
        omega
      · rw [hcode fn, Program.code?_addLocal]
        split
        · simp [Program.code?, Program.func?, Function.comp_def]
        · rfl

/-- A fragment is a new function, and nothing else changes its code. -/
theorem makeFragment_spec {hook : Hook η} {result : Ty} {vars : LabelVars} {b : Block}
    {w w' : Workspace} {n n' : η} {setting : Stmt} {adopted : Nat}
    (h : makeFragment hook id result vars b (w, n) = .ok (setting, adopted) (w', n')) :
    ∃ t body, hook w.program ⟨b.label, b.stmts.map (convertStmt vars), vars⟩ n = .ok body n' ∧
      (∀ v, vars.lookup b.label = some v →
        setting = .expr (.assign (.ref v) (.lambda (w.program.size + 1) t))) ∧
      w'.program.types = w.program.types ∧ w'.program.size = w.program.size + 1 ∧
      w'.program.varCount = w.program.varCount ∧ w'.program.shareCount = w.program.shareCount ∧
      ∀ fn, w'.program.code? fn =
        if fn = w.program.size + 1 then some ⟨"", [], [], body⟩ else w.program.code? fn := by
  unfold makeFragment at h
  obtain ⟨body, ⟨w₁, n₁⟩, hbody, hmade⟩ := bind_eq_ok.1 h
  obtain ⟨hhook, rfl⟩ := runHook_eq_ok.1 hbody
  obtain ⟨hwork, rfl⟩ := onWorkspace_eq_ok.1 hmade
  simp only [bind_eq_ok, pure_eq_ok, Lowering.newFunc_eq_ok] at hwork
  obtain ⟨_, _, ⟨rfl, rfl⟩, _, w₃, hadopt, _, w₄, ⟨⟩, hsetting, rfl⟩ := hwork
  have hkeeps := (Lowering.keeps_of_adoptBody hadopt).program
  have hcode (fn : FuncId) : w₃.program.code? fn =
      if fn = w.program.size + 1 then some ⟨"", [], [], body⟩ else w.program.code? fn := by
    rw [hkeeps.code, Program.code?_setBody, Program.code?_newFunc]
    split <;> rfl
  obtain ⟨f, hf⟩ : ∃ f, w₃.program.func? (w.program.size + 1) = some f := by
    have hnew := hcode (w.program.size + 1)
    rw [if_pos rfl] at hnew
    exact (Option.map_eq_some_iff.1 hnew).imp fun _ h => h.1
  refine ⟨f.type, body, hhook, fun v hv => ?_, ?_, ?_, ?_, ?_, hcode⟩
  · cases hsetting
    rw [hv, Program.lambda, hf]
  · rw [hkeeps.types]
    simp
  · rw [hkeeps.size]
    simp
  · rw [hkeeps.varCount]
    simp
  · rw [hkeeps.shareCount]
    simp

/-- The fragments of several blocks are new functions, and nothing else changes
its code. -/
theorem makeFragments_spec {hook : Hook η} {result : Ty} {vars : LabelVars} {blocks : List Block}
    (hvars : ∀ b ∈ blocks, ∃ v, vars.lookup b.label = some v) {w w' : Workspace} {n n' : η}
    {settings : List Stmt} {adopted : Nat}
    (h : makeFragments hook id result vars blocks (w, n) = .ok (settings, adopted) (w', n')) :
    ∃ table, Fragments w'.program (HookBody hook w.program.types vars) vars blocks settings table ∧
      table.map Prod.snd = List.range' (w.program.size + 1) blocks.length ∧
      w'.program.types = w.program.types ∧ w'.program.size = w.program.size + blocks.length ∧
      w'.program.varCount = w.program.varCount ∧ w'.program.shareCount = w.program.shareCount ∧
      ∀ fn, fn ≤ w.program.size → w'.program.code? fn = w.program.code? fn := by
  induction blocks generalizing w n settings adopted with
  | nil =>
      cases h
      exact ⟨[], .nil, rfl, rfl, rfl, rfl, rfl, fun _ _ => rfl⟩
  | cons b blocks ih =>
      unfold makeFragments at h
      obtain ⟨⟨setting, _⟩, ⟨w₁, n₁⟩, hfirst, hmade⟩ := bind_eq_ok.1 h
      obtain ⟨⟨settings, _⟩, ⟨w₂, n₂⟩, hrest, ⟨⟩⟩ := bind_eq_ok.1 hmade
      obtain ⟨hvar, hvars⟩ := List.forall_mem_cons.1 hvars
      obtain ⟨t, body, hbody, hsetting, htypes₁, hsize₁, hcount₁, hshares₁, hcode₁⟩ :=
        makeFragment_spec hfirst
      obtain ⟨table, hfragments, hnumbers, htypes₂, hsize₂, hcount₂, hshares₂, hcode₂⟩ :=
        ih hvars hrest
      obtain ⟨v, hv⟩ := hvar
      rw [htypes₁] at hfragments
      have hfragment : w'.program.code? (w.program.size + 1) = some ⟨"", [], [], body⟩ := by
        rw [hcode₂ _ (by omega), hcode₁, if_pos rfl]
      refine ⟨(b.label, w.program.size + 1) :: table, ?_, ?_, htypes₂.trans htypes₁, ?_,
        hcount₂.trans hcount₁, hshares₂.trans hshares₁, fun fn hfn => ?_⟩
      · rw [hsetting v hv]
        exact .cons hv hfragment ⟨_, n, n₁, rfl, hbody⟩ hfragments
      · rw [List.map_cons, hnumbers, hsize₁, List.length_cons, List.range'_succ]
      · rw [hsize₂, hsize₁, List.length_cons]
        omega
      · rw [hcode₂ fn (by omega), hcode₁, if_neg (Nat.ne_of_lt (Nat.lt_succ_of_le hfn))]

/-- Numbering the statements of a body changes nothing else. -/
theorem shareBody_spec {p : Program} {c : Code} (hc : p.code? id = some c) :
    (∀ fn, (p.shareBody id).code? fn = if fn = id then
      some { c with body := c.body.mapIdx fun i s => s.share (p.shareCount + i) }
      else p.code? fn) ∧
    (p.shareBody id).size = p.size ∧ (p.shareBody id).types = p.types ∧
    (p.shareBody id).varCount = p.varCount ∧
    (p.shareBody id).shareCount = p.shareCount + c.body.length := by
  obtain ⟨f, hf, rfl⟩ := Option.map_eq_some_iff.1 hc
  refine ⟨fun fn => ?_, ?_⟩
  · rw [Program.shareBody, hf]
    refine (Program.code?_setBody p id fn _).trans ?_
    split
    · next heq => rw [heq, hc]; rfl
    · rfl
  · rw [Program.shareBody, hf]
    exact ⟨Program.modifyFunc_size .., Program.modifyFunc_types .., Program.modifyFunc_varCount ..,
      rfl⟩

theorem body_shareBody {p : Program} {c : Code} (hc : p.code? id = some c) :
    (((p.shareBody id).func? id).getD { name := "" }).body =
      c.body.mapIdx fun i s => s.share (p.shareCount + i) := by
  have hshared := (shareBody_spec hc).1 id
  rw [if_pos rfl] at hshared
  obtain ⟨f, hf, hfcode⟩ := Option.map_eq_some_iff.1 hshared
  rw [hf]
  exact congrArg Code.body hfcode

theorem exists_lookup_of_mem {α : Type} {entries : List (String × α)} {l : String}
    (h : l ∈ entries.map Prod.fst) : ∃ a, entries.lookup l = some a := by
  induction entries with
  | nil => cases h
  | cons entry rest ih =>
      obtain ⟨m, a⟩ := entry
      by_cases hm : l = m
      · exact ⟨a, by simp [hm]⟩
      · obtain ⟨a', ha'⟩ := ih ((List.mem_cons.1 h).resolve_left hm)
        exact ⟨a', by rw [List.lookup_cons, beq_false_of_ne hm]; exact ha'⟩

/-- The steps of removing the jumps of a function, and what is reported of them. -/
theorem eliminate_eq_ok {hook : Hook η} {result : Ty} {w w' : Workspace} {n n' : η} {r : Result}
    (h : eliminate hook id result (w, n) = .ok r (w', n')) :
    ∃ g settings w₁ w₂,
      Graph.build (((w.program.shareBody id).func? id).getD { name := "" }).body = .ok g ∧
      declareLabels id (.function result []) g.labels { w with program := w.program.shareBody id } =
        .ok r.labelVars w₁ ∧
      makeFragments hook id result r.labelVars g.labelled (w₁, n) =
        .ok (settings, r.adopted) (w₂, n') ∧
      w' = { w₂ with program := w₂.program.modifyFunc id fun f =>
        { f with body := settings ++ r.entry } } ∧
      r.entry = g.entry.stmts.map (convertStmt r.labelVars) ∧ r.fragments = settings.length ∧
      r.unreachable = g.unreachable ∧ r.dropped = g.blocks.foldl (fun n b => n + b.dropped) 0 := by
  unfold eliminate at h
  obtain ⟨_, w₁, ⟨⟩, hfunc⟩ := onWorkspace_bind_eq_ok.1 h
  obtain ⟨f, w₂, hf, hbuild⟩ := onWorkspace_bind_eq_ok.1 hfunc
  obtain ⟨rfl, rfl⟩ := Lowering.func_eq_ok.1 hf
  obtain ⟨g, w₃, hgraph, hdeclare⟩ := onWorkspace_bind_eq_ok.1 hbuild
  obtain ⟨hg, rfl⟩ := Lowering.lift_eq_ok.1 hgraph
  obtain ⟨vars, w₄, hvars, hmake⟩ := onWorkspace_bind_eq_ok.1 hdeclare
  obtain ⟨⟨settings, adopted⟩, ⟨w₅, n₅⟩, hmade, hset⟩ := bind_eq_ok.1 hmake
  obtain ⟨_, w₆, ⟨⟩, ⟨⟩⟩ := onWorkspace_bind_eq_ok.1 hset
  exact ⟨g, settings, w₄, w₅, hg, hvars, hmade, rfl, rfl, rfl, rfl, rfl⟩

/-- Removing the jumps of a function. -/
theorem eliminate_spec {hook : Hook η} {result : Ty} {w w' : Workspace} {n n' : η} {r : Result}
    (h : eliminate hook id result (w, n) = .ok r (w', n')) {c : Code}
    (hc : w.program.code? id = some c) :
    ∃ g settings table,
      Graph.build (c.body.mapIdx fun i s => s.share (w.program.shareCount + i)) = .ok g ∧
      Removes (HookBody hook w.program.types) id w.program w'.program g r.labelVars settings table ∧
      r.entry = g.entry.stmts.map (convertStmt r.labelVars) := by
  obtain ⟨g, settings, w₁, w₂, hg, hvars, hmade, rfl, hentry, -⟩ := eliminate_eq_ok h
  obtain ⟨hcode₁, hsize₁, htypes₁, hcount₁, hshares₁⟩ := shareBody_spec hc
  obtain ⟨hfst, hnamed, hids, htypes₂, hsize₂, hcount₂, hshares₂, hcode₂⟩ := declareLabels_spec hvars
  obtain ⟨table, hfragments, hnumbers, htypes₃, hsize₃, hcount₃, hshares₃, hcode₃⟩ :=
    makeFragments_spec (fun b hb => exists_lookup_of_mem (hfst ▸ List.mem_map_of_mem hb)) hmade
  simp only [hsize₁, htypes₁, hcount₁, hshares₁, hcode₁] at hids htypes₂ hsize₂ hcount₂ hshares₂ hcode₂
  rw [hsize₂] at hnumbers hsize₃ hcode₃
  rw [htypes₂] at hfragments htypes₃
  have hid : id ≤ w.program.size := by
    obtain ⟨f, hf, -⟩ := Option.map_eq_some_iff.1 hc
    exact (Program.isSome_func?.1 (Option.isSome_of_eq_some hf)).2
  have hnew : ∀ entry ∈ table, w.program.size < entry.2 := by
    intro entry hentry
    have hmem := hnumbers ▸ List.mem_map_of_mem (f := Prod.snd) hentry
    exact (List.mem_range'_1.1 hmem).1
  refine ⟨g, settings, table, ?_, ⟨?_, fun fn hfn hne => ?_, ?_, hfst, hnamed, hids, ?_, hnew,
    hnumbers, ?_,
    ?_, fun c' hc' => ?_⟩, hentry⟩
  · rw [← hg, body_shareBody hc]
  · exact (Program.modifyFunc_types ..).trans htypes₃
  · rw [Program.code?_setBody, if_neg hne, hcode₃ fn hfn, hcode₂, if_neg hne, if_neg hne]
  · rw [Program.code?_setBody, if_pos rfl, hcode₃ id hid, hcode₂, if_pos rfl, if_pos rfl, hc,
      hentry]
    rfl
  · refine hfragments.of_code fun entry hentry => ?_
    rw [Program.code?_setBody, if_neg (Nat.ne_of_gt (Nat.lt_of_le_of_lt hid (hnew entry hentry)))]
  · exact (Program.modifyFunc_size ..).trans hsize₃
  · exact (Program.modifyFunc_varCount ..).trans (hcount₃.trans hcount₂)
  · rw [hc, Option.some.injEq] at hc'
    rw [← hc']
    exact (Program.modifyFunc_shareCount ..).trans (hshares₃.trans hshares₂)

/-- What is reported of the graph. -/
theorem eliminate_report {hook : Hook η} {result : Ty} {w w' : Workspace} {n n' : η}
    {r : Result} (h : eliminate hook id result (w, n) = .ok r (w', n')) {c : Code}
    (hc : w.program.code? id = some c) {g : Graph}
    (hg : Graph.build (c.body.mapIdx fun i s => s.share (w.program.shareCount + i)) = .ok g) :
    r.unreachable = g.unreachable ∧ r.dropped = g.blocks.foldl (fun n b => n + b.dropped) 0 := by
  obtain ⟨g', settings, w₁, w₂, hg', -, -, -, -, -, hreport⟩ := eliminate_eq_ok h
  rw [body_shareBody hc, hg] at hg'
  cases hg'
  exact hreport

/-! ## The number of new functions -/

theorem makeFragments_size {hook : Hook η} {result : Ty} {vars : LabelVars} {blocks : List Block}
    {w w' : Workspace} {n n' : η} {settings : List Stmt} {adopted : Nat}
    (h : makeFragments hook id result vars blocks (w, n) = .ok (settings, adopted) (w', n')) :
    w'.program.size = w.program.size + settings.length := by
  induction blocks generalizing w n settings adopted with
  | nil =>
      cases h
      rfl
  | cons b blocks ih =>
      unfold makeFragments at h
      obtain ⟨⟨setting, _⟩, ⟨w₁, n₁⟩, hfirst, hmade⟩ := bind_eq_ok.1 h
      obtain ⟨⟨settings, _⟩, ⟨w₂, n₂⟩, hrest, ⟨⟩⟩ := bind_eq_ok.1 hmade
      obtain ⟨t, body, -, -, -, hsize, -⟩ := makeFragment_spec hfirst
      rw [ih hrest, hsize, List.length_cons]
      omega

theorem shareBody_size (p : Program) (id : FuncId) : (p.shareBody id).size = p.size := by
  unfold Program.shareBody
  split
  · rfl
  · exact Program.modifyFunc_size ..

/-- Removing jumps makes one function for each fragment it reports. -/
theorem eliminate_size {hook : Hook η} {result : Ty} {w w' : Workspace} {n n' : η} {r : Result}
    (h : eliminate hook id result (w, n) = .ok r (w', n')) :
    w'.program.size = w.program.size + r.fragments := by
  obtain ⟨g, settings, w₁, w₂, -, hvars, hmade, rfl, -, hfragments, -⟩ := eliminate_eq_ok h
  obtain ⟨-, -, -, -, hlabels, -⟩ := declareLabels_spec hvars
  change (Program.modifyFunc ..).size = _
  rw [Program.modifyFunc_size, makeFragments_size hmade, hlabels]
  change (w.program.shareBody id).size + _ = _
  rw [shareBody_size, hfragments]

end

end Resumable.Elimination
