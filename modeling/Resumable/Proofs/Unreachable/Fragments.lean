import Resumable.Proofs.Hygiene.Laid
import Resumable.Proofs.Unreachable.Exchange
import Resumable.Proofs.Unreachable.Reachability

/-!
# The fragments of labels that no jump goes to

Once its jumps are removed, a function sets the variable of each label and
mentions it again only where a jump to the label was. A set of labels that no
jump of its blocks leaves therefore puts a seal on the fragments of all others.
-/

namespace Resumable

def Program.Adds (p p' : Program) (fn : FuncId) : Prop :=
  p.func? fn = none ∧ (p'.func? fn).isSome

theorem Program.adds_iff {p p' : Program} {fn : FuncId} :
    p.Adds p' fn ↔ p.size < fn ∧ ¬ p'.size < fn := by
  rw [Adds, ← Option.not_isSome_iff_eq_none, isSome_func?, isSome_func?]
  omega

namespace Seal

variable {S S' : Seal} {body : List Stmt}

theorem clearCode_iff : S.ClearCode body ↔
    (∀ v ∈ bodyRefs body, ¬ S.var v.id) ∧ ∀ fn ∈ bodyLiterals body, ¬ S.func fn := by
  rw [bodyRefs_eq, bodyLiterals_eq]
  simp only [ClearCode, List.mem_flatMap, forall_exists_index, and_imp]
  exact ⟨fun h => ⟨fun v s hs e he hv => (h s hs e he).1 v hv,
      fun fn s hs e he hfn => (h s hs e he).2 fn hfn⟩,
    fun h s hs e he => ⟨fun v hv => h.1 v s hs e he hv, fun fn hfn => h.2 fn s hs e he hfn⟩⟩

theorem clearCode_of_mentioned (hrefs : Mentioned (fun v => ¬ S.var v.id) body)
    (hliterals : ∀ fn ∈ bodyLiterals body, ¬ S.func fn) : S.ClearCode body :=
  clearCode_iff.2 ⟨fun v hv => hrefs v (mem_mentions_of_refs hv), hliterals⟩

/-- The seal on all functions of a kind, wherever they are kept. -/
def on (func : FuncId → Prop) : Seal :=
  ⟨fun _ => False, func⟩

theorem Free.mono (hfunc : ∀ fn, S.func fn → S'.func fn) {v : Value} (h : S'.Free v) : S.Free v := by
  cases v with
  | closure tag fn env => exact fun hfn => h (hfunc fn hfn)
  | _ => trivial

theorem ClearStore.mono (hvar : ∀ x, S'.var x → S.var x) (hfunc : ∀ fn, S.func fn → S'.func fn)
    {σ : Store} (h : S'.ClearStore σ) : S.ClearStore σ where
  globals b hb := (h.globals b hb).imp (hvar b.1) (Free.mono hfunc)
  frames bs hbs b hb := (h.frames bs hbs b hb).imp (hvar b.1) (Free.mono hfunc)
  objects fs hfs f hf := (h.objects fs hfs f hf).mono hfunc

end Seal

namespace Elimination

open Seal

def setsTo (x : Variable) (fn : FuncId) : Stmt → Bool
  | .simple (.expr (.assign (.ref v) (.lambda g _))) _ => v.id = x.id && g = fn
  | _ => false

/-- Whether a function is the fragment of a label: the body of the lowered function
sets the variable of the label to it. -/
def isFragment (p : Program) (id : FuncId) (vars : LabelVars) (l : String) (fn : FuncId) : Bool :=
  (vars.lookup l).any fun v => (p.bodyOf id).any (setsTo v fn)

def sealOn (vars : LabelVars) (table : List (String × FuncId)) (live : String → Prop) : Seal where
  var x := ∃ entry ∈ vars, ¬ live entry.1 ∧ entry.2.id = x
  func fn := ∃ entry ∈ table, ¬ live entry.1 ∧ entry.2 = fn

/-- What stands in the table of fragments. -/
theorem Fragments.of_mem_table {p : Program} {Body : Block → List Stmt → Prop} {vars : LabelVars}
    {blocks : List Block} {settings : List Stmt} {table : List (String × FuncId)}
    (h : Fragments p Body vars blocks settings table) {entry : String × FuncId}
    (hentry : entry ∈ table) : ∃ b ∈ blocks, ∃ v t body, b.label = entry.1 ∧
      vars.lookup entry.1 = some v ∧ .expr (.assign (.ref v) (.lambda entry.2 t)) ∈ settings ∧
      p.code? entry.2 = some ⟨"", [], [], body⟩ ∧ Body b body := by
  induction h with
  | nil => cases hentry
  | @cons b v fn t body blocks settings table hv hfn hbody _ ih =>
      rcases List.mem_cons.1 hentry with rfl | hentry
      · exact ⟨b, .head _, v, t, body, rfl, hv, .head _, hfn, hbody⟩
      · obtain ⟨b', hb', v', t', body', hlabel, hv', hset, hrest⟩ := ih hentry
        exact ⟨b', .tail _ hb', v', t', body', hlabel, hv', .tail _ hset, hrest⟩

/-- What stands in the settings. -/
theorem Fragments.of_mem_settings {p : Program} {Body : Block → List Stmt → Prop}
    {vars : LabelVars} {blocks : List Block} {settings : List Stmt} {table : List (String × FuncId)}
    (h : Fragments p Body vars blocks settings table) {s : Stmt} (hs : s ∈ settings) :
    ∃ l v fn t, (l, fn) ∈ table ∧ vars.lookup l = some v ∧
      s = .expr (.assign (.ref v) (.lambda fn t)) := by
  induction h with
  | nil => cases hs
  | @cons b v fn t _ _ _ _ hv _ _ _ ih =>
      rcases List.mem_cons.1 hs with rfl | hs
      · exact ⟨b.label, v, fn, t, .head _, hv, rfl⟩
      · obtain ⟨l, v', fn', t', hmem, hrest⟩ := ih hs
        exact ⟨l, v', fn', t', .tail _ hmem, hrest⟩

namespace Removes

variable {Body : LabelVars → Block → List Stmt → Prop} {id : FuncId} {p p' q : Program} {g : Graph}
  {vars : LabelVars} {settings : List Stmt} {table : List (String × FuncId)} {live : String → Prop}
  (h : Removes Body id p p' g vars settings table)

include h

theorem not_var_of_lt {x : Nat} (hx : x < p.varCount) : ¬ (sealOn vars table live).var x := by
  rintro ⟨entry, hentry, -, rfl⟩
  exact Nat.not_lt.2 (h.le_id hentry) hx

theorem not_var_of_live {l : String} (hl : live l) {v : Variable} (hv : vars.lookup l = some v) :
    ¬ (sealOn vars table live).var v.id := by
  rintro ⟨⟨m, u⟩, hentry, hdead, heq⟩
  have hnodup : (vars.map fun entry => entry.2.id).Nodup := by
    rw [h.ids]
    exact List.nodup_range'
  cases List.inj_on_of_nodup_map hnodup hentry (mem_of_lookup hv) heq
  exact hdead hl

/-- Different labels have different fragments. -/
theorem eq_of_fn_eq {entry other : String × FuncId} (hentry : entry ∈ table) (hother : other ∈ table)
    (heq : entry.2 = other.2) : entry = other := by
  have hnodup : (table.map Prod.snd).Nodup := by
    rw [h.numbers]
    exact List.nodup_range'
  exact List.inj_on_of_nodup_map hnodup hentry hother heq

theorem not_func_of_live {l : String} (hl : live l) {fn : FuncId} (hfn : (l, fn) ∈ table) :
    ¬ (sealOn vars table live).func fn := by
  rintro ⟨entry, hentry, hdead, heq⟩
  rw [h.eq_of_fn_eq hentry hfn heq] at hdead
  exact hdead hl

/-- Every new function stands in the table. -/
theorem exists_label {fn : FuncId} (hfn : p.Adds p' fn) : ∃ l, (l, fn) ∈ table := by
  have hmem : fn ∈ table.map Prod.snd := by
    rw [Program.adds_iff, h.size] at hfn
    rw [h.numbers, List.mem_range'_1]
    omega
  obtain ⟨⟨l, _⟩, hentry, rfl⟩ := List.mem_map.1 hmem
  exact ⟨l, hentry⟩

theorem adds_of_mem_table {entry : String × FuncId} (hentry : entry ∈ table) :
    p.Adds p' entry.2 := by
  have hmem : entry.2 ∈ List.range' (p.size + 1) g.labelled.length :=
    h.numbers ▸ List.mem_map_of_mem hentry
  rw [List.mem_range'_1] at hmem
  rw [Program.adds_iff, h.size]
  omega

/-- The settings mention what is under the seal only to set it. -/
theorem admits_settings : (sealOn vars table live).Admits settings := by
  intro s hs
  obtain ⟨l, v, fn, t, hmem, hv, rfl⟩ := h.fragments.of_mem_settings hs
  by_cases hl : live l
  · refine .inr (clearCode_of_mentioned ?_ ?_)
    · simpa [Simple.slots] using h.not_var_of_live hl hv
    · simpa [Simple.slots] using h.not_func_of_live hl hmem
  · exact .inl ⟨v, fn, t, none, rfl, (l, v), mem_of_lookup hv, hl, rfl⟩

/-- The converted statements of a living block. -/
theorem convert_clear {stmts : List Stmt}
    (hrefs : Mentioned (fun v => ¬ (sealOn vars table live).var v.id) stmts)
    (htargets : ∀ s ∈ stmts, ∀ l ∈ s.targets, live l) :
    Mentioned (fun v => ¬ (sealOn vars table live).var v.id) (stmts.map (convertStmt vars)) :=
  mentioned_map_convertStmt
    (fun s hs l hl _ hv => h.not_var_of_live (htargets s hs l hl) hv) hrefs

/-- The program keeps the seal if all code that was there before is clear, and so
are the fragments of living blocks. -/
theorem guards (hq : ∀ fn, fn ≠ id → q.code? fn = p'.code? fn)
    (hown : (sealOn vars table live).Admits (q.bodyOf id))
    (hothers : ∀ fn, fn ≠ id → (sealOn vars table live).ClearCode (p.bodyOf fn))
    (hbodies : ∀ b ∈ g.labelled, live b.label → ∀ body, Body vars b body →
      (sealOn vars table live).ClearCode body) :
    (sealOn vars table live).Guards q := by
  intro fn f hf hfree
  have hbody : q.bodyOf fn = f.body := by rw [Program.bodyOf, hf]; rfl
  rw [← hbody]
  by_cases hid : fn = id
  · exact hid ▸ hown
  · have hcode : p'.code? fn = some f.code := (hq fn hid).symm.trans (by rw [Program.code?, hf]; rfl)
    refine .of_code ?_
    by_cases hold : fn ≤ p.size
    · rw [h.others fn hold hid] at hcode
      have hsame : q.bodyOf fn = p.bodyOf fn := by
        rw [hbody, Program.bodyOf_eq_code?, hcode]
        rfl
      exact hsame ▸ hothers fn hid
    · have hnew : (p'.func? fn).isSome := by
        obtain ⟨f', hf', -⟩ := Option.map_eq_some_iff.1 hcode
        exact Option.isSome_of_eq_some hf'
      obtain ⟨l, hl⟩ := h.exists_label
        (Program.adds_iff.2 ⟨Nat.lt_of_not_le hold, Nat.not_lt.2 (Program.isSome_func?.1 hnew).2⟩)
      obtain ⟨b, hb, v, t, body, rfl, -, -, hfragment, hbodies'⟩ := h.fragments.of_mem_table hl
      have hlive : live b.label := by
        by_contra hdead
        exact hfree ⟨_, hl, hdead, rfl⟩
      have hsame : q.bodyOf fn = body := by
        rw [hbody]
        exact congrArg Code.body (Option.some.inj (hcode.symm.trans hfragment))
      exact hsame ▸ hbodies b hb hlive body hbodies'

end Removes

end Elimination

end Resumable
