import Mathlib.Data.List.Nodup
import Resumable.Proofs.Jump.Simulation
import Resumable.Proofs.Jump.Elimination

/-!
# The settings of label variables

A function without jumps starts by setting its label variables. Afterwards each
of them holds the fragment of its label, and nothing else has changed that a
pairing could see.
-/

namespace Resumable

open Machine

/-! ## All settings -/

/-- A store after the settings of variables in a frame, none of which has a part
in a pairing. -/
structure SetIn (j : FrameId) (names : Nat → Prop) (σ τ : Store) : Prop where
  beyond : ∀ P : Pairing, ¬ P.Knows j → Beyond P σ τ
  size : τ.frames.size = σ.frames.size
  others : ∀ x, ¬ names x → τ.binding j x = σ.binding j x

theorem SetIn.trans {j : FrameId} {names : Nat → Prop} {σ τ υ : Store}
    (first : SetIn j names σ τ) (second : SetIn j names τ υ) : SetIn j names σ υ where
  beyond P hj := (first.beyond P hj).trans (second.beyond P hj)
  size := second.size.trans first.size
  others x hx := (second.others x hx).trans (first.others x hx)

theorem SetIn.setting {j : FrameId} {names : Nat → Prop} {σ : Store} (hj : j < σ.frames.size)
    {v : Variable} (hv : names v.id) (x : Value) :
    SetIn j names σ (σ.newTag.2.setBinding j v x) where
  beyond P hP := (Beyond.newTag P σ).trans (Beyond.setBinding hP v x)
  size := by simp [Store.newTag, Store.setBinding]
  others y hy := by
    rw [Store.binding_setBinding (by exact hj), if_neg (by rintro ⟨-, rfl⟩; exact hy hv)]
    rfl

/-! ## Activations with further locals -/

/-- Locals that one side does not have play no part elsewhere. -/
theorem OptionPair.activation_append {S : Sides} {P : Pairing} {f f' : Func} {more : List Variable}
    (hparams : f'.params = f.params) (hlocals : f'.locals = f.locals ++ more)
    {args args' : List Value} (hargs : List.Forall₂ (ValuePair S P) args args') {x : Nat}
    (hx : x ∉ more.map (·.id)) :
    OptionPair S P ((Machine.activation f args).lookup x) ((Machine.activation f' args').lookup x) := by
  rw [activation_eq, activation_eq, Bindings.lookup_bindAll_null, Bindings.lookup_bindAll_null,
    hparams, hlocals, List.map_append]
  by_cases hlocal : x ∈ f.locals.map (·.id)
  · rw [if_pos hlocal, if_pos (List.mem_append_left _ hlocal)]
    exact .some .null
  · rw [if_neg hlocal, if_neg (by simp only [List.mem_append, not_or]; exact ⟨hlocal, hx⟩)]
    exact OptionPair.bindAll (fun _ => .none) f.params (List.rel_append hargs (nullsPair _)) x

/-- Frames of activations of two functions, of which the second has further locals,
become the frames of an activation once the label variables among them are set. -/
theorem StorePair.root {S : Sides} {L : Layout} {P : Pairing} {σ τ : Store}
    (hσ : StorePair S P σ τ) {f f' : Func} {added : List Variable} (hparams : f'.params = f.params)
    (hlocals : f'.locals = f.locals ++ added) {args args' : List Value}
    (hargs : List.Forall₂ (ValuePair S P) args args') {i j : FrameId} (hi : i < σ.frames.size)
    (hj : j < τ.frames.size) (hfresh : ¬ P.Knows j) (haway : ¬ S.aside.frame j)
    (hlast : ∀ {a b}, P.frame a b → a < i ∧ b < j)
    (hsource : ∀ x, σ.binding i x = (activation f args).lookup x)
    (htarget : ∀ x, x ∉ added.map (·.id) → τ.binding j x = (activation f' args').lookup x)
    (hbound : ∀ v ∈ added, (τ.binding j v.id).isSome) (hnew : ∀ v ∈ added, ¬ L.Reads v.id)
    {env env' : Env} (hvars : ∀ l v, L.vars.lookup l = some v → v ∈ added ∧
      ∃ tag, τ.binding j v.id = some (.closure tag (L.fragment l) (j :: env')))
    (henv : ∀ x, L.Reads x → P.Agrees S x env env') :
    ∃ Q, P ≤ Q ∧ StorePair S Q σ τ ∧ Root S L Q (i :: env) (j :: env') := by
  let hid (x : Nat) (v : Value) : Prop := x ∈ added.map (·.id) ∧ τ.binding j x = some v
  have hle := Pairing.le_addFrame i (fun _ => False) hid hfresh
  refine ⟨_, hle, hσ.pairFrames (fun _ => False) hid hi hj hfresh haway hlast (fun _ h => h.elim)
    (fun x hx => ?_) (fun x v hv => hv.2), .mk (.inr ⟨rfl, rfl⟩) ?_ (fun x hx => (henv x hx).mono hle)
      fun l v hv => ?_⟩
  · have hother : x ∉ added.map (·.id) := by
      intro hmem
      obtain ⟨v, hv, rfl⟩ := List.mem_map.1 hmem
      obtain ⟨value, hvalue⟩ := Option.isSome_iff_exists.1 (hbound v hv)
      exact hx ⟨value, hmem, hvalue⟩
    rw [hsource, htarget x hother]
    exact OptionPair.activation_append hparams hlocals hargs hother
  · rintro x hx ⟨v, hv | ⟨-, hv, -⟩⟩
    · exact hfresh (hσ.placed hv)
    · obtain ⟨u, hu, rfl⟩ := List.mem_map.1 hv
      exact hnew u hu hx
  · obtain ⟨hmem, tag, htag⟩ := hvars l v hv
    exact ⟨tag, .inr ⟨rfl, List.mem_map_of_mem hmem, htag⟩⟩

namespace Elimination.Fragments

variable {p : Program} {Body : Block → List Stmt → Prop} {vars : LabelVars}

/-- The settings of the label variables of some blocks lead to the code after
them, with the fragments in the variables. -/
theorem runs_settings {blocks : List Block} {settings : List Stmt} {table : List (String × FuncId)}
    (h : Fragments p Body vars blocks settings table)
    (hlabels : (blocks.map Block.label).Nodup)
    (hids : ∀ {l m v u}, vars.lookup l = some v → vars.lookup m = some u → v.id = u.id → l = m)
    {j : FrameId} {σ : Store} (hj : j < σ.frames.size)
    (hbound : ∀ {l v}, vars.lookup l = some v → (σ.binding j v.id).isSome) (env : Env)
    (rest : List Stmt) (stack : List Waiting) (depth : Nat) :
    ∃ τ, Steps (free p) (fun s => callee? s = none)
        ⟨.complete .normal, .block (settings ++ rest) (j :: env) :: stack, depth, σ⟩
        ⟨.complete .normal, .block rest (j :: env) :: stack, depth, τ⟩ ∧
      SetIn j (fun x => ∃ b ∈ blocks, ∃ v, vars.lookup b.label = some v ∧ v.id = x) σ τ ∧
      ∀ b ∈ blocks, ∀ v, vars.lookup b.label = some v → ∃ tag fn, table.lookup b.label = some fn ∧
        τ.binding j v.id = some (.closure tag fn (j :: env)) := by
  induction h generalizing σ with
  | nil => exact ⟨σ, .refl _, ⟨fun P _ => Beyond.refl P σ, rfl, fun _ _ => rfl⟩, by simp⟩
  | @cons b v fn t body blocks settings table hv hfn _ _ ih =>
      obtain ⟨hb, hlabels⟩ := List.nodup_cons.1 hlabels
      let value : Value := .closure σ.tags fn (j :: env)
      have hset : SetIn j (fun x => ∃ b' ∈ b :: blocks, ∃ v, vars.lookup b'.label = some v ∧ v.id = x)
          σ (σ.newTag.2.setBinding j v value) := .setting hj ⟨b, .head _, v, hv, rfl⟩ value
      have hkept {l : String} {u : Variable} (hu : vars.lookup l = some u) :
          ((σ.newTag.2.setBinding j v value).binding j u.id).isSome := by
        rw [Store.binding_setBinding (by exact hj)]
        split
        · rfl
        · exact hbound hu
      obtain ⟨τ, hruns, hrest, hvars⟩ := ih hlabels (hset.size ▸ hj) hkept
      obtain ⟨f, hf, -⟩ := Option.map_eq_some_iff.1 hfn
      have hsetting {s s' : State}
          (h : Steps (free p) (fun s => Calm (· = fn) s ∧ callee? s = none) s s') :
          Steps (free p) (fun s => callee? s = none) s s' :=
        h.transfer fun _ hs => ⟨hs.2, rfl⟩
      refine ⟨τ, (hsetting (runs_setting hf (hbound hv))).trans hruns,
        hset.trans ⟨hrest.beyond, hrest.size,
        fun x hx => hrest.others x fun ⟨b', hb', hfound⟩ => hx ⟨b', .tail _ hb', hfound⟩⟩, ?_⟩
      intro b' hb' u hu
      rcases List.mem_cons.1 hb' with rfl | hb'
      · obtain rfl : v = u := Option.some.inj (hv.symm.trans hu)
        refine ⟨σ.tags, fn, by simp, ?_⟩
        rw [hrest.others, Store.binding_setBinding (by exact hj), if_pos ⟨rfl, rfl⟩]
        rintro ⟨b'', hb'', w, hw, hid⟩
        exact hb (List.mem_map.2 ⟨b'', hb'', hids hw hv hid⟩)
      · obtain ⟨tag, fn', htable, hbinding⟩ := hvars b' hb' u hu
        refine ⟨tag, fn', ?_, hbinding⟩
        have hne : b'.label ≠ b.label := fun heq => hb (List.mem_map.2 ⟨b', hb', heq⟩)
        rw [List.lookup_cons, beq_false_of_ne hne]
        exact htable

end Elimination.Fragments

/-! ## Variables of labels -/

namespace Elimination.Removes

variable {Body : LabelVars → Block → List Stmt → Prop} {id : FuncId} {p p' : Program} {g : Graph}
  {vars : LabelVars} {settings : List Stmt} {table : List (String × FuncId)}

theorem lookup_of_mem {α : Type} {entries : List (String × α)} (hnodup : (entries.map Prod.fst).Nodup)
    {l : String} {a : α} (h : (l, a) ∈ entries) : entries.lookup l = some a := by
  induction entries with
  | nil => cases h
  | cons entry rest ih =>
      obtain ⟨hne, hnodup⟩ := List.nodup_cons.1 hnodup
      rcases List.mem_cons.1 h with rfl | h
      · simp
      · have hl : l ≠ entry.1 := fun heq => hne (heq ▸ List.mem_map_of_mem h)
        rw [List.lookup_cons, beq_false_of_ne hl]
        exact ih hnodup h

theorem mem_of_lookup {κ α : Type} [BEq κ] [LawfulBEq κ] {entries : List (κ × α)} {l : κ} {a : α}
    (h : entries.lookup l = some a) : (l, a) ∈ entries := by
  obtain ⟨l₁, l₂, hsplit, -⟩ := List.lookup_eq_some_iff.1 h
  simp [hsplit]

/-- The variables of labels are new. -/
theorem le_id (h : Removes Body id p p' g vars settings table) {entry : String × Variable}
    (hentry : entry ∈ vars) : p.varCount ≤ entry.2.id := by
  have hmem : entry.2.id ∈ vars.map fun entry => entry.2.id := List.mem_map_of_mem hentry
  rw [h.ids, List.mem_range'_1] at hmem
  exact hmem.1

/-- Different labels have different variables. -/
theorem eq_of_id_eq {first count : Nat}
    (hids : vars.map (fun entry => entry.2.id) = List.range' first count) {l m : String}
    {v u : Variable} (hv : vars.lookup l = some v) (hu : vars.lookup m = some u)
    (heq : v.id = u.id) : l = m := by
  have hnodup : (vars.map fun entry => entry.2.id).Nodup := by
    rw [hids]
    exact List.nodup_range'
  exact congrArg Prod.fst
    (List.inj_on_of_nodup_map hnodup (mem_of_lookup hv) (mem_of_lookup hu) heq)

end Elimination.Removes

/-- All label variables are set. -/
theorem Elimination.Fragments.runs_all {p : Program} {Body : Block → List Stmt → Prop}
    {vars : LabelVars} {g : Graph} {settings : List Stmt} {table : List (String × FuncId)}
    (h : Fragments p Body vars g.labelled settings table) (hnodup : g.labels.Nodup)
    (hlabels : vars.map Prod.fst = g.labels) {first count : Nat}
    (hids : vars.map (fun entry => entry.2.id) = List.range' first count) {j : FrameId} {σ : Store}
    (hj : j < σ.frames.size) (hbound : ∀ {l v}, vars.lookup l = some v → (σ.binding j v.id).isSome)
    (env : Env) (rest : List Stmt) (stack : List Waiting) (depth : Nat) :
    ∃ τ, Steps (free p) (fun s => callee? s = none)
        ⟨.complete .normal, .block (settings ++ rest) (j :: env) :: stack, depth, σ⟩
        ⟨.complete .normal, .block rest (j :: env) :: stack, depth, τ⟩ ∧
      SetIn j (∃ v ∈ vars.map Prod.snd, v.id = ·) σ τ ∧
      ∀ {l v}, vars.lookup l = some v → ∃ tag, τ.binding j v.id =
        some (.closure tag ((table.lookup l).getD noFunc) (j :: env)) := by
  obtain ⟨τ, hruns, hset, hvars⟩ := h.runs_settings hnodup
    (fun hv hu => Removes.eq_of_id_eq hids hv hu) hj hbound env rest stack depth
  refine ⟨τ, hruns, { hset with others := fun x hx => hset.others x ?_ }, fun {l v} hv => ?_⟩
  · rintro ⟨b, _, v, hv, rfl⟩
    exact hx ⟨v, List.mem_map_of_mem (Removes.mem_of_lookup hv), rfl⟩
  · have hl : l ∈ g.labels := hlabels ▸ List.mem_map_of_mem (Removes.mem_of_lookup hv)
    obtain ⟨b, hb, rfl⟩ := List.mem_map.1 hl
    obtain ⟨tag, fn, htable, hclosure⟩ := hvars b hb v hv
    exact ⟨tag, by rw [htable]; exact hclosure⟩

end Resumable
