import Resumable.Proofs.Jump.Settings
import Resumable.Proofs.Rule

/-!
# Functions that are closed off

A seal names some functions and the variables they are kept in. Where no code
mentions these but to set such a variable, no run gets hold of a function under
the seal: whatever it computes, stores, throws or returns is free of them, so it
never calls one.
-/

namespace Resumable

/-- Functions that are closed off, and the variables they are kept in. -/
structure Seal where
  var : Nat → Prop
  func : FuncId → Prop

namespace Seal

open Elimination.Removes (mem_of_lookup)

variable (S : Seal)

def Free : Value → Prop
  | .closure _ fn _ => ¬ S.func fn
  | _ => True

def Clear (e : Expr) : Prop :=
  (∀ v ∈ e.vars, ¬ S.var v.id) ∧ ∀ fn ∈ e.literals, ¬ S.func fn

def Sets (s : Stmt) : Prop :=
  ∃ x fn t share, s = .simple (.expr (.assign (.ref x) (.lambda fn t))) share ∧ S.var x.id

def ClearBindings (bs : Bindings) : Prop :=
  ∀ b ∈ bs, S.var b.1 ∨ S.Free b.2

def ClearFields (fs : Fields) : Prop :=
  ∀ f ∈ fs, S.Free f.2

/-- A store in which only variables under the seal hold functions under the
seal. -/
structure ClearStore (σ : Store) : Prop where
  globals : S.ClearBindings σ.globals
  frames : ∀ bs ∈ σ.frames, S.ClearBindings bs
  objects : ∀ fs ∈ σ.objects, S.ClearFields fs

/-- What a run keeps that gets hold of nothing under the seal. -/
def rule : Rule where
  expr := S.Clear
  target := S.Clear
  value := S.Free
  func := fun fn => ¬ S.func fn
  store := S.ClearStore
  apart := S.Sets

abbrev ClearCode (body : List Stmt) : Prop :=
  S.rule.Code body

abbrev Admits (body : List Stmt) : Prop :=
  S.rule.Admits body

def Guards (p : Program) : Prop :=
  ∀ fn f, p.func? fn = some f → ¬ S.func fn → S.Admits f.body

variable {S}

/-! ## Stores -/

section

variable {σ : Store} {bs : Bindings} {fs : Fields} {v : Variable} {x : Value} {env : Env}

theorem ClearBindings.bind (h : S.ClearBindings bs) (hx : S.var v.id ∨ S.Free x) :
    S.ClearBindings (bs.bind v x) := by
  induction bs with
  | nil => exact fun b hb => by obtain rfl := List.mem_singleton.1 hb; exact hx
  | cons entry bs ih =>
      obtain ⟨id, y⟩ := entry
      obtain ⟨hentry, hrest⟩ := List.forall_mem_cons.1 h
      rw [Bindings.bind]
      split
      · next heq => exact List.forall_mem_cons.2 ⟨heq ▸ hx, hrest⟩
      · exact List.forall_mem_cons.2 ⟨hentry, ih hrest⟩

theorem ClearFields.set (h : S.ClearFields fs) (hx : S.Free x) (name : Key) :
    S.ClearFields (fs.set name x) := by
  induction fs with
  | nil => exact fun f hf => by obtain rfl := List.mem_singleton.1 hf; exact hx
  | cons entry fs ih =>
      obtain ⟨other, y⟩ := entry
      obtain ⟨hentry, hrest⟩ := List.forall_mem_cons.1 h
      rw [Fields.set]
      split
      · exact List.forall_mem_cons.2 ⟨hx, hrest⟩
      · split
        · exact List.forall_mem_cons.2 ⟨hx, h⟩
        · exact List.forall_mem_cons.2 ⟨hentry, ih hrest⟩

theorem ClearFields.get (h : S.ClearFields fs) (name : Key) : S.Free (fs.get name) := by
  rw [Fields.get]
  cases hname : fs.lookup name with
  | none => trivial
  | some x => exact h (name, x) (mem_of_lookup hname)

theorem ClearFields.erase (h : S.ClearFields fs) (name : Key) : S.ClearFields (fs.erase name) :=
  fun f hf => h f (List.mem_filter.1 hf).1

namespace ClearStore

variable (h : S.ClearStore σ)

include h

theorem fields (ref : Nat) : S.ClearFields (σ.fields ref) := by
  rw [Store.fields, Array.getD_eq_getD_getElem?]
  cases href : σ.objects[ref]? with
  | none => exact fun f hf => absurd hf List.not_mem_nil
  | some fs => exact h.objects fs (Array.mem_of_getElem? href)

theorem frame (f : FrameId) : S.ClearBindings (σ.frames.getD f []) := by
  rw [Array.getD_eq_getD_getElem?]
  cases hf : σ.frames[f]? with
  | none => exact fun b hb => absurd hb List.not_mem_nil
  | some bs => exact h.frames bs (Array.mem_of_getElem? hf)

/-- A variable that is not under the seal has a free value. -/
theorem lookup (hv : ¬ S.var v.id) (hx : σ.lookup env v = .ok x) : S.Free x := by
  have hfound {bs : Bindings} (hbs : S.ClearBindings bs) {y : Value} (hy : bs.get? v = some y) :
      S.Free y :=
    (hbs (v.id, y) (mem_of_lookup hy)).resolve_left hv
  simp only [Store.lookup] at hx
  cases hframe : σ.frameOf? v env with
  | none =>
      simp only [hframe] at hx
      cases hy : Bindings.get? σ.globals v with
      | none =>
          simp only [hy] at hx
          cases hx
      | some y =>
          simp only [hy, Except.ok.injEq] at hx
          exact hx ▸ hfound h.globals hy
  | some f =>
      simp only [hframe] at hx
      cases hy : Bindings.get? (σ.frames.getD f []) v with
      | none =>
          simp only [hy] at hx
          cases hx
      | some y =>
          simp only [hy, Except.ok.injEq] at hx
          exact hx ▸ hfound (h.frame f) hy

theorem assign (hx : S.var v.id ∨ S.Free x) : S.ClearStore (σ.assign env v x) := by
  rw [Store.assign]
  split
  · refine { h with frames := fun bs hbs => ?_ }
    obtain ⟨i, hi, rfl⟩ := Array.mem_iff_getElem.1 hbs
    rw [Array.getElem_modify]
    have hold := h.frames _ (Array.getElem_mem (by simpa using hi))
    split
    · exact hold.bind hx
    · exact hold
  · split
    · exact { h with globals := h.globals.bind hx }
    · exact h

theorem newFrame (hbs : S.ClearBindings bs) : S.ClearStore (σ.newFrame bs).2 :=
  { h with
    frames := fun fs hfs => (Array.mem_push.1 hfs).elim (h.frames fs) fun heq => heq ▸ hbs }

theorem newObject (hfs : S.ClearFields fs) : S.ClearStore (σ.newObject fs).2 :=
  { h with
    objects := fun gs hgs => (Array.mem_push.1 hgs).elim (h.objects gs) fun heq => heq ▸ hfs }

theorem modifyFields (ref : Nat) {change : Fields → Fields}
    (hchange : ∀ fs, S.ClearFields fs → S.ClearFields (change fs)) :
    S.ClearStore (σ.modifyFields ref change) := by
  refine { h with objects := fun fs hfs => ?_ }
  obtain ⟨i, hi, rfl⟩ := Array.mem_iff_getElem.1 hfs
  have hold := h.objects _ (Array.getElem_mem (by simpa [Store.modifyFields] using hi))
  simp only [Store.modifyFields, Array.getElem_modify]
  split
  · exact hchange _ hold
  · exact hold

end ClearStore

end

theorem clear_of_child {c e : Expr} (h : S.Clear e) (hc : c ∈ e.children) : S.Clear c :=
  ⟨fun v hv => h.1 v (List.filterMap_subset _ (Expr.nodes_subset hc) hv),
    fun fn hfn => h.2 fn (List.filterMap_subset _ (Expr.nodes_subset hc) hfn)⟩

theorem lawful_rule : S.rule.Lawful where
  missing := ⟨by simp, by simp⟩
  child := clear_of_child
  assigned := fun h => clear_of_child h (.head _)
  changed := fun _ h => clear_of_child h (.head _)
  place := clear_of_child
  data := fun {v} hv => by
    cases v with
    | closure => cases hv
    | _ => trivial
  made := fun h _ _ => h.2 _ (.head _)
  called := fun h => h
  found := fun hσ h hx => hσ.lookup (h.1 _ (.head _)) hx
  field := fun hσ r k => (hσ.fields r).get k
  assign := fun hσ _ hx _ => hσ.assign (.inr hx)
  frame := fun hσ hbs => hσ.newFrame fun b hb => .inr (hbs b hb)
  object := fun hσ hfs => hσ.newObject hfs
  set := fun hσ hx r k => hσ.modifyFields r fun _ hfs => hfs.set hx k
  erase := fun hσ r k => hσ.modifyFields r fun _ hfs => hfs.erase k
  noted := fun hσ hframes hobjects hglobals =>
    ⟨hglobals ▸ hσ.globals, hframes ▸ hσ.frames, hobjects ▸ hσ.objects⟩

end Seal

end Resumable
