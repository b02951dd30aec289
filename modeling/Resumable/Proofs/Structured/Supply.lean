import Resumable.Proofs.Lowering.After
import Resumable.Proofs.Structured.Blocks

/-!
# One supply of names

Many bodies are lowered with the names of one supply, and variables get theirs
from it in between. A body that cannot be lowered keeps the numbers it has
drawn, so no number is drawn twice. Main statement: whatever a supply is asked
for, it never gives the same name twice.
-/

namespace Resumable

namespace JumpCode

/-! ## Lowering counts on -/

/-- The work draws numbers and does nothing else to the names, also where it
fails. -/
def OnlyDraws {α : Type} (m : Lower α) : Prop :=
  ∀ n, After m n (fun _ n' => Names.Draws n n') (Names.Draws n)

namespace OnlyDraws

variable {α β : Type}

theorem pure (a : α) : OnlyDraws (pure a) :=
  fun n => After.pure (.refl n)

theorem throw (e : Failure) : OnlyDraws (throw e : Lower α) :=
  fun n => After.throw (.refl n)

theorem draw (kind : LabelKind) : OnlyDraws (draw kind) :=
  fun n => After.of_ok rfl (Names.draws_next n kind)

theorem lift (r : Except Failure α) : OnlyDraws (lift r) := by
  cases r with
  | ok a => exact pure a
  | error e => exact throw e

theorem bind {m : Lower α} {f : α → Lower β} (h : OnlyDraws m) (hf : ∀ a, OnlyDraws (f a)) :
    OnlyDraws (m >>= f) := by
  intro n
  refine After.bind (h n) fun a n₁ hn₁ => ?_
  exact (hf a n₁).imp (fun _ _ hn₂ => hn₁.trans hn₂) fun _ hn₂ => hn₁.trans hn₂

end OnlyDraws

mutual

theorem lowerStmt_onlyDraws (scope : Scope) (falls : Bool) :
    (s : Stmt) → OnlyDraws (lowerStmt scope falls s)
  | .simple (.yield _) _ => .bind (.draw _) fun _ => .pure _
  | .simple (.expr _) _ | .simple (.ret _) _ | .simple (.delete _) _ | .simple (.throw _) _
  | .simple (.assert ..) _ | .simple (.log _) _ | .simple .debugger _ | .simple (.super ..) _ => .pure _
  | .breakTo _ | .continueTo _ => .bind (.lift _) fun _ => .pure _
  | .ifElse _ thenS elseS =>
      .bind (.draw _) fun _ => .bind (lowerList_onlyDraws scope true thenS) fun _ =>
        .bind (lowerList_onlyDraws scope true elseS) fun _ => .pure _
  | .whileLoop _ body _ | .doWhile _ body _ | .forLoop _ _ _ body _ =>
      .bind (.draw _) fun _ => .bind (lowerList_onlyDraws _ true body) fun _ => .pure _
  | .switch _ body _ =>
      .bind (.draw _) fun id => .bind (.lift _) fun _ =>
        .bind (lowerCases_onlyDraws _ id 0 false body) fun _ => .pure _
  | .forIn .. | .tryCatch .. | .catchClause _ | .label _ | .goto _ | .condGoto .. | .dispatch ..
  | .caseMark _ | .defaultMark | .missing => .throw _

theorem lowerList_onlyDraws (scope : Scope) (falls : Bool) :
    (body : List Stmt) → OnlyDraws (lowerList scope falls body)
  | [] => .pure _
  | s :: rest =>
      .bind (lowerStmt_onlyDraws scope falls s) fun first =>
        .bind (lowerList_onlyDraws scope first.falls rest) fun _ => .pure _

theorem lowerCases_onlyDraws (scope : Scope) (id ordinal : Nat) (falls : Bool) :
    (body : List Stmt) → OnlyDraws (lowerCases scope id ordinal falls body)
  | [] => .pure _
  | s :: rest => by
      cases hs : s.isCaseMark with
      | false =>
          rw [lowerCases_cons hs]
          exact .bind (lowerStmt_onlyDraws scope falls s) fun first =>
            .bind (lowerCases_onlyDraws scope id ordinal first.falls rest) fun _ => .pure _
      | true =>
          cases s
          case caseMark x => exact .bind (lowerCases_onlyDraws scope id _ true rest) fun _ => .pure _
          case defaultMark => exact .bind (lowerCases_onlyDraws scope id _ true rest) fun _ => .pure _
          all_goals cases hs

end

theorem ofBody_onlyDraws (body : List Stmt) : OnlyDraws (ofBody body) :=
  .bind (lowerList_onlyDraws [] true body) fun _ => .pure _

end JumpCode

namespace Names

open Resumable.Graph (labelsOf)
open Label

/-! ## What a supply gives -/

inductive Request where
  /-- The labels of a body. -/
  | lower (body : List Stmt)
  /-- The name of a variable. -/
  | fresh

/-- What a supply has given: the code of every body that could be lowered, and
the names of variables. -/
structure Given where
  codes : List (List Stmt)
  fresh : List String

/-- Meets a row of requests. A body that cannot be lowered gives no code, but
the numbers that it has drawn are gone. -/
def serve : List Request → Names → Given
  | [], _ => ⟨[], []⟩
  | .lower body :: rest, names =>
      match JumpCode.ofBody body names with
      | .ok code names => ⟨code :: (serve rest names).codes, (serve rest names).fresh⟩
      | .error _ names => serve rest names
  | .fresh :: rest, names =>
      ⟨(serve rest names.freshName.2).codes,
        names.freshName.1 :: (serve rest names.freshName.2).fresh⟩

/-- Whether a label is neither the start nor the end that every body has. -/
def isInner (l : String) : Bool :=
  l != Label.begin && l != Label.finish

def innerLabels (code : List Stmt) : List String :=
  (labelsOf code).filter isInner

/-! ## No name is given twice -/

def Unused (n : Names) (a : Form) : Prop :=
  (∃ kind k, a.origin? = some (kind, k) ∧ n.count kind < k) ∨ ∃ k, a = .fresh k ∧ n.fresh < k

theorem Unused.of_draws {n n' : Names} {a : Form} (h : Unused n' a) (hdraws : Draws n n') :
    Unused n a := by
  obtain ⟨kind, k, hk, hlt⟩ | ⟨k, hk, hlt⟩ := h
  · exact .inl ⟨kind, k, hk, Nat.lt_of_le_of_lt (hdraws.count kind) hlt⟩
  · exact .inr ⟨k, hk, hdraws.fresh ▸ hlt⟩

/-- Names of different forms, none of them given yet. -/
structure Supplies (n : Names) (forms : List Form) (names : List String) : Prop where
  nodup : forms.Nodup
  proper : ∀ a ∈ forms, a.isProper = true
  unused : ∀ a ∈ forms, Unused n a
  texts : names.Perm (forms.map Form.text)

namespace Supplies

variable {n n' : Names} {forms more : List Form} {names : List String}

theorem nodup_names (h : Supplies n forms names) : names.Nodup :=
  h.texts.nodup_iff.2 <| (List.nodup_map_iff_inj_on h.nodup).2 fun a ha b hb hab =>
    Form.text_injective (h.proper a ha) (h.proper b hb) hab

theorem of_draws (h : Supplies n' forms names) (hdraws : Draws n n') : Supplies n forms names where
  nodup := h.nodup
  proper := h.proper
  unused a ha := (h.unused a ha).of_draws hdraws
  texts := h.texts

/-- The labels of a body come before all that is drawn later. -/
theorem cons_code {body code : List Stmt} (hcode : JumpCode.ofBody body n = .ok code n')
    (h : Supplies n' forms names) :
    ∃ own, Supplies n (own ++ forms) (innerLabels code ++ names) := by
  obtain ⟨hdraws, own, hown, hperm⟩ := JumpCode.ofBody_labels hcode
  refine ⟨own, ?_, List.forall_mem_append.2 ⟨hown.proper, h.proper⟩,
    List.forall_mem_append.2 ⟨fun a ha => ?_, fun a ha => (h.unused a ha).of_draws hdraws⟩, ?_⟩
  · refine List.nodup_append.2 ⟨hown.nodup, h.nodup, ?_⟩
    rintro a ha _ ha' rfl
    obtain ⟨kind, k, hk, -, hle⟩ := hown.drawn a ha
    rcases h.unused a ha' with ⟨kind', k', hk', hlt⟩ | ⟨k', rfl, -⟩
    · rw [hk] at hk'
      cases hk'
      omega
    · cases hk
  · obtain ⟨kind, k, hk, hlt, -⟩ := hown.drawn a ha
    exact .inl ⟨kind, k, hk, hlt⟩
  · have hinner : ∀ l ∈ own.map Form.text, isInner l = true := by
      have hnodup := JumpCode.nodup_bodyForms hown
      simp only [List.map_cons, List.nodup_cons, List.mem_cons, not_or] at hnodup
      intro l hl
      have hbegin : l ≠ Label.begin := by
        rintro rfl
        exact hnodup.1.2 hl
      have hfinish : l ≠ Label.finish := by
        rintro rfl
        exact hnodup.2.1 hl
      simp [isInner, hbegin, hfinish]
    have hfilter : (innerLabels code).Perm (own.map Form.text) := by
      refine (hperm.filter isInner).trans (.of_eq ?_)
      rw [List.map_cons, List.map_cons, List.filter_cons_of_neg (by simp [isInner, Form.text]),
        List.filter_cons_of_neg (by simp [isInner, Form.text]), List.filter_eq_self.2 hinner]
    rw [List.map_append]
    exact hfilter.append h.texts

/-- The name of a variable comes before all that is drawn later. -/
theorem cons_fresh (h : Supplies n.freshName.2 forms names) :
    Supplies n (.fresh (n.fresh + 1) :: forms) (n.freshName.1 :: names) where
  nodup := by
    refine List.nodup_cons.2 ⟨fun hmem => ?_, h.nodup⟩
    rcases h.unused _ hmem with ⟨kind, k, hk, -⟩ | ⟨k, hk, hlt⟩
    · cases hk
    · cases hk
      exact absurd hlt (Nat.lt_irrefl _)
  proper := List.forall_mem_cons.2 ⟨rfl, h.proper⟩
  unused := by
    refine List.forall_mem_cons.2 ⟨.inr ⟨_, rfl, Nat.lt_succ_self _⟩, fun a ha => ?_⟩
    rcases h.unused a ha with hdrawn | ⟨k, rfl, hlt⟩
    · exact .inl hdrawn
    · exact .inr ⟨k, rfl, Nat.lt_of_succ_lt hlt⟩
  texts := h.texts.cons _

/-- What has not been given yet is no start and no end of a body. -/
theorem isInner_of_mem (h : Supplies n forms names) {name : String} (hname : name ∈ names) :
    isInner name = true := by
  obtain ⟨a, ha, rfl⟩ := List.mem_map.1 (h.texts.mem_iff.1 hname)
  have hne (b : Form) (hb : b.isProper = true) (horigin : b.origin? = none)
      (hfresh : ∀ k, b ≠ .fresh k) : a.text ≠ b.text := by
    intro htext
    obtain rfl := Form.text_injective (h.proper a ha) hb htext
    rcases h.unused a ha with ⟨kind, k, hk, -⟩ | ⟨k, hk, -⟩
    · rw [horigin] at hk
      cases hk
    · exact hfresh k hk
  have hbegin : a.text ≠ Label.begin := hne .begin rfl rfl fun _ => Form.noConfusion
  have hfinish : a.text ≠ Label.finish := hne .finish rfl rfl fun _ => Form.noConfusion
  simp [isInner, hbegin, hfinish]

end Supplies

/-- All that a supply gives are names of different forms. -/
theorem supplies_serve (requests : List Request) (n : Names) :
    ∃ forms, Supplies n forms
      ((serve requests n).codes.flatMap innerLabels ++ (serve requests n).fresh) := by
  induction requests generalizing n with
  | nil => exact ⟨[], .nil, by simp, by simp, .refl _⟩
  | cons request rest ih =>
      cases request with
      | fresh =>
          obtain ⟨forms, hforms⟩ := ih n.freshName.2
          have hcons := hforms.cons_fresh
          refine ⟨_, hcons.nodup, hcons.proper, hcons.unused, ?_⟩
          exact List.perm_middle.trans hcons.texts
      | lower body =>
          have hdraws := JumpCode.ofBody_onlyDraws body n
          rw [serve]
          split
          · next code n' hcode =>
              obtain ⟨forms, hforms⟩ := ih n'
              obtain ⟨own, hown⟩ := hforms.cons_code hcode
              refine ⟨own ++ forms, ?_⟩
              simpa only [List.flatMap_cons, List.append_assoc] using hown
          · next e n' herror =>
              obtain ⟨forms, hforms⟩ := ih n'
              exact ⟨forms, hforms.of_draws (hdraws.error herror)⟩

/-- The labels of all bodies that are lowered with one supply of names are
different, the start and the end of each body apart; the names of variables
are different as well, and none of them is a label. -/
theorem serve_distinct (requests : List Request) (names : Names) :
    ((serve requests names).codes.flatMap innerLabels).Nodup ∧ (serve requests names).fresh.Nodup ∧
      ∀ name ∈ (serve requests names).fresh, ∀ code ∈ (serve requests names).codes,
        name ∉ labelsOf code := by
  obtain ⟨forms, hforms⟩ := supplies_serve requests names
  obtain ⟨hlabels, hfresh, hapart⟩ := List.nodup_append.1 hforms.nodup_names
  refine ⟨hlabels, hfresh, fun name hname code hcode hlabel => ?_⟩
  have hinner : isInner name = true := hforms.isInner_of_mem (List.mem_append_right _ hname)
  have hmem : name ∈ (serve requests names).codes.flatMap innerLabels :=
    List.mem_flatMap.2 ⟨code, hcode, List.mem_filter.2 ⟨hlabel, hinner⟩⟩
  exact hapart name hmem name hname rfl

end Names

end Resumable
