import Mathlib.Data.List.Nodup
import Mathlib.Data.List.Perm.Basic
import Resumable.Proofs.Names.Form
import Resumable.Proofs.Structured.Code

/-!
# The labels of lowered code

Each construct draws a number of its kind, and the number stands in all its
labels. So no label occurs twice in the code of a body, and none occurs in the
code of another body that is lowered with the same names later.
-/

namespace Resumable

namespace Names

theorem lookup_setCount (kind other : LabelKind) (n : Nat) (counters : List (LabelKind × Nat)) :
    (setCount kind n counters).lookup other =
      if other = kind then some n else counters.lookup other := by
  induction counters with
  | nil =>
      by_cases h : other = kind
      · simp [setCount, h]
      · simp [setCount, List.lookup_cons, h, beq_false_of_ne h]
  | cons entry rest ih =>
      obtain ⟨k, m⟩ := entry
      rw [setCount]
      by_cases hk : k = kind
      · subst hk
        by_cases h : other = k
        · simp [h]
        · simp [List.lookup_cons, h, beq_false_of_ne h]
      · rw [if_neg hk, List.lookup_cons, List.lookup_cons, ih]
        by_cases h : other = k
        · simp [h, hk]
        · simp [beq_false_of_ne h]

theorem count_next (names : Names) (kind other : LabelKind) :
    (names.next kind).2.count other =
      if other = kind then names.count kind + 1 else names.count other := by
  simp only [next, count, lookup_setCount]
  split <;> rfl

/-- Numbers have been drawn from the first names up to the second. -/
structure Draws (n n' : Names) : Prop where
  count : ∀ kind, n.count kind ≤ n'.count kind
  fresh : n'.fresh = n.fresh

theorem Draws.refl (n : Names) : Draws n n :=
  ⟨fun _ => Nat.le_refl _, rfl⟩

theorem Draws.trans {n₁ n₂ n₃ : Names} (first : Draws n₁ n₂) (second : Draws n₂ n₃) :
    Draws n₁ n₃ :=
  ⟨fun kind => Nat.le_trans (first.count kind) (second.count kind),
    second.fresh.trans first.fresh⟩

theorem draws_next (n : Names) (kind : LabelKind) : Draws n (n.next kind).2 := by
  refine ⟨fun other => ?_, rfl⟩
  rw [count_next]
  split
  · next h =>
      subst h
      omega
  · exact Nat.le_refl _

end Names

namespace Label.Form

def origin? : Form → Option (LabelKind × Nat)
  | .part _ kind n => some (kind, n)
  | .case n _ | .default n => some (.switch, n)
  | .afterYield n => some (.yield, n)
  | _ => none

/-- The forms belong to different places of constructs whose numbers were drawn
between two moments. -/
structure Between (n n' : Names) (forms : List Form) : Prop where
  nodup : forms.Nodup
  proper : ∀ a ∈ forms, a.isProper = true
  drawn : ∀ a ∈ forms, ∃ kind k, a.origin? = some (kind, k) ∧ n.count kind < k ∧
    k ≤ n'.count kind

structure Places (kind : LabelKind) (k : Nat) (forms : List Form) : Prop where
  nodup : forms.Nodup
  proper : ∀ a ∈ forms, a.isProper = true
  origin : ∀ a ∈ forms, a.origin? = some (kind, k)

variable {n n₁ n₂ : Names} {forms more : List Form}

theorem Between.nil (n n' : Names) : Between n n' [] :=
  ⟨.nil, by simp, by simp⟩

theorem Between.append (h : Between n n₁ forms) (hdraws : Names.Draws n n₁)
    (h₁ : Between n₁ n₂ more) (hdraws₁ : Names.Draws n₁ n₂) : Between n n₂ (forms ++ more) where
  nodup := by
    refine List.nodup_append.2 ⟨h.nodup, h₁.nodup, ?_⟩
    rintro a ha _ ha' rfl
    obtain ⟨kind, k, hk, -, hle⟩ := h.drawn a ha
    obtain ⟨kind', k', hk', hlt, -⟩ := h₁.drawn a ha'
    rw [hk] at hk'
    cases hk'
    omega
  proper := List.forall_mem_append.2 ⟨h.proper, h₁.proper⟩
  drawn := by
    refine List.forall_mem_append.2 ⟨fun a ha => ?_, fun a ha => ?_⟩
    · obtain ⟨kind, k, hk, hlt, hle⟩ := h.drawn a ha
      exact ⟨kind, k, hk, hlt, Nat.le_trans hle (hdraws₁.count kind)⟩
    · obtain ⟨kind, k, hk, hlt, hle⟩ := h₁.drawn a ha
      exact ⟨kind, k, hk, Nat.lt_of_le_of_lt (hdraws.count kind) hlt, hle⟩

/-- The places of a construct are drawn with its number. -/
theorem Places.between {kind : LabelKind} (h : Places kind (n.count kind + 1) forms) :
    Between n (n.next kind).2 forms := by
  refine ⟨h.nodup, h.proper, fun a ha => ⟨kind, _, h.origin a ha, Nat.lt_succ_self _, ?_⟩⟩
  have hcount : (n.next kind).2.count kind = n.count kind + 1 := by
    rw [Names.count_next, if_pos rfl]
  exact Nat.le_of_eq hcount.symm

/-- The roles of a construct are different places of it. -/
theorem places_of_roles {kind : LabelKind} (hkind : kinds.contains kind = true) (k : Nat)
    {own : List String} (hown : own.Nodup) (hroles : own.all roles.contains = true) :
    Places kind k (own.map fun role => .part role kind k) where
  nodup := by
    refine (List.nodup_map_iff_inj_on hown).2 fun a _ b _ hab => ?_
    cases hab
    rfl
  proper a ha := by
    obtain ⟨role, hrole, rfl⟩ := List.mem_map.1 ha
    rw [isProper, List.all_eq_true.1 hroles role hrole, hkind, Bool.and_self]
  origin a ha := by
    obtain ⟨role, hrole, rfl⟩ := List.mem_map.1 ha
    rfl

end Label.Form

namespace Graph

attribute [simp] labelsOf_cons_label labelsOf_cons

@[simp] theorem labelsOf_append (code more : List Stmt) :
    labelsOf (code ++ more) = labelsOf code ++ labelsOf more := by
  induction code using Stmt.code_induction with
  | nil => rfl
  | label m code ih =>
      rw [List.cons_append, labelsOf_cons_label, labelsOf_cons_label, ih, List.cons_append]
  | other s code hs ih => rw [List.cons_append, labelsOf_cons hs, labelsOf_cons hs, ih]

end Graph

namespace JumpCode

open Resumable.Graph (labelsOf labelsOf_append)
open Label

@[simp] theorem labelsOf_nil : labelsOf [] = [] := rfl

@[simp] theorem labelsOf_jump (falls : Bool) (l : String) : labelsOf (jump falls l) = [] := by
  cases falls <;> rfl

@[simp] theorem labelsOf_enter (falls : Bool) (l : String) : labelsOf (enter falls l) = [l] := by
  rw [enter, labelsOf_append, labelsOf_jump]
  rfl

/-- The labels of some code are different places of constructs whose numbers were
drawn between two moments. -/
def Labelled (n n' : Names) (code : List Stmt) : Prop :=
  Names.Draws n n' ∧
    ∃ forms, Form.Between n n' forms ∧ (labelsOf code).Perm (forms.map Form.text)

section

variable {n n₁ n₂ : Names} {code more : List Stmt}

theorem Labelled.of_eq_nil (h : labelsOf code = []) : Labelled n n code :=
  ⟨.refl n, [], .nil n n, by rw [h]; rfl⟩

theorem Labelled.append (h : Labelled n n₁ code) (h₁ : Labelled n₁ n₂ more) :
    Labelled n n₂ (code ++ more) := by
  obtain ⟨hdraws, forms, hforms, hperm⟩ := h
  obtain ⟨hdraws₁, forms₁, hforms₁, hperm₁⟩ := h₁
  refine ⟨hdraws.trans hdraws₁, forms ++ forms₁, hforms.append hdraws hforms₁ hdraws₁, ?_⟩
  rw [labelsOf_append, List.map_append]
  exact hperm.append hperm₁

theorem draw_eq_ok {kind : LabelKind} {k : Nat} :
    draw kind n = .ok k n₁ ↔ k = n.count kind + 1 ∧ n₁ = (n.next kind).2 := by
  constructor
  · rintro ⟨⟩
    exact ⟨rfl, rfl⟩
  · rintro ⟨rfl, rfl⟩
    rfl

/-- A construct around code that draws its numbers after it. -/
theorem Labelled.around {kind : LabelKind} {k : Nat} (hdraw : draw kind n = .ok k n₁)
    {own : List Form} (hown : Form.Places kind k own) (hmore : Labelled n₁ n₂ more)
    (hcode : (labelsOf code).Perm (own.map Form.text ++ labelsOf more)) : Labelled n n₂ code := by
  obtain ⟨rfl, rfl⟩ := draw_eq_ok.1 hdraw
  obtain ⟨hdraws, forms, hforms, hperm⟩ := hmore
  have hnext := Names.draws_next n kind
  refine ⟨hnext.trans hdraws, own ++ forms, hown.between.append hnext hforms hdraws, ?_⟩
  rw [List.map_append]
  exact hcode.trans (hperm.append_left _)

end

def CaseForm (id ordinal : Nat) (seen : Bool) (a : Form) : Prop :=
  (∃ i, ordinal ≤ i ∧ a = .case id i) ∨ (a = .default id ∧ seen = false)

/-- The roles of a switch and its cases are different places of it. -/
theorem places_of_marks {own : List String} {k : Nat} {seen : Bool} {marks : List Form}
    (hown : Form.Places .switch k (own.map fun role => .part role .switch k)) (hnodup : marks.Nodup)
    (hmarks : ∀ a ∈ marks, CaseForm k 0 seen a) :
    Form.Places .switch k ((own.map fun role => .part role .switch k) ++ marks) where
  nodup := by
    refine List.nodup_append.2 ⟨hown.nodup, hnodup, ?_⟩
    rintro a ha _ ha' rfl
    obtain ⟨role, -, rfl⟩ := List.mem_map.1 ha
    rcases hmarks _ ha' with ⟨i, -, h⟩ | ⟨h, -⟩ <;> cases h
  proper := by
    refine List.forall_mem_append.2 ⟨hown.proper, fun a ha => ?_⟩
    rcases hmarks a ha with ⟨i, -, rfl⟩ | ⟨rfl, -⟩ <;> rfl
  origin := by
    refine List.forall_mem_append.2 ⟨hown.origin, fun a ha => ?_⟩
    rcases hmarks a ha with ⟨i, -, rfl⟩ | ⟨rfl, -⟩ <;> rfl

def CaseLabelled (n n' : Names) (id ordinal : Nat) (seen : Bool) (code : List Stmt) : Prop :=
  ∃ (marks : List Form) (inner : List Stmt), marks.Nodup ∧
    (∀ a ∈ marks, CaseForm id ordinal seen a) ∧ Labelled n n' inner ∧
    (labelsOf code).Perm (marks.map Form.text ++ labelsOf inner)

section

variable {id ordinal : Nat} {seen : Bool} {n n' : Names} {code rest : List Stmt} {falls : Bool}

theorem CaseLabelled.case (h : CaseLabelled n n' id (ordinal + 1) seen rest) :
    CaseLabelled n n' id ordinal seen (enter falls (Label.caseOf id ordinal) ++ rest) := by
  obtain ⟨marks, inner, hnodup, hmarks, hinner, hperm⟩ := h
  refine ⟨.case id ordinal :: marks, inner, List.nodup_cons.2 ⟨fun hmem => ?_, hnodup⟩,
    List.forall_mem_cons.2 ⟨.inl ⟨ordinal, Nat.le_refl _, rfl⟩, fun a ha => ?_⟩, hinner, ?_⟩
  · rcases hmarks _ hmem with ⟨i, hi, h⟩ | ⟨h, -⟩
    · cases h
      omega
    · cases h
  · exact (hmarks a ha).imp_left fun ⟨i, hi, h⟩ => ⟨i, by omega, h⟩
  · rw [labelsOf_append, labelsOf_enter]
    exact hperm.cons _

theorem CaseLabelled.default (h : CaseLabelled n n' id ordinal true rest) :
    CaseLabelled n n' id ordinal false (enter falls (Label.defaultOf id) ++ rest) := by
  obtain ⟨marks, inner, hnodup, hmarks, hinner, hperm⟩ := h
  refine ⟨.default id :: marks, inner, List.nodup_cons.2 ⟨fun hmem => ?_, hnodup⟩,
    List.forall_mem_cons.2 ⟨.inr ⟨rfl, rfl⟩, fun a ha => ?_⟩, hinner, ?_⟩
  · rcases hmarks _ hmem with ⟨i, -, h⟩ | ⟨-, h⟩ <;> cases h
  · exact (hmarks a ha).imp_right fun ⟨h, _⟩ => ⟨h, rfl⟩
  · rw [labelsOf_append, labelsOf_enter]
    exact hperm.cons _

theorem CaseLabelled.cons {n₁ : Names} (hfirst : Labelled n n₁ code)
    (h : CaseLabelled n₁ n' id ordinal seen rest) :
    CaseLabelled n n' id ordinal seen (code ++ rest) := by
  obtain ⟨marks, inner, hnodup, hmarks, hinner, hperm⟩ := h
  refine ⟨marks, code ++ inner, hnodup, hmarks, hfirst.append hinner, ?_⟩
  rw [labelsOf_append, labelsOf_append]
  calc
    (labelsOf code ++ labelsOf rest).Perm (labelsOf code ++ (marks.map Form.text ++ labelsOf inner)) :=
      hperm.append_left _
    List.Perm _ (marks.map Form.text ++ (labelsOf code ++ labelsOf inner)) :=
      List.perm_append_comm_assoc ..

end

mutual

theorem lowerStmt_labelled {scope : Scope} {falls : Bool} {c : Stretch} {n n' : Names} :
    (s : Stmt) → lowerStmt scope falls s n = .ok c n' → Labelled n n' c.code
  | .simple (.yield x) share, h => by
      simp only [lowerStmt, bind_eq_ok, pure_eq_ok] at h
      obtain ⟨k, _, hdraw, rfl, rfl⟩ := h
      have hplaces : Form.Places .yield k [.afterYield k] := ⟨by simp, by simp [Form.isProper],
        by simp [Form.origin?]⟩
      exact .around hdraw hplaces (.of_eq_nil labelsOf_nil) (.refl _)
  | .simple (.expr x) share, h | .simple (.ret x) share, h | .simple (.delete x) share, h
  | .simple (.throw x) share, h | .simple (.assert x _) share, h | .simple (.log x) share, h
  | .simple .debugger share, h | .simple (.super _ x) share, h => by
      obtain ⟨rfl, rfl⟩ := pure_eq_ok.1 h
      exact .of_eq_nil rfl
  | .breakTo l, h => by
      simp only [lowerStmt, bind_eq_ok, pure_eq_ok, lift_eq_ok] at h
      obtain ⟨target, _, ⟨-, rfl⟩, rfl, rfl⟩ := h
      exact .of_eq_nil rfl
  | .continueTo l, h => by
      simp only [lowerStmt, bind_eq_ok, pure_eq_ok, lift_eq_ok] at h
      obtain ⟨target, _, ⟨-, rfl⟩, rfl, rfl⟩ := h
      exact .of_eq_nil rfl
  | .ifElse c thenS elseS, h => by
      simp only [lowerStmt, bind_eq_ok, pure_eq_ok] at h
      obtain ⟨k, n₁, hdraw, thenC, n₂, hthen, elseC, n₃, helse, rfl, rfl⟩ := h
      have hplaces := Form.places_of_roles (by decide : Form.kinds.contains .ifElse = true) k
        (by decide : ["TEST", "SUCC", "FAIL", "END"].Nodup) (by decide)
      refine .around hdraw hplaces ((lowerList_labelled thenS hthen).append
        (lowerList_labelled elseS helse)) (List.perm_iff_count.2 fun l => ?_)
      simp [Form.text, List.count_cons]
      omega
  | .whileLoop c body l, h => by
      simp only [lowerStmt, bind_eq_ok, pure_eq_ok] at h
      obtain ⟨k, n₁, hdraw, bodyC, n₂, hbody, rfl, rfl⟩ := h
      have hplaces := Form.places_of_roles (by decide : Form.kinds.contains .whileLoop = true) k
        (by decide : ["TEST", "BODY", "END"].Nodup) (by decide)
      refine .around hdraw hplaces (lowerList_labelled body hbody)
        (List.perm_iff_count.2 fun l => ?_)
      simp [Form.text, List.count_cons]
  | .doWhile c body l, h => by
      simp only [lowerStmt, bind_eq_ok, pure_eq_ok] at h
      obtain ⟨k, n₁, hdraw, bodyC, n₂, hbody, rfl, rfl⟩ := h
      have hplaces := Form.places_of_roles (by decide : Form.kinds.contains .doWhile = true) k
        (by decide : ["BODY", "TEST", "END"].Nodup) (by decide)
      refine .around hdraw hplaces (lowerList_labelled body hbody)
        (List.perm_iff_count.2 fun l => ?_)
      simp [Form.text, List.count_cons]
      omega
  | .forLoop init cond post body l, h => by
      simp only [lowerStmt, bind_eq_ok, pure_eq_ok] at h
      obtain ⟨k, n₁, hdraw, bodyC, n₂, hbody, rfl, rfl⟩ := h
      have hplaces := Form.places_of_roles (by decide : Form.kinds.contains .forLoop = true) k
        (by decide : ["INIT", "TEST", "BODY", "POST", "END"].Nodup) (by decide)
      refine .around hdraw hplaces (lowerList_labelled body hbody)
        (List.perm_iff_count.2 fun l => ?_)
      cases init.isMissing <;> cases cond.isMissing <;> cases post.isMissing <;>
        simp [Form.text, List.count_cons] <;>
        omega
  | .switch x body l, h => by
      simp only [lowerStmt, bind_eq_ok, pure_eq_ok, lift_eq_ok] at h
      obtain ⟨k, n₁, hdraw, as, n₂, ⟨harms, rfl⟩, bodyC, n₃, hbody, rfl, rfl⟩ := h
      obtain ⟨marks, inner, hnodup, hmarks, hinner, hperm⟩ := lowerCases_labelled body harms hbody
      have hplaces := Form.places_of_roles (by decide : Form.kinds.contains .switch = true) k
        (by decide : ["TEST", "END"].Nodup) (by decide)
      refine .around hdraw (places_of_marks hplaces hnodup hmarks) hinner
        (List.perm_iff_count.2 fun l => ?_)
      have hcount := List.perm_iff_count.1 hperm l
      simp [Form.text, List.count_cons] at hcount ⊢
      omega
  | .forIn .., h | .tryCatch .., h | .catchClause _, h | .label _, h | .goto _, h
  | .condGoto .., h | .dispatch .., h | .caseMark _, h | .defaultMark, h | .missing, h => by cases h

theorem lowerList_labelled {scope : Scope} {falls : Bool} {c : Stretch} {n n' : Names} :
    (body : List Stmt) → lowerList scope falls body n = .ok c n' → Labelled n n' c.code
  | [], h => by
      obtain ⟨rfl, rfl⟩ := pure_eq_ok.1 h
      exact .of_eq_nil rfl
  | s :: rest, h => by
      simp only [lowerList, bind_eq_ok, pure_eq_ok] at h
      obtain ⟨first, n₁, hfirst, others, n₂, hothers, rfl, rfl⟩ := h
      exact (lowerStmt_labelled s hfirst).append (lowerList_labelled rest hothers)

theorem lowerCases_labelled {scope : Scope} {id ordinal : Nat} {seen falls : Bool} {as : List Arm}
    {c : Stretch} {n n' : Names} : (body : List Stmt) → arms id ordinal seen body = .ok as →
    lowerCases scope id ordinal falls body n = .ok c n' →
    CaseLabelled n n' id ordinal seen c.code
  | [], harms, h => by
      obtain ⟨rfl, rfl⟩ := pure_eq_ok.1 h
      exact ⟨[], [], .nil, by simp, .of_eq_nil rfl, .refl _⟩
  | s :: rest, harms, h => by
      cases hs : s.isCaseMark with
      | false =>
          rw [arms_cons hs] at harms
          simp only [lowerCases_cons hs, bind_eq_ok, pure_eq_ok] at h
          obtain ⟨first, n₁, hfirst, others, n₂, hothers, rfl, rfl⟩ := h
          exact .cons (lowerStmt_labelled s hfirst) (lowerCases_labelled rest harms hothers)
      | true =>
          cases s
          case caseMark x =>
              obtain ⟨as, hrest, ⟨⟩⟩ := except_bind_eq_ok.1 harms
              simp only [lowerCases, bind_eq_ok, pure_eq_ok] at h
              obtain ⟨others, n₁, hothers, rfl, rfl⟩ := h
              exact .case (lowerCases_labelled rest hrest hothers)
          case defaultMark =>
              simp only [arms] at harms
              split at harms
              · cases harms
              · next hseen =>
                  obtain ⟨as, hrest, ⟨⟩⟩ := except_bind_eq_ok.1 harms
                  simp only [lowerCases, bind_eq_ok, pure_eq_ok] at h
                  obtain ⟨others, n₁, hothers, rfl, rfl⟩ := h
                  rw [Bool.not_eq_true] at hseen
                  subst hseen
                  exact .default (lowerCases_labelled rest hrest hothers)
          all_goals cases hs

end

end JumpCode

end Resumable
