import Mathlib.Data.List.Pairwise
import Resumable.Proofs.Tree.Contents

/-!
# Positions in an expression

A node of an expression has a position: the numbers of the children that lead
to it. The schedule of an expression lists the positions of its call nodes in
the order in which evaluation comes to them if it evaluates all operands. An
assignment comes to its value first and to the operands of its place then; an
increment comes to the operands of its place twice.
-/

namespace Resumable

/-- The children to descend through, from the root of an expression on. -/
abbrev Position := List Nat

namespace Position

def Earlier (p q : Position) : Prop :=
  ∃ (root : Position) (i j : Nat) (p' q' : Position),
    p = root ++ i :: p' ∧ q = root ++ j :: q' ∧ i < j

/-- A row of positions in which no position comes after one of a later
child. -/
def InOrder (ps : List Position) : Prop :=
  ps.Pairwise fun p q => ¬ Earlier q p

/-- A row that repeats members of another one on the spot or leaves them
out. -/
inductive Echoes : List Position → List Position → Prop where
  | nil : Echoes [] []
  | next {ps qs : List Position} (q : Position) : Echoes ps qs → Echoes ps (qs ++ [q])
  | again {ps qs : List Position} {q : Position} :
      Echoes ps (qs ++ [q]) → Echoes (ps ++ [q]) (qs ++ [q])

section

variable {p q : Position} {i j : Nat}

theorem not_earlier_nil : ¬ Earlier p [] := by
  rintro ⟨root, _, _, _, _, -, hq, -⟩
  cases root <;> cases hq

theorem not_nil_earlier : ¬ Earlier [] q := by
  rintro ⟨root, _, _, _, _, hp, -, -⟩
  cases root <;> cases hp

/-- Below different children the number of the child decides. -/
theorem not_earlier_of_lt (h : i < j) : ¬ Earlier (j :: q) (i :: p) := by
  rintro ⟨root, a, b, p', q', hp, hq, hab⟩
  cases root with
  | nil =>
      cases hp
      cases hq
      omega
  | cons k root =>
      cases hp
      cases hq
      omega

theorem not_earlier_cons (h : ¬ Earlier q p) : ¬ Earlier (i :: q) (i :: p) := by
  rintro ⟨root, a, b, p', q', hp, hq, hab⟩
  cases root with
  | nil =>
      cases hp
      cases hq
      omega
  | cons k root =>
      cases hp
      cases hq
      exact h ⟨root, a, b, p', q', rfl, rfl, hab⟩

theorem not_earlier_self (p : Position) : ¬ Earlier p p := by
  induction p with
  | nil => exact not_earlier_nil
  | cons i p ih => exact not_earlier_cons ih

end

/-- All positions of a row but the root lie below children after child `i`. -/
def After (i : Nat) (ps : List Position) : Prop :=
  ∀ q ∈ ps, ∀ j p, q = j :: p → i < j

theorem After.map {i j : Nat} (h : i < j) (ps : List Position) : After i (ps.map (j :: ·)) := by
  rintro q hq k p rfl
  obtain ⟨_, -, heq⟩ := List.mem_map.1 hq
  rwa [← (List.cons.inj heq).1]

theorem After.append {i : Nat} {ps qs : List Position} (hps : After i ps) (hqs : After i qs) :
    After i (ps ++ qs) :=
  fun q hq => (List.mem_append.1 hq).elim (hps q) (hqs q)

def Arranged (ps : List Position) : Prop :=
  ps.Pairwise fun p q => p ≠ q ∧ ¬ Earlier q p

namespace Arranged

theorem nil : Arranged [] := List.Pairwise.nil

theorem nodup {ps : List Position} (h : Arranged ps) : ps.Nodup :=
  h.imp And.left

/-- The positions below child `i` come before positions below later children and
before the root. -/
theorem below {ps rest : List Position} {i : Nat} (hps : Arranged ps) (hrest : Arranged rest)
    (hafter : After i rest) : Arranged (ps.map (i :: ·) ++ rest) := by
  refine List.pairwise_append.2 ⟨List.pairwise_map.2 (hps.imp ?_), hrest, ?_⟩
  · rintro p q ⟨hne, hearlier⟩
    exact ⟨fun heq => hne (List.cons.inj heq).2, not_earlier_cons hearlier⟩
  · intro p hp q hq
    obtain ⟨p, -, rfl⟩ := List.mem_map.1 hp
    cases q with
    | nil => exact ⟨List.cons_ne_nil _ _, not_nil_earlier⟩
    | cons j q =>
        have hij : i < j := hafter _ hq j q rfl
        refine ⟨fun heq => ?_, not_earlier_of_lt hij⟩
        have := (List.cons.inj heq).1
        omega

theorem only {ps : List Position} {i : Nat} (h : Arranged ps) : Arranged (ps.map (i :: ·)) := by
  have hbelow := below (i := i) h nil (by simp [After])
  rwa [List.append_nil] at hbelow

end Arranged

namespace Echoes

variable {ps qs : List Position}

theorem mem (h : Echoes ps qs) {p : Position} (hp : p ∈ ps) : p ∈ qs := by
  induction h with
  | nil => exact hp
  | next q _ ih => exact List.mem_append_left _ (ih hp)
  | again _ ih =>
      rcases List.mem_append.1 hp with hp | hp
      · exact ih hp
      · exact List.mem_append_right _ hp

theorem inOrder (h : Echoes ps qs) (hqs : Arranged qs) : InOrder ps := by
  induction h with
  | nil => exact List.Pairwise.nil
  | next q _ ih => exact ih (List.pairwise_append.1 hqs).1
  | @again ps qs q h ih =>
      refine List.pairwise_append.2 ⟨ih hqs, List.pairwise_singleton _ _, ?_⟩
      intro p hp r hr
      obtain rfl := List.mem_singleton.1 hr
      rcases List.mem_append.1 (h.mem hp) with hp | hp
      · exact ((List.pairwise_append.1 hqs).2.2 p hp r (List.mem_singleton.2 rfl)).2
      · obtain rfl := List.mem_singleton.1 hp
        exact not_earlier_self p

end Echoes

end Position

namespace Expr

def at? : Expr → Position → Option Expr
  | e, [] => some e
  | e, i :: p => (e.children[i]?).bind fun c => c.at? p

mutual

def schedule : Expr → List Position
  | .unary op x _ =>
      (schedule x).map (0 :: ·) ++ if op.isIncDec then (placeSchedule x).map (0 :: ·) else []
  | .binary _ x y _ => (schedule x).map (0 :: ·) ++ (schedule y).map (1 :: ·)
  | .conditional c t e _ =>
      (schedule c).map (0 :: ·) ++ ((schedule t).map (1 :: ·) ++ (schedule e).map (2 :: ·))
  | .assign target value => (schedule value).map (1 :: ·) ++ (placeSchedule target).map (0 :: ·)
  | .call callee args _ => (schedule callee).map (0 :: ·) ++ (scheduleList 1 args ++ [[]])
  | .property x _ _ => (schedule x).map (0 :: ·)
  | .construct _ args => scheduleList 0 args
  | .missing | .literal .. | .ref _ | .receiver _ | .lambda .. => []

def scheduleList (i : Nat) : List Expr → List Position
  | [] => []
  | e :: es => (schedule e).map (i :: ·) ++ scheduleList (i + 1) es

def placeSchedule : Expr → List Position
  | .property x _ _ => (schedule x).map (0 :: ·)
  | .binary .index x y _ => (schedule x).map (0 :: ·) ++ (schedule y).map (1 :: ·)
  | _ => []

end

/-- Whether evaluation comes to the call nodes in the order of the children: no
assignment has calls both in its value and in its place, and no increment has
calls in its place. -/
def straight (e : Expr) : Bool :=
  e.nodes.all fun n =>
    match n with
    | .assign target value => target.placeSchedule.isEmpty || value.schedule.isEmpty
    | .unary op x _ => !op.isIncDec || x.placeSchedule.isEmpty
    | _ => true

theorem mem_scheduleList {p : Position} {i : Nat} {es : List Expr} (h : p ∈ scheduleList i es) :
    ∃ k q e, p = (i + k) :: q ∧ es[k]? = some e ∧ q ∈ e.schedule := by
  induction es generalizing i with
  | nil => simp [scheduleList] at h
  | cons e es ih =>
      rcases List.mem_append.1 (scheduleList.eq_2 i e es ▸ h) with h | h
      · obtain ⟨q, hq, rfl⟩ := List.mem_map.1 h
        exact ⟨0, q, e, rfl, rfl, hq⟩
      · obtain ⟨k, q, x, rfl, hx, hq⟩ := ih h
        exact ⟨k + 1, q, x, by rw [Nat.add_assoc, Nat.add_comm 1 k], hx, hq⟩

/-- Every position of a schedule but the root lies below a child, and in the
schedule of that child or of its place. -/
theorem mem_schedule {p : Position} {e : Expr} (h : p ∈ e.schedule) :
    (p = [] ∧ e.isCall = true) ∨ ∃ i q c, p = i :: q ∧ e.children[i]? = some c ∧
      (q ∈ c.schedule ∨ q ∈ c.placeSchedule) := by
  cases e with
  | unary op x t =>
      rw [schedule, List.mem_append] at h
      refine .inr ?_
      rcases h with h | h
      · obtain ⟨q, hq, rfl⟩ := List.mem_map.1 h
        exact ⟨0, q, x, rfl, rfl, .inl hq⟩
      · split at h
        · obtain ⟨q, hq, rfl⟩ := List.mem_map.1 h
          exact ⟨0, q, x, rfl, rfl, .inr hq⟩
        · cases h
  | binary op x y t =>
      simp only [schedule, List.mem_append, List.mem_map] at h
      rcases h with ⟨q, hq, rfl⟩ | ⟨q, hq, rfl⟩
      · exact .inr ⟨0, q, x, rfl, rfl, .inl hq⟩
      · exact .inr ⟨1, q, y, rfl, rfl, .inl hq⟩
  | conditional c t e ty =>
      simp only [schedule, List.mem_append, List.mem_map] at h
      rcases h with ⟨q, hq, rfl⟩ | ⟨q, hq, rfl⟩ | ⟨q, hq, rfl⟩
      · exact .inr ⟨0, q, c, rfl, rfl, .inl hq⟩
      · exact .inr ⟨1, q, t, rfl, rfl, .inl hq⟩
      · exact .inr ⟨2, q, e, rfl, rfl, .inl hq⟩
  | assign target value =>
      simp only [schedule, List.mem_append, List.mem_map] at h
      rcases h with ⟨q, hq, rfl⟩ | ⟨q, hq, rfl⟩
      · exact .inr ⟨1, q, value, rfl, rfl, .inl hq⟩
      · exact .inr ⟨0, q, target, rfl, rfl, .inr hq⟩
  | call callee args t =>
      simp only [schedule, List.mem_append, List.mem_map, List.mem_singleton] at h
      rcases h with ⟨q, hq, rfl⟩ | h | rfl
      · exact .inr ⟨0, q, callee, rfl, rfl, .inl hq⟩
      · obtain ⟨k, q, x, rfl, hx, hq⟩ := mem_scheduleList h
        refine .inr ⟨1 + k, q, x, rfl, ?_, .inl hq⟩
        rw [Nat.add_comm 1 k]
        exact hx
      · exact .inl ⟨rfl, rfl⟩
  | property x name t =>
      obtain ⟨q, hq, rfl⟩ := List.mem_map.1 (schedule.eq_6 x name t ▸ h)
      exact .inr ⟨0, q, x, rfl, rfl, .inl hq⟩
  | construct cls args =>
      obtain ⟨k, q, x, rfl, hx, hq⟩ := mem_scheduleList (schedule.eq_7 cls args ▸ h)
      exact .inr ⟨0 + k, q, x, rfl, by rwa [Nat.zero_add], .inl hq⟩
  | _ => simp [schedule] at h

theorem mem_placeSchedule {p : Position} {e : Expr} (h : p ∈ e.placeSchedule) : p ∈ e.schedule := by
  unfold placeSchedule at h
  split at h
  · rw [schedule]; exact h
  · rw [schedule]; exact h
  · cases h

/-- A schedule leads to call nodes only. -/
theorem isCall_of_mem_schedule {e : Expr} :
    ∀ {p : Position}, p ∈ e.schedule → ∃ n, e.at? p = some n ∧ n.isCall = true := by
  refine children_induction (P := fun e => ∀ {p : Position}, p ∈ e.schedule →
    ∃ n, e.at? p = some n ∧ n.isCall = true) ?_ e
  intro e ih p hp
  rcases mem_schedule hp with ⟨rfl, hcall⟩ | ⟨i, q, c, rfl, hc, hq⟩
  · exact ⟨e, by rw [at?], hcall⟩
  · have hmem : q ∈ c.schedule := hq.elim id mem_placeSchedule
    obtain ⟨n, hn, hcall⟩ := ih c (List.mem_of_getElem? hc) hmem
    exact ⟨n, by rw [at?, hc]; exact hn, hcall⟩

theorem mem_nodes_of_mem_children {e c n : Expr} (hc : c ∈ e.children) (hn : n ∈ c.nodes) :
    n ∈ e.nodes := by
  cases e with
  | call callee args t =>
      rw [nodes, nodesList_eq_flatMap]
      rcases List.mem_cons.1 hc with rfl | hc
      · exact List.mem_cons_of_mem _ (List.mem_append_left _ hn)
      · exact List.mem_cons_of_mem _ (List.mem_append_right _ (List.mem_flatMap.2 ⟨c, hc, hn⟩))
  | construct cls args =>
      rw [nodes, nodesList_eq_flatMap]
      exact List.mem_cons_of_mem _ (List.mem_flatMap.2 ⟨c, hc, hn⟩)
  | _ =>
      simp only [children, List.mem_cons, List.not_mem_nil, or_false] at hc
      try rcases hc with rfl | rfl | rfl <;> simp [nodes, hn]

theorem straight_of_mem_children {e c : Expr} (h : e.straight = true) (hc : c ∈ e.children) :
    c.straight = true :=
  List.all_eq_true.2 fun n hn => List.all_eq_true.1 h n (mem_nodes_of_mem_children hc hn)

open Position

theorem after_scheduleList {i k : Nat} (h : i < k) (es : List Expr) : After i (scheduleList k es) := by
  rintro q hq j p rfl
  obtain ⟨_, _, _, heq, -, -⟩ := mem_scheduleList hq
  have := (List.cons.inj heq).1
  omega

theorem arranged_scheduleList {es : List Expr} (h : ∀ e ∈ es, Arranged e.schedule) (i : Nat) :
    Arranged (scheduleList i es) := by
  induction es generalizing i with
  | nil =>
      rw [scheduleList]
      exact .nil
  | cons e es ih =>
      obtain ⟨he, hes⟩ := List.forall_mem_cons.1 h
      rw [scheduleList]
      exact he.below (ih hes (i + 1)) (after_scheduleList (Nat.lt_succ_self i) es)

theorem arranged_placeSchedule {e : Expr} (h : Arranged e.schedule) : Arranged e.placeSchedule := by
  unfold placeSchedule
  split
  · rwa [schedule] at h
  · rwa [schedule] at h
  · exact .nil

/-- Evaluation comes to the call nodes of a straight expression in the order of
the children, and to each at most once. -/
theorem arranged_schedule {e : Expr} (h : e.straight = true) : Arranged e.schedule := by
  refine children_induction (P := fun e => e.straight = true → Arranged e.schedule) ?_ e h
  intro e ih h
  have hchild : ∀ c ∈ e.children, Arranged c.schedule :=
    fun c hc => ih c hc (straight_of_mem_children h hc)
  cases e with
  | unary op x t =>
      have hx : Arranged (x.schedule.map (0 :: ·)) := (hchild x (by simp [children])).only
      have hroot := List.all_eq_true.1 h (.unary op x t) (by simp [nodes])
      rw [schedule]
      split
      · next hop =>
          have hplace : x.placeSchedule = [] := by simpa [hop] using hroot
          rwa [hplace, List.map_nil, List.append_nil]
      · rwa [List.append_nil]
  | binary op x y t =>
      rw [schedule]
      exact (hchild x (by simp [children])).below (hchild y (by simp [children])).only
        (.map Nat.one_pos _)
  | conditional c t e ty =>
      rw [schedule]
      have hbranches : Arranged (t.schedule.map (1 :: ·) ++ e.schedule.map (2 :: ·)) :=
        (hchild t (by simp [children])).below (hchild e (by simp [children])).only
          (.map Nat.one_lt_two _)
      exact (hchild c (by simp [children])).below hbranches
        (.append (.map Nat.one_pos _) (.map Nat.two_pos _))
  | assign target value =>
      have hroot := List.all_eq_true.1 h (.assign target value) (by simp [nodes])
      rw [schedule]
      rcases Bool.or_eq_true_iff.1 hroot with hplace | hvalue
      · rw [List.isEmpty_iff.1 hplace, List.map_nil, List.append_nil]
        exact (hchild value (by simp [children])).only
      · rw [List.isEmpty_iff.1 hvalue, List.map_nil, List.nil_append]
        exact (arranged_placeSchedule (hchild target (by simp [children]))).only
  | call callee args t =>
      rw [schedule]
      have hargs : Arranged (scheduleList 1 args) :=
        arranged_scheduleList (fun e he => hchild e (List.mem_cons_of_mem _ he)) 1
      have hrest : Arranged (scheduleList 1 args ++ [[]]) := by
        refine List.pairwise_append.2 ⟨hargs, List.pairwise_singleton _ _, ?_⟩
        intro p hp q hq
        obtain rfl := List.mem_singleton.1 hq
        obtain ⟨_, _, _, rfl, -, -⟩ := mem_scheduleList hp
        exact ⟨List.cons_ne_nil _ _, not_nil_earlier⟩
      exact (hchild callee (by simp [children])).below hrest
        (.append (after_scheduleList Nat.one_pos args) (by simp [After]))
  | property x name t =>
      rw [schedule]
      exact (hchild x (by simp [children])).only
  | construct cls args =>
      rw [schedule]
      exact arranged_scheduleList hchild 0
  | _ =>
      simp only [schedule]
      exact .nil

end Expr

end Resumable
