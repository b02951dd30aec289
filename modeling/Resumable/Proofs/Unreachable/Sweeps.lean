import Mathlib.Data.List.Nodup
import Mathlib.Data.List.Perm.Subperm
import Mathlib.Logic.Relation
import Resumable.Proofs.Jump.Graph

/-!
# Sweeps in any order

The search for reachable labels as a set that grows while it is swept: a sweep
visits every label that was in the set when the sweep began, in any order, and
may or may not visit those that were added since. Sweeps are made until one adds
nothing. Main statement: however the sweeps go, the search ends, and it ends
with the labels that paths lead to.
-/

namespace Resumable.Graph

open Relation

/-! ## Adding labels -/

section

variable {found more : List String} {l : String}

theorem mem_addAll : l ∈ addAll found more ↔ l ∈ found ∨ l ∈ more := by
  induction more generalizing found with
  | nil => simp [addAll]
  | cons m more ih =>
      rw [addAll, List.foldl_cons, ← addAll, ih]
      split
      · next hm =>
          rw [List.contains_iff_mem] at hm
          simp only [List.mem_cons]
          exact ⟨fun h => h.imp_right .inr,
            fun h => h.elim .inl fun h => h.elim (fun h => .inl (h ▸ hm)) .inr⟩
      · simp only [List.mem_append, List.mem_cons, List.not_mem_nil, or_false, or_assoc]

theorem nodup_addAll (h : found.Nodup) : (addAll found more).Nodup := by
  induction more generalizing found with
  | nil => exact h
  | cons m more ih =>
      rw [addAll, List.foldl_cons, ← addAll]
      split
      · exact ih h
      · next hm =>
          rw [List.contains_iff_mem] at hm
          refine ih (List.nodup_append.2 ⟨h, List.nodup_singleton m, ?_⟩)
          rintro l hl _ hm' rfl
          exact hm (List.mem_singleton.1 hm' ▸ hl)

/-- Labels are added at the end. -/
theorem exists_addAll (found more : List String) : ∃ new, addAll found more = found ++ new := by
  induction more generalizing found with
  | nil => exact ⟨[], (List.append_nil found).symm⟩
  | cons m more ih =>
      rw [addAll, List.foldl_cons, ← addAll]
      split
      · exact ih found
      · obtain ⟨new, hnew⟩ := ih (found ++ [m])
        exact ⟨m :: new, by rw [hnew, List.append_assoc, List.singleton_append]⟩

end

/-! ## The search -/

/-- A path of edges, of any length, leads from the first label to the second. -/
def Leads (edges : String → List String) : String → String → Prop :=
  ReflTransGen fun l m => m ∈ edges l

structure Search where
  found : List String
  /-- The labels with which the sweep began. -/
  start : List String
  /-- The labels that the sweep has visited. -/
  visited : List String
  /-- Whether the sweep has added a label. -/
  changed : Bool

namespace Search

def sweeping (found : List String) : Search :=
  ⟨found, found, [], false⟩

def first (sources : List String) : Search :=
  sweeping (addAll [] sources)

def visit (edges : String → List String) (s : Search) (l : String) : Search :=
  { s with
    found := addAll s.found (edges l)
    visited := l :: s.visited
    changed := s.changed || (edges l).any fun m => !s.found.contains m }

/-- A visit to some label of the set that the sweep has not visited yet, or the
end of a sweep that calls for another one. -/
inductive Step (edges : String → List String) : Search → Search → Prop
  | visit (s : Search) (l : String) (hfound : l ∈ s.found) (hnew : l ∉ s.visited) :
      Step edges s (s.visit edges l)
  | again (s : Search) (hswept : s.start ⊆ s.visited) (hchanged : s.changed = true) :
      Step edges s (sweeping s.found)

def Over (s : Search) : Prop :=
  s.start ⊆ s.visited ∧ s.changed = false

/-- What holds as long as a search from the sources goes on, if all edges lead to
the targets. -/
structure Sound (edges : String → List String) (sources targets : List String) (s : Search) :
    Prop where
  nodup : s.found.Nodup
  seeded : sources ⊆ s.found
  bounded : s.found ⊆ sources ++ targets
  led : ∀ l ∈ s.found, ∃ source ∈ sources, Leads edges source l
  start : ∃ new, s.found = s.start ++ new ∧ (s.changed = true ↔ new ≠ [])
  once : s.visited.Nodup
  visited : s.visited ⊆ s.found
  followed : ∀ l ∈ s.visited, edges l ⊆ s.found

section

variable {edges : String → List String} {sources targets : List String} {s t : Search}

theorem sound_sweeping {found : List String} (hnodup : found.Nodup) (hsources : sources ⊆ found)
    (hbounded : found ⊆ sources ++ targets)
    (hled : ∀ l ∈ found, ∃ source ∈ sources, Leads edges source l) :
    Sound edges sources targets (sweeping found) where
  nodup := hnodup
  seeded := hsources
  bounded := hbounded
  led := hled
  start := ⟨[], (List.append_nil found).symm, by simp [sweeping]⟩
  once := List.nodup_nil
  visited := List.nil_subset _
  followed := fun _ hl => absurd hl List.not_mem_nil

/-- Something new is added exactly if some label is not there yet. -/
theorem addAll_new {found more new : List String} (h : addAll found more = found ++ new)
    (hnodup : found.Nodup) : (more.any fun m => !found.contains m) = true ↔ new ≠ [] := by
  have hmem (l : String) : l ∈ new ↔ l ∉ found ∧ l ∈ more := by
    have hall : (addAll found more).Nodup := nodup_addAll hnodup
    rw [h, List.nodup_append] at hall
    have hiff : l ∈ found ++ new ↔ l ∈ found ∨ l ∈ more := by rw [← h, mem_addAll]
    rw [List.mem_append] at hiff
    exact ⟨fun hl => ⟨fun hf => hall.2.2 l hf l hl rfl, (hiff.1 (.inr hl)).resolve_left
      fun hf => hall.2.2 l hf l hl rfl⟩, fun hl => (hiff.2 (.inr hl.2)).resolve_left hl.1⟩
  rw [List.any_eq_true]
  constructor
  · rintro ⟨l, hl, hfound⟩
    exact List.ne_nil_of_mem ((hmem l).2 ⟨by simpa using hfound, hl⟩)
  · intro hnew
    obtain ⟨l, hl⟩ := List.exists_mem_of_ne_nil new hnew
    exact ⟨l, ((hmem l).1 hl).2, by simpa using ((hmem l).1 hl).1⟩

theorem Sound.step (hfinite : ∀ l, edges l ⊆ targets) (hs : Sound edges sources targets s)
    (h : Step edges s t) : Sound edges sources targets t := by
  cases h with
  | again hswept hchanged => exact sound_sweeping hs.nodup hs.seeded hs.bounded hs.led
  | visit l hfound hnew =>
      have hmore {m : String} (hm : m ∈ s.found) : m ∈ addAll s.found (edges l) :=
        mem_addAll.2 (.inl hm)
      obtain ⟨old, hold, hchanged⟩ := hs.start
      obtain ⟨new, hadded⟩ := exists_addAll s.found (edges l)
      constructor
      case nodup => exact nodup_addAll hs.nodup
      case seeded => exact fun m hm => hmore (hs.seeded hm)
      case bounded =>
          intro m hm
          exact (mem_addAll.1 hm).elim (fun hm => hs.bounded hm)
            fun hm => List.mem_append_right _ (hfinite l hm)
      case led =>
          intro m hm
          rcases mem_addAll.1 hm with hm | hm
          · exact hs.led m hm
          · obtain ⟨source, hsource, hpath⟩ := hs.led l hfound
            exact ⟨source, hsource, hpath.tail hm⟩
      case start =>
          refine ⟨old ++ new, ?_, ?_⟩
          · simp only [Search.visit]
            rw [hadded, hold, List.append_assoc]
          · simp only [Search.visit]
            rw [Bool.or_eq_true, hchanged, addAll_new hadded hs.nodup, ← not_and_or,
              ← List.append_eq_nil_iff]
      case once => exact List.nodup_cons.2 ⟨hnew, hs.once⟩
      case visited =>
          exact List.cons_subset.2 ⟨hmore hfound, fun m hm => hmore (hs.visited hm)⟩
      case followed =>
          intro m hm k hk
          rcases List.mem_cons.1 hm with rfl | hm
          · exact mem_addAll.2 (.inr hk)
          · exact hmore (hs.followed m hm hk)

theorem Sound.run (hfinite : ∀ l, edges l ⊆ targets) (hs : Sound edges sources targets s)
    (h : ReflTransGen (Step edges) s t) : Sound edges sources targets t := by
  induction h with
  | refl => exact hs
  | tail _ hstep ih => exact ih.step hfinite hstep

/-- A search that is not over can go on. -/
theorem Sound.over_or_step (hs : Sound edges sources targets s) :
    s.Over ∨ ∃ t, Step edges s t := by
  by_cases hswept : s.start ⊆ s.visited
  · cases hchanged : s.changed with
    | false => exact .inl ⟨hswept, hchanged⟩
    | true => exact .inr ⟨_, .again s hswept hchanged⟩
  · obtain ⟨l, hl, hnew⟩ : ∃ l ∈ s.start, l ∉ s.visited := by
      simpa [List.subset_def] using hswept
    obtain ⟨new, hfound, -⟩ := hs.start
    exact .inr ⟨_, .visit s l (hfound ▸ List.mem_append_left _ hl) hnew⟩

/-- A search that is over has found all that paths lead to. -/
theorem Sound.mem_found_iff (hs : Sound edges sources targets s) (hover : s.Over) (l : String) :
    l ∈ s.found ↔ ∃ source ∈ sources, Leads edges source l := by
  refine ⟨hs.led l, ?_⟩
  rintro ⟨source, hsource, hpath⟩
  obtain ⟨hswept, hchanged⟩ := hover
  obtain ⟨new, hfound, hnew⟩ := hs.start
  have hnil : new = [] := by
    rw [hchanged] at hnew
    simpa using hnew
  rw [hnil, List.append_nil] at hfound
  induction hpath with
  | refl => exact hs.seeded hsource
  | tail _ hedge ih => exact hs.followed _ (hswept (hfound ▸ ih)) hedge

/-! ## The end of the search -/

/-- How far a search is from its end when there are `bound` labels: a new label
outweighs all visits of two sweeps, a sweep that is to be made again those of
one. -/
def distance (bound : Nat) (s : Search) : Nat :=
  (bound - s.found.length) * (2 * (bound + 1)) + (if s.changed then bound + 1 else 0) +
    (bound - s.visited.length)

theorem Sound.distance_lt (hfinite : ∀ l, edges l ⊆ targets) (hs : Sound edges sources targets s)
    (h : Step edges s t) :
    distance (sources ++ targets).length t < distance (sources ++ targets).length s := by
  have ht := hs.step hfinite h
  have hlength := (List.subperm_of_subset ht.nodup ht.bounded).length_le
  generalize (sources ++ targets).length = bound at hlength
  have hvisited := (List.subperm_of_subset ht.once ht.visited).length_le
  cases h with
  | again hswept hchanged =>
      simp only [distance, sweeping, hchanged, if_true, Bool.false_eq_true, if_false,
        List.length_nil]
      omega
  | visit l hfound hnew =>
      obtain ⟨new, hadded⟩ := exists_addAll s.found (edges l)
      have hiff := addAll_new hadded hs.nodup
      simp only [distance, Search.visit, List.length_cons, hadded,
        List.length_append] at hlength hvisited ⊢
      cases hany : (edges l).any fun m => !s.found.contains m with
      | false =>
          rw [hany] at hiff
          obtain rfl : new = [] := by simpa using hiff
          simp only [Bool.or_false, List.length_nil, Nat.add_zero] at hlength hvisited ⊢
          omega
      | true =>
          -- at least one of the large summands goes, whatever the two others become
          have hpos : 0 < new.length := List.length_pos_iff.2 (hiff.1 hany)
          have hmul := Nat.mul_le_mul_right (2 * (bound + 1))
            (show bound - (s.found.length + new.length) + 1 ≤ bound - s.found.length by omega)
          rw [Nat.add_mul, Nat.one_mul] at hmul
          simp only [Bool.or_true, if_true]
          omega

/-- No search goes on forever. -/
theorem Sound.acc (hfinite : ∀ l, edges l ⊆ targets) (hs : Sound edges sources targets s) :
    Acc (fun after before => Step edges before after) s := by
  induction hdistance : distance (sources ++ targets).length s using Nat.strongRecOn
    generalizing s with
  | ind n ih =>
      exact ⟨_, fun t h => ih _ (hdistance ▸ hs.distance_lt hfinite h) (hs.step hfinite h) rfl⟩

/-! ## The search in the order of the list -/

/-- A sweep can visit just the labels it began with, in their order. -/
theorem exists_run_visits {rest : List String} (hnodup : rest.Nodup) (hfound : rest ⊆ s.found)
    (hnew : ∀ l ∈ rest, l ∉ s.visited) :
    ∃ changed, ReflTransGen (Step edges) s
      ⟨addAll s.found (rest.flatMap edges), s.start, rest.reverse ++ s.visited, changed⟩ := by
  induction rest generalizing s with
  | nil => exact ⟨s.changed, .refl⟩
  | cons l rest ih =>
      rw [List.forall_mem_cons] at hnew
      obtain ⟨hl, hnodup⟩ := List.nodup_cons.1 hnodup
      obtain ⟨hlfound, hfound⟩ := List.cons_subset.1 hfound
      obtain ⟨changed, hrun⟩ := ih (s := s.visit edges l) hnodup
        (fun m hm => mem_addAll.2 (.inl (hfound hm)))
        fun m hm hvisited => (List.mem_cons.1 hvisited).elim (fun h => hl (h ▸ hm)) (hnew.2 m hm)
      refine ⟨changed, .head (.visit s l hlfound hnew.1) ?_⟩
      rw [List.flatMap_cons, addAll, List.foldl_append, List.reverse_cons, List.append_assoc]
      exact hrun

theorem exists_run_close {fuel : Nat} {found : List String} (hfinite : ∀ l, edges l ⊆ targets)
    (hs : Sound edges sources targets (sweeping found))
    (hfuel : (sources ++ targets).length < found.length + fuel) :
    ∃ t, ReflTransGen (Step edges) (sweeping found) t ∧ t.Over ∧
      t.found = close edges fuel found := by
  induction fuel generalizing found with
  | zero =>
      have hlength := (List.subperm_of_subset hs.nodup hs.bounded).length_le
      simp only [sweeping] at hlength
      omega
  | succ fuel ih =>
      obtain ⟨changed, hrun⟩ : ∃ changed, ReflTransGen (Step edges) (sweeping found)
          ⟨addAll found (found.flatMap edges), found, found.reverse ++ [], changed⟩ :=
        exists_run_visits hs.nodup (List.Subset.refl _) fun _ _ => List.not_mem_nil
      have ht := hs.run hfinite hrun
      have hswept : found ⊆ found.reverse ++ [] := by simp
      obtain ⟨new, hadded, hchanged⟩ := ht.start
      simp only at hadded hchanged
      have hlength := congrArg List.length hadded
      rw [List.length_append] at hlength
      rw [close]
      split
      · next hsame =>
          obtain rfl : new = [] := List.length_eq_zero_iff.1 (by omega)
          exact ⟨_, hrun, ⟨hswept, by simpa using hchanged⟩, by simpa using hadded⟩
      · next hmore =>
          have hnew : new ≠ [] := by
            rintro rfl
            exact hmore (by simpa using hlength)
          have hpos := List.length_pos_iff.2 hnew
          have hagain : Step edges ⟨_, found, found.reverse ++ [], changed⟩
              (sweeping (addAll found (found.flatMap edges))) := .again _ hswept (hchanged.2 hnew)
          obtain ⟨t, hnext, hover, hfound⟩ := ih (ht.step hfinite hagain) (by omega)
          exact ⟨t, hrun.trans (.head hagain hnext), hover, hfound⟩

end

end Search

/-! ## The labels of a graph -/

theorem edges_subset (g : Graph) (l : String) : g.edges l ⊆ g.blocks.flatMap Block.succs := by
  unfold edges
  split
  · next b hb => exact fun m hm => List.mem_flatMap.2 ⟨b, List.mem_of_find?_eq_some hb, hm⟩
  · exact List.nil_subset _

theorem sound_first (edges : String → List String) (sources targets : List String) :
    Search.Sound edges sources targets (.first sources) := by
  have hmem (l : String) : l ∈ addAll [] sources ↔ l ∈ sources := by simp [mem_addAll]
  exact Search.sound_sweeping (nodup_addAll List.nodup_nil) (fun l hl => (hmem l).2 hl)
    (fun l hl => List.mem_append_left _ ((hmem l).1 hl)) fun l hl => ⟨l, (hmem l).1 hl, .refl⟩

/-- The reachable labels of a graph are found by sweeps in the order of the list. -/
theorem exists_run_reachable (g : Graph) (sources : List String) :
    ∃ s, ReflTransGen (Search.Step g.edges) (.first sources) s ∧ s.Over ∧
      s.found = g.reachable sources := by
  refine Search.exists_run_close g.edges_subset (Search.sound_sweeping (nodup_addAll List.nodup_nil)
    (List.Subset.refl _) (List.subset_append_left ..) fun l hl => ⟨l, hl, .refl⟩) ?_
  rw [List.length_append]
  omega

theorem mem_reachable_iff {g : Graph} {sources : List String} {l : String} :
    l ∈ g.reachable sources ↔ ∃ source ∈ sources, Leads g.edges source l := by
  obtain ⟨s, hrun, hover, hfound⟩ := g.exists_run_reachable sources
  have hs := (sound_first g.edges sources _).run g.edges_subset hrun
  rw [← hfound, hs.mem_found_iff hover]

/-- In whatever order the sweeps visit the labels, the search from the sources
ends, and it never stops before a sweep has added nothing; the labels found are
then those that paths lead to. The list of a graph is found in this way, and the
unreachable labels of the graph are those without a path from the entry, in
their order. -/
theorem search_finds_paths {edges : String → List String} {targets : List String}
    (hfinite : ∀ l, edges l ⊆ targets) (sources : List String) :
    Acc (fun after before => Search.Step edges before after) (.first sources) ∧
      (∀ s, ReflTransGen (Search.Step edges) (.first sources) s →
        (s.Over ∨ ∃ t, Search.Step edges s t) ∧
        (s.Over → ∀ l, l ∈ s.found ↔ ∃ source ∈ sources, Leads edges source l)) ∧
      ∀ g : Graph, g.edges = edges →
        (∃ s, ReflTransGen (Search.Step edges) (.first sources) s ∧ s.Over ∧
          s.found = g.reachable sources) ∧
        ∃ live : String → Bool, (∀ l, live l = true ↔ Leads edges entryLabel l) ∧
          g.unreachable = g.labels.filter fun l => !live l := by
  have hfirst := sound_first edges sources targets
  refine ⟨hfirst.acc hfinite, fun s hrun => ?_, ?_⟩
  · have hs := hfirst.run hfinite hrun
    exact ⟨hs.over_or_step, hs.mem_found_iff⟩
  · rintro g rfl
    refine ⟨g.exists_run_reachable sources, (g.reachable [entryLabel]).contains, fun l => ?_, rfl⟩
    rw [List.contains_iff_mem, mem_reachable_iff]
    simp

def loopCode : List Stmt :=
  [.goto "loop", .label "loop", .condGoto .missing "loop" "exit", .label "exit", .ret .missing,
    .label "dead", .goto "exit"]

theorem loopCode_search_finds_paths :
    (∀ l, (split loopCode).edges l ⊆ ["loop", "loop", "exit", "exit"]) ∧
      ∃ s, ReflTransGen (Search.Step (split loopCode).edges) (.first [""]) s ∧
        s.Over ∧ s.found = ["", "loop", "exit"] := by
  have hfinite : ∀ l, (split loopCode).edges l ⊆ ["loop", "loop", "exit", "exit"] :=
    (split loopCode).edges_subset
  obtain ⟨-, -, hgraph⟩ := search_finds_paths hfinite [""]
  exact ⟨hfinite, (hgraph (split loopCode) rfl).1⟩

end Resumable.Graph
