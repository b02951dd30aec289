import Resumable.Proofs.Arena.IdSet

/-!
# Bitmaps after any changes

A bitmap that is changed again and again stands for a finite set. Main
statement: its members are the numbers that were put in last, whatever room it
began with, and they are listed and counted as such.
-/

namespace Resumable.IdSet

inductive Change where
  | insert (n : Nat)
  | erase (n : Nat)

namespace Change

def id : Change → Nat
  | .insert n | .erase n => n

def apply (s : IdSet) : Change → IdSet
  | .insert n => s.insert n
  | .erase n => s.erase n

end Change

def LastInserted (changes : List Change) (n : Nat) : Prop :=
  ∃ before after, changes = before ++ .insert n :: after ∧ ∀ c ∈ after, c.id ≠ n

section

variable {c : Change} {changes : List Change} {n : Nat}

theorem lastInserted_cons : LastInserted (c :: changes) n ↔
    LastInserted changes n ∨ c = .insert n ∧ ∀ d ∈ changes, d.id ≠ n := by
  constructor
  · rintro ⟨before, after, hsplit, hafter⟩
    rcases List.cons_eq_append_iff.1 hsplit with ⟨-, hcons⟩ | ⟨before', -, hsplit⟩
    · cases hcons
      exact .inr ⟨rfl, hafter⟩
    · exact .inl ⟨before', after, hsplit, hafter⟩
  · rintro (⟨before, after, rfl, hafter⟩ | ⟨rfl, hafter⟩)
    · exact ⟨c :: before, after, rfl, hafter⟩
    · exact ⟨[], changes, rfl, hafter⟩

theorem contains_apply (s : IdSet) (c : Change) (n : Nat) : (c.apply s).contains n = true ↔
    c = .insert n ∨ s.contains n = true ∧ c.id ≠ n := by
  cases c with
  | insert m =>
      rw [Change.apply, contains_insert, Bool.or_eq_true, decide_eq_true_eq, Change.id,
        Change.insert.injEq]
      grind
  | erase m =>
      rw [Change.apply, contains_erase, Bool.and_eq_true, decide_eq_true_eq, Change.id]
      grind

/-- A number is in the set if it was put in last, or if it was there before and
no change is about it. -/
theorem contains_changes (s : IdSet) (changes : List Change) (n : Nat) :
    (changes.foldl Change.apply s).contains n = true ↔
      LastInserted changes n ∨ s.contains n = true ∧ ∀ c ∈ changes, c.id ≠ n := by
  induction changes generalizing s with
  | nil => simp [LastInserted]
  | cons c changes ih =>
      rw [List.foldl_cons, ih, contains_apply, lastInserted_cons, List.forall_mem_cons]
      grind

end

/-! ## Growing and counting -/

theorem contains_grow (s : IdSet) (count n : Nat) :
    (s.grow count).contains n = s.contains n := by
  rw [contains_eq, contains_eq, word_grow]

/-- A word gives as many numbers as it has bits. -/
theorem length_wordMembers (base : Nat) (w : UInt64) :
    (wordMembers base w).length = bitCount w := by
  have hnodup : (wordMembers base w).Nodup :=
    (pairwise_wordMembers base w).imp fun h => Nat.ne_of_lt h
  have hbits : ((List.range 64).filter fun i => w &&& mask i != 0).Nodup :=
    List.nodup_range.filter _
  have hperm : (wordMembers base w).Perm
      (((List.range 64).filter fun i => w &&& mask i != 0).map (base + ·)) := by
    refine (List.perm_ext_iff_of_nodup hnodup ?_).2 fun n => ?_
    · exact List.Pairwise.map _ (fun a b hab h => hab (Nat.add_left_cancel h)) hbits
    · simp only [mem_wordMembers, List.mem_map, List.mem_filter, List.mem_range, and_mask_ne_zero]
      constructor
      · rintro ⟨i, hi, rfl⟩
        have hlt : i < 64 := BitVec.lt_of_getLsbD hi
        exact ⟨i, ⟨hlt, by rwa [Nat.mod_eq_of_lt hlt]⟩, rfl⟩
      · rintro ⟨i, ⟨hlt, hi⟩, rfl⟩
        exact ⟨i, by rwa [Nat.mod_eq_of_lt hlt] at hi, rfl⟩
  rw [hperm.length_eq, List.length_map, bitCount, wordBits, List.countP_eq_length_filter]

theorem length_flatMap_eq_foldl {α β : Type} (f : α → List β) (xs : List α) (k : Nat) :
    k + (xs.flatMap f).length = xs.foldl (fun n x => n + (f x).length) k := by
  induction xs generalizing k with
  | nil => rfl
  | cons x xs ih =>
      rw [List.foldl_cons, ← ih, List.flatMap_cons, List.length_append, Nat.add_assoc]

/-- The bits that are set are as many as the members. -/
theorem size_eq_length_toList (s : IdSet) : s.size = s.toList.length := by
  have hwords : s.words.toList = (List.range s.words.size).map s.word := by
    refine List.ext_getElem (by simp) fun i hi _ => ?_
    rw [Array.length_toList] at hi
    simp [word, hi]
  calc s.size = s.words.toList.foldl (fun n w => n + bitCount w) 0 := by
        rw [size, Array.foldl_toList]
    _ = (List.range s.words.size).foldl
        (fun n i => n + (wordMembers (i * wordBits) (s.word i)).length) 0 := by
        simp only [hwords, List.foldl_map, length_wordMembers]
    _ = s.toList.length := by rw [← length_flatMap_eq_foldl, Nat.zero_add, toList]

/-- After any changes of an empty set of any capacity the members are the
numbers that were put in last; they are listed in ascending order and counted,
and more room changes nothing. -/
theorem changes_refine_set (max : Nat) (changes : List Change) :
    let s := changes.foldl Change.apply (withCapacity max)
    (∀ n, s.contains n = true ↔ LastInserted changes n) ∧
      s.toList.Pairwise (· < ·) ∧ (∀ n, n ∈ s.toList ↔ LastInserted changes n) ∧
      s.size = s.toList.length ∧ ∀ count n, (s.grow count).contains n = s.contains n := by
  intro s
  have hmem (n : Nat) : s.contains n = true ↔ LastInserted changes n := by
    rw [contains_changes, contains_withCapacity]
    simp
  exact ⟨hmem, pairwise_toList s, fun n => mem_toList.trans (hmem n), size_eq_length_toList s,
    contains_grow s⟩

end Resumable.IdSet
