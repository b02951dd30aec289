import Mathlib.Algebra.Group.Nat.Defs
import Resumable.Arena.IdSet

/-!
# Sets of identities as sets

What the operations on bitmaps do to membership, and that the list of members
holds exactly the members.
-/

namespace Resumable.IdSet

theorem toBitVec_mask (n : Nat) : (mask n).toBitVec = BitVec.twoPow 64 (n % 64) := by
  apply BitVec.eq_of_toNat_eq
  have hlt : n % 64 < 2 ^ 64 := by omega
  simp [mask, wordBits, BitVec.toNat_twoPow, Nat.shiftLeft_eq]

/-- A word and a mask have a bit in common if the word has the bit of the mask. -/
theorem and_mask_ne_zero (w : UInt64) (n : Nat) :
    (w &&& mask n != 0) = w.toBitVec.getLsbD (n % 64) := by
  have hlt : n % 64 < 64 := Nat.mod_lt _ (by decide)
  have hpow : BitVec.twoPow 64 (n % 64) ≠ 0#64 := by
    intro h
    have hbit := congrArg (BitVec.getLsbD · (n % 64)) h
    simp [hlt] at hbit
  have hword : (w &&& mask n = 0) ↔ w.toBitVec.getLsbD (n % 64) = false := by
    rw [← UInt64.toBitVec_inj, UInt64.toBitVec_and, toBitVec_mask, BitVec.and_twoPow]
    cases w.toBitVec.getLsbD (n % 64) <;> simp [hpow]
  cases hbit : w.toBitVec.getLsbD (n % 64) with
  | true => simp [hword, hbit]
  | false => simp [hword, hbit]

theorem contains_eq (s : IdSet) (n : Nat) :
    s.contains n = (s.word (n / 64)).toBitVec.getLsbD (n % 64) :=
  and_mask_ne_zero ..

theorem word_grow (s : IdSet) (count i : Nat) : (s.grow count).word i = s.word i := by
  simp only [word, grow, Array.getD_eq_getD_getElem?, Array.getElem?_append,
    Array.getElem?_replicate]
  split
  · rfl
  · next hi =>
      rw [Array.getElem?_eq_none (by omega)]
      split <;> rfl

theorem size_grow (s : IdSet) (count : Nat) : count ≤ (s.grow count).words.size := by
  simp only [grow, Array.size_append, Array.size_replicate]
  omega

theorem word_modify (s : IdSet) (i j : Nat) (change : UInt64 → UInt64)
    (hchange : s.words.size ≤ i → change 0 = 0) :
    IdSet.word ⟨s.words.modify i change⟩ j = if i = j then change (s.word j) else s.word j := by
  simp only [word, Array.getD_eq_getD_getElem?, Array.getElem?_modify]
  split
  · next hij =>
      subst hij
      by_cases hlt : i < s.words.size
      · rw [Array.getElem?_eq_getElem hlt]
        rfl
      · rw [Array.getElem?_eq_none (by omega)]
        exact (hchange (by omega)).symm
  · rfl

theorem mod_eq_iff {n m : Nat} (h : n / 64 = m / 64) : m % 64 = n % 64 ↔ m = n := by
  omega

theorem contains_insert (s : IdSet) (n m : Nat) :
    (s.insert n).contains m = (decide (m = n) || s.contains m) := by
  have hsize := size_grow s (n / wordBits + 1)
  have hword := word_modify (s.grow (n / wordBits + 1)) (n / wordBits) (m / 64) (· ||| mask n)
    (by omega)
  rw [contains_eq, contains_eq, insert, hword, word_grow]
  split
  · next hindex =>
      have hmod := mod_eq_iff hindex
      rw [UInt64.toBitVec_or, toBitVec_mask, BitVec.getLsbD_or, BitVec.getLsbD_twoPow, Bool.or_comm]
      have hlt : n % 64 < 64 := Nat.mod_lt _ (by decide)
      simp [hlt, eq_comm (a := n % 64), hmod]
  · next hindex =>
      have hne : m ≠ n := by
        rintro rfl
        exact hindex rfl
      simp [hne]

theorem contains_erase (s : IdSet) (n m : Nat) :
    (s.erase n).contains m = (decide (m ≠ n) && s.contains m) := by
  have hword := word_modify s (n / wordBits) (m / 64) (· &&& ~~~ mask n) (by simp)
  rw [contains_eq, contains_eq, erase, hword]
  split
  · next hindex =>
      have hmod := mod_eq_iff hindex
      have hlt : m % 64 < 64 := Nat.mod_lt _ (by decide)
      rw [UInt64.toBitVec_and, UInt64.toBitVec_not, toBitVec_mask, BitVec.getLsbD_and,
        BitVec.getLsbD_not, BitVec.getLsbD_twoPow, Bool.and_comm]
      have hlt' : n % 64 < 64 := Nat.mod_lt _ (by decide)
      simp [hlt, hlt', eq_comm (a := n % 64), hmod]
  · next hindex =>
      have hne : m ≠ n := by
        rintro rfl
        exact hindex rfl
      simp [hne]

theorem contains_withCapacity (max n : Nat) : (withCapacity max).contains n = false := by
  have hword : (withCapacity max).word (n / 64) = 0 := by
    simp only [word, withCapacity, Array.getD_eq_getD_getElem?, Array.getElem?_replicate]
    split <;> rfl
  rw [contains_eq, hword]
  simp

/-! ## Listing the members -/

theorem getLsbD_trailingZeros {w : UInt64} (hw : w ≠ 0) :
    w.toBitVec.getLsbD (trailingZeros w) = true :=
  BitVec.getLsbD_true_ctz_of_ne_zero fun h => hw (UInt64.toBitVec_inj.1 h)

theorem getLsbD_of_lt_trailingZeros {w : UInt64} {i : Nat} (h : i < trailingZeros w) :
    w.toBitVec.getLsbD i = false :=
  BitVec.getLsbD_false_of_lt_ctz h

/-- What is below the bit after the lowest one that is set is that bit alone. -/
theorem mod_two_pow_trailingZeros {w : UInt64} (hw : w ≠ 0) :
    w.toNat % 2 ^ (trailingZeros w + 1) = 2 ^ trailingZeros w := by
  apply Nat.eq_of_testBit_eq
  intro i
  rw [Nat.testBit_mod_two_pow, Nat.testBit_two_pow]
  change (_ && w.toBitVec.getLsbD i) = _
  rcases Nat.lt_trichotomy i (trailingZeros w) with hi | rfl | hi
  · simp [getLsbD_of_lt_trailingZeros hi, Nat.ne_of_gt hi]
  · simp [getLsbD_trailingZeros hw]
  · simp [Nat.ne_of_lt hi, Nat.not_lt.2 (Nat.succ_le_of_lt hi)]

/-- A word and the number before it have the same bits, but for the lowest one
that is set. -/
theorem getLsbD_and_sub_one {w : UInt64} (hw : w ≠ 0) (i : Nat) :
    (w &&& (w - 1)).toBitVec.getLsbD i =
      (w.toBitVec.getLsbD i && decide (i ≠ trailingZeros w)) := by
  have hpos : 0 < w.toNat := Nat.pos_of_ne_zero fun h => hw (UInt64.toNat_inj.1 h)
  have hsub : (w - 1).toNat = w.toNat - 1 :=
    UInt64.toNat_sub_of_le _ _ (UInt64.le_iff_toNat_le.2 hpos)
  have hlow := mod_two_pow_trailingZeros hw
  have hlt : 2 ^ trailingZeros w < 2 ^ (trailingZeros w + 1) :=
    Nat.pow_lt_pow_right (by decide) (Nat.lt_succ_self _)
  have hone : 0 < 2 ^ trailingZeros w := Nat.two_pow_pos _
  have hsplit := Nat.div_add_mod w.toNat (2 ^ (trailingZeros w + 1))
  have hbefore : w.toNat - 1 =
      2 ^ (trailingZeros w + 1) * (w.toNat / 2 ^ (trailingZeros w + 1)) +
        (2 ^ trailingZeros w - 1) := by
    omega
  have hbit : (w - 1).toBitVec.getLsbD i = (w.toNat - 1).testBit i := by
    rw [← hsub]
    rfl
  rw [UInt64.toBitVec_and, BitVec.getLsbD_and, hbit, hbefore,
    Nat.testBit_two_pow_mul_add _ (by omega), Nat.testBit_two_pow_sub_one]
  rcases Nat.lt_trichotomy i (trailingZeros w) with hi | rfl | hi
  · simp [getLsbD_of_lt_trailingZeros hi]
  · simp
  · -- above the lowest bit nothing changes
    have hhigh : ¬ i < trailingZeros w + 1 := Nat.not_lt.2 (Nat.succ_le_of_lt hi)
    have hshift : (w.toNat / 2 ^ (trailingZeros w + 1)).testBit (i - (trailingZeros w + 1)) =
        w.toBitVec.getLsbD i := by
      rw [Nat.testBit_div_two_pow, Nat.sub_add_cancel (Nat.succ_le_of_lt hi)]
      rfl
    rw [if_neg hhigh, hshift]
    simp [Nat.ne_of_gt hi]

/-- A word stands for the numbers of its bits. -/
theorem mem_wordMembers {base n : Nat} {w : UInt64} :
    n ∈ wordMembers base w ↔ ∃ i, w.toBitVec.getLsbD i = true ∧ n = base + i := by
  fun_induction wordMembers base w with
  | case1 => simp
  | case2 w hw ih =>
      rw [List.mem_cons, ih]
      constructor
      · rintro (rfl | ⟨i, hi, rfl⟩)
        · exact ⟨_, getLsbD_trailingZeros hw, rfl⟩
        · rw [getLsbD_and_sub_one hw, Bool.and_eq_true] at hi
          exact ⟨i, hi.1, rfl⟩
      · rintro ⟨i, hi, rfl⟩
        by_cases hlow : i = trailingZeros w
        · exact .inl (by rw [hlow])
        · refine .inr ⟨i, ?_, rfl⟩
          rw [getLsbD_and_sub_one hw, hi]
          simpa using hlow

theorem pairwise_wordMembers (base : Nat) (w : UInt64) :
    (wordMembers base w).Pairwise (· < ·) := by
  fun_induction wordMembers base w with
  | case1 => exact .nil
  | case2 w hw ih =>
      refine .cons (fun n hn => ?_) ih
      obtain ⟨i, hi, rfl⟩ := mem_wordMembers.1 hn
      rw [getLsbD_and_sub_one hw, Bool.and_eq_true, decide_eq_true_eq] at hi
      -- what is left lies above the bit that was cleared
      have hge : trailingZeros w ≤ i := by
        apply Nat.le_of_not_lt
        intro hlt
        rw [getLsbD_of_lt_trailingZeros hlt] at hi
        cases hi.1
      omega

/-- The members that one word of the row gives. -/
theorem mem_wordMembers_word {s : IdSet} {i n : Nat} :
    n ∈ wordMembers (i * wordBits) (s.word i) ↔ n / 64 = i ∧ s.contains n = true := by
  rw [mem_wordMembers, contains_eq, wordBits]
  constructor
  · rintro ⟨j, hj, rfl⟩
    have hlt : j < 64 := BitVec.lt_of_getLsbD hj
    have hword : (i * 64 + j) / 64 = i := by omega
    have hbit : (i * 64 + j) % 64 = j := by omega
    rw [hword, hbit]
    exact ⟨rfl, hj⟩
  · rintro ⟨rfl, hn⟩
    exact ⟨n % 64, hn, by omega⟩

theorem mem_toList {s : IdSet} {n : Nat} : n ∈ s.toList ↔ s.contains n = true := by
  simp only [toList, List.mem_flatMap, List.mem_range, mem_wordMembers_word]
  constructor
  · rintro ⟨i, -, -, hn⟩
    exact hn
  · intro hn
    refine ⟨n / 64, ?_, rfl, hn⟩
    -- a member lies in a word of the row
    apply Nat.lt_of_not_ge
    intro hge
    rw [contains_eq, word, Array.getD_eq_getD_getElem?, Array.getElem?_eq_none (by omega)] at hn
    simp at hn

/-- Members are listed in ascending order. -/
theorem pairwise_toList (s : IdSet) : s.toList.Pairwise (· < ·) := by
  rw [toList, List.pairwise_flatMap]
  refine ⟨fun i _ => pairwise_wordMembers .., ?_⟩
  refine List.pairwise_lt_range.imp fun {i j} hij n hn m hm => ?_
  -- a number lies in the word that its quotient names
  have hi := (mem_wordMembers_word.1 hn).1
  have hj := (mem_wordMembers_word.1 hm).1
  omega

end Resumable.IdSet
