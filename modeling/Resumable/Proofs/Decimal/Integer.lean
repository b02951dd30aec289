import Resumable.Decimal.Integer

/-!
# Reading integers back

An integer of 64 bits is read from the numerals that write it, from no other
text, and so from its own text.
-/

namespace Resumable.Decimal

theorem digit?_eq (c : Char) :
    digit? c = if c.isDigit then some (c.toNat - '0'.toNat) else none := rfl

/-- Digits are read as the number they write. -/
theorem digitsValue?_of_isDigit {cs : List Char} (hcs : ∀ c ∈ cs, c.isDigit = true) (acc : Nat) :
    digitsValue? acc cs = some (Nat.ofDigitChars 10 cs acc) := by
  induction cs generalizing acc with
  | nil => rfl
  | cons c cs ih =>
      rw [List.forall_mem_cons] at hcs
      rw [digitsValue?, digit?_eq, if_pos hcs.1]
      simp only [Option.bind_eq_bind, Option.bind_some]
      rw [ih hcs.2, Nat.ofDigitChars_cons, Nat.mul_comm]

/-- A row that begins with no sign is read as it is. -/
theorem signed?_of_not_sign {c : Char} {cs : List Char} (hminus : c ≠ '-') (hplus : c ≠ '+') :
    signed? (c :: cs) = (natural? (c :: cs)).map fun n => (n : Int) := by
  unfold signed?
  split
  · next heq => exact absurd (List.cons.inj heq).1 hminus
  · next heq => exact absurd (List.cons.inj heq).1 hplus
  · rfl

/-! ## What is read -/

def Natural (cs : List Char) (n : Nat) : Prop :=
  cs ≠ [] ∧ (∀ c ∈ cs, c.isDigit = true) ∧ n = Nat.ofDigitChars 10 cs 0

inductive Numeral : List Char → Int → Prop
  | plain {cs : List Char} {n : Nat} (h : Natural cs n) : Numeral cs n
  | plus {cs : List Char} {n : Nat} (h : Natural cs n) : Numeral ('+' :: cs) n
  | minus {cs : List Char} {n : Nat} (h : Natural cs n) : Numeral ('-' :: cs) (-n)

theorem Numeral.isDigit_or {cs : List Char} {n : Int} (h : Numeral cs n) :
    cs ≠ [] ∧ ∀ c ∈ cs, c = '+' ∨ c = '-' ∨ c.isDigit = true := by
  cases h with
  | plain h => exact ⟨h.1, fun c hc => .inr (.inr (h.2.1 c hc))⟩
  | plus h | minus h =>
      exact ⟨List.cons_ne_nil _ _, List.forall_mem_cons.2
        ⟨by simp, fun c hc => .inr (.inr (h.2.1 c hc))⟩⟩

theorem isDigit_of_digitsValue? {acc n : Nat} {cs : List Char} (h : digitsValue? acc cs = some n) :
    ∀ c ∈ cs, c.isDigit = true := by
  induction cs generalizing acc with
  | nil => simp
  | cons c cs ih =>
      rw [digitsValue?, digit?_eq] at h
      split at h
      · next hc => exact List.forall_mem_cons.2 ⟨hc, ih h⟩
      · cases h

theorem natural?_eq_some_iff {cs : List Char} {n : Nat} : natural? cs = some n ↔ Natural cs n := by
  cases cs with
  | nil => simp [natural?, Natural]
  | cons c cs =>
      rw [natural?]
      constructor
      · intro h
        have hdigits := isDigit_of_digitsValue? h
        rw [digitsValue?_of_isDigit hdigits] at h
        exact ⟨List.cons_ne_nil c cs, hdigits, (Option.some.inj h).symm⟩
      · rintro ⟨-, hdigits, rfl⟩
        exact digitsValue?_of_isDigit hdigits 0

theorem signed?_eq_some_iff {cs : List Char} {n : Int} : signed? cs = some n ↔ Numeral cs n := by
  constructor
  · intro h
    unfold signed? at h
    split at h
    · next ds =>
        cases hds : natural? ds with
        | none => simp [hds] at h
        | some k =>
            obtain rfl : -(k : Int) = n := by simpa [hds] using h
            exact .minus (natural?_eq_some_iff.1 hds)
    · next ds =>
        cases hds : natural? ds with
        | none => simp [hds] at h
        | some k =>
            obtain rfl : (k : Int) = n := by simpa [hds] using h
            exact .plus (natural?_eq_some_iff.1 hds)
    · cases hds : natural? cs with
      | none => simp [hds] at h
      | some k =>
          obtain rfl : (k : Int) = n := by simpa [hds] using h
          exact .plain (natural?_eq_some_iff.1 hds)
  · intro h
    cases h with
    | minus h => simp [signed?, natural?_eq_some_iff.2 h]
    | plus h => simp [signed?, natural?_eq_some_iff.2 h]
    | plain h =>
        obtain ⟨c, cs, rfl⟩ := List.exists_cons_of_ne_nil h.1
        have hc : c.isDigit = true := h.2.1 c (.head _)
        rw [signed?_of_not_sign (by rintro rfl; cases hc) (by rintro rfl; cases hc)]
        simp [natural?_eq_some_iff.2 h]

/-! ## Reading back -/

theorem natural_toDigits (n : Nat) : Natural (Nat.toDigits 10 n) n :=
  ⟨Nat.toDigits_ne_nil, fun _ hc => Nat.isDigit_of_mem_toDigits (by decide) (by decide) hc,
    Nat.ofDigitChars_ten_toDigits.symm⟩

theorem numeral_toString (n : Int) : Numeral (toString n).toList n := by
  cases n with
  | ofNat n =>
      change Numeral n.repr.toList _
      rw [Nat.toList_repr]
      exact .plain (natural_toDigits n)
  | negSucc n =>
      change Numeral ("-" ++ (n + 1).repr).toList _
      rw [String.toList_append, Nat.toList_repr]
      exact .minus (natural_toDigits (n + 1))

theorem inRange_toInt (n : Int64) : inRange n.toInt = true := by
  rw [inRange, Bool.and_eq_true, decide_eq_true_eq, decide_eq_true_eq]
  exact ⟨n.minValue_le_toInt, n.toInt_le⟩

/-- An integer is read from the numerals of its value. -/
theorem readInt64?_eq_some_iff {text : String} {n : Int64} :
    readInt64? text = some n ↔ Numeral text.toList n.toInt := by
  rw [← signed?_eq_some_iff, readInt64?]
  constructor
  · intro h
    obtain ⟨k, hk, h⟩ := Option.bind_eq_some_iff.1 h
    split at h
    · next hrange =>
        rw [inRange, Bool.and_eq_true, decide_eq_true_eq, decide_eq_true_eq, Int64.toInt_minValue,
          Int64.toInt_maxValue] at hrange
        rw [← Option.some.inj h, Int64.toInt_ofInt_of_le hrange.1 (by omega), hk]
    · cases h
  · intro h
    simp [h, inRange_toInt]

theorem readInt64?_int64Text (n : Int64) : readInt64? (int64Text n) = some n :=
  readInt64?_eq_some_iff.2 (numeral_toString n.toInt)

end Resumable.Decimal
