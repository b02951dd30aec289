import Mathlib.Data.Nat.Digits.Defs
import Resumable.Text.Quoted

/-!
# Reading quoted texts

Every character of a quoted text can be read back from its escape, whatever
follows, and the first quotation mark that no escape covers ends the text.
-/

namespace Resumable.Text

/-! ## Hexadecimal numbers -/

def hexDigit (c : Char) : Nat :=
  if c.isDigit then c.toNat - '0'.toNat else c.toNat - 'a'.toNat + 10

def hexValue (cs : List Char) : Nat :=
  cs.foldl (fun acc c => 16 * acc + hexDigit c) 0

theorem hexDigit_digitChar : ∀ {n : Nat}, n < 16 → hexDigit n.digitChar = n := by
  decide

theorem hexValue_append_singleton (cs : List Char) (c : Char) :
    hexValue (cs ++ [c]) = 16 * hexValue cs + hexDigit c := by
  simp [hexValue]

theorem hexValue_toDigits (n : Nat) : hexValue (Nat.toDigits 16 n) = n := by
  induction n using Nat.strongRecOn with
  | ind n ih =>
      by_cases hn : n < 16
      · rw [Nat.toDigits_of_lt_base hn]
        exact (Nat.zero_add _).trans (hexDigit_digitChar hn)
      · rw [Nat.toDigits_of_base_le (by decide) (by omega), hexValue_append_singleton,
          ih (n / 16) (by omega), hexDigit_digitChar (Nat.mod_lt n (by decide))]
        omega

theorem hexValue_zeros (k : Nat) (cs : List Char) :
    hexValue (List.replicate k '0' ++ cs) = hexValue cs := by
  induction k with
  | zero => rfl
  | succ k ih =>
      rw [List.replicate_succ, List.cons_append, ← ih]
      rfl

theorem hexValue_hexPadded (width n : Nat) : hexValue (hexPadded width n).toList = n := by
  rw [hexPadded, String.toList_ofList, hexValue_zeros, hexValue_toDigits]

theorem length_hexPadded {width n : Nat} (hwidth : 0 < width) (hn : n < 16 ^ width) :
    (hexPadded width n).toList.length = width := by
  have hle := Nat.toDigits_length 16 n width hwidth hn
  rw [hexPadded, String.toList_ofList, List.length_append, List.length_replicate]
  omega

/-! ## Escapes -/

def readHex (width : Nat) (cs : List Char) : Char × List Char :=
  (Char.ofNat (hexValue (cs.take width)), cs.drop width)

def readEscape : List Char → Option (Char × List Char)
  | [] => none
  | c :: rest =>
      if c = 'a' then some ('\x07', rest)
      else if c = 'b' then some ('\x08', rest)
      else if c = 't' then some ('\t', rest)
      else if c = 'n' then some ('\n', rest)
      else if c = 'v' then some ('\x0b', rest)
      else if c = 'f' then some ('\x0c', rest)
      else if c = 'r' then some ('\r', rest)
      else if c = 'x' then some (readHex 2 rest)
      else if c = 'u' then some (readHex 4 rest)
      else if c = 'U' then some (readHex 8 rest)
      else some (c, rest)

def readChar : List Char → Option (Char × List Char)
  | [] => none
  | c :: rest => if c = '\\' then readEscape rest else some (c, rest)

theorem readHex_hexPadded {width : Nat} {c : Char} (hwidth : 0 < width) (hc : c.toNat < 16 ^ width)
    (rest : List Char) : readHex width ((hexPadded width c.toNat).toList ++ rest) = (c, rest) := by
  have hlength := length_hexPadded hwidth hc
  rw [readHex, List.take_left' hlength, List.drop_left' hlength, hexValue_hexPadded, Char.ofNat_toNat]

/-- A backslash and a mark in front of digits are read as what the mark calls for. -/
theorem readChar_hex {lead digits : String} {mark : Char} {width : Nat} {rest : List Char}
    (hlead : lead.toList = ['\\', mark])
    (hmark : ∀ cs, readEscape (mark :: cs) = some (readHex width cs)) :
    readChar ((lead ++ digits).toList ++ rest) = some (readHex width (digits.toList ++ rest)) := by
  rw [String.toList_append, hlead, List.append_assoc]
  exact hmark _

/-- A character can be read back from how it stands in a quoted text. -/
theorem readChar_escapeChar (c : Char) (rest : List Char) :
    readChar ((escapeChar c).toList ++ rest) = some (c, rest) := by
  have hcode {n : Nat} (hn : c.toNat = n) : Char.ofNat n = c := by rw [← hn, Char.ofNat_toNat]
  unfold escapeChar escapeIn
  split
  · next h =>
      rw [Bool.or_eq_true, decide_eq_true_eq, decide_eq_true_eq] at h
      rcases h with rfl | rfl <;> rfl
  · next h =>
      simp only [Bool.or_eq_true, decide_eq_true_eq, not_or] at h
      split
      · rw [Char.toString, String.toList_singleton, List.singleton_append, readChar, if_neg h.2]
      · split
        iterate 7 next hn => rw [← hcode hn]; rfl
        · split
          · next hn =>
              rw [Bool.or_eq_true, decide_eq_true_eq, decide_eq_true_eq] at hn
              rw [readChar_hex (show _ = ['\\', 'x'] from rfl) fun _ => rfl]
              exact congrArg some (readHex_hexPadded (by decide) (by omega) rest)
          · split
            · next hn =>
                rw [readChar_hex (show _ = ['\\', 'u'] from rfl) fun _ => rfl]
                exact congrArg some (readHex_hexPadded (by decide) (by omega) rest)
            · rw [readChar_hex (show _ = ['\\', 'U'] from rfl) fun _ => rfl]
              have hlt : c.toNat < 0x110000 := by
                rcases c.valid with h | h
                · exact Nat.lt_trans h (by decide)
                · exact h.2
              exact congrArg some (readHex_hexPadded (by decide) (by omega) rest)

/-! ## Texts -/

def onward (cs rest : List Char) : Option {rest : List Char // rest.length < cs.length} :=
  if h : rest.length < cs.length then some ⟨rest, h⟩ else none

theorem onward_of_lt {cs rest : List Char} (h : rest.length < cs.length) :
    onward cs rest = some ⟨rest, h⟩ :=
  dif_pos h

theorem onward_append {part : List Char} (hne : part ≠ []) (rest : List Char) :
    onward (part ++ rest) rest = some ⟨rest, by simp [List.length_pos_iff.2 hne]⟩ :=
  onward_of_lt _

theorem onward_append_cons (part : List Char) (c : Char) (rest : List Char) :
    onward (part ++ c :: rest) rest =
      some ⟨rest, by rw [List.length_append, List.length_cons]; omega⟩ :=
  onward_of_lt _

def readQuoted : List Char → Option (List Char × List Char)
  | '"' :: rest => some ([], rest)
  | cs => do
      let (c, rest) ← readChar cs
      let ⟨rest, _⟩ ← onward cs rest
      let (text, rest) ← readQuoted rest
      return (c :: text, rest)
termination_by cs => cs.length

/-- An escape does not begin with a quotation mark. -/
theorem escapeChar_cons (c : Char) : ∃ d ds, (escapeChar c).toList = d :: ds ∧ d ≠ '"' := by
  unfold escapeChar escapeIn
  split
  · exact ⟨'\\', _, by rw [String.toList_append]; rfl, by decide⟩
  · next h =>
      simp only [Bool.or_eq_true, decide_eq_true_eq, not_or] at h
      split
      · exact ⟨c, [], by rw [Char.toString, String.toList_singleton], h.1⟩
      · split
        all_goals try exact ⟨'\\', _, rfl, by decide⟩
        split
        · exact ⟨'\\', _, by rw [String.toList_append]; rfl, by decide⟩
        · split <;> exact ⟨'\\', _, by rw [String.toList_append]; rfl, by decide⟩

theorem readQuoted_escapeChars (cs rest : List Char) :
    readQuoted (cs.flatMap (fun c => (escapeChar c).toList) ++ '"' :: rest) = some (cs, rest) := by
  induction cs with
  | nil => rw [List.flatMap_nil, List.nil_append, readQuoted]
  | cons c cs ih =>
      rw [List.flatMap_cons, List.append_assoc]
      generalize cs.flatMap (fun c => (escapeChar c).toList) ++ '"' :: rest = after at ih ⊢
      obtain ⟨d, ds, hd, hne⟩ := escapeChar_cons c
      have hchar := readChar_escapeChar c after
      have honward : onward (d :: (ds ++ after)) after = _ :=
        onward_append (List.cons_ne_nil d ds) after
      rw [hd, List.cons_append] at hchar ⊢
      rw [readQuoted]
      · rw [hchar]
        simp only [Option.bind_eq_bind, Option.bind_some, honward, ih, Option.pure_def]
      · exact fun _ heq => hne (List.cons.inj heq).1

theorem toList_quote (s : String) :
    (quote s).toList = '"' :: (s.toList.flatMap (fun c => (escapeChar c).toList) ++ ['"']) := by
  rw [quote, String.toList_append, String.toList_append, String.toList_join]
  simp [List.flatMap_def, Function.comp_def]

end Resumable.Text
