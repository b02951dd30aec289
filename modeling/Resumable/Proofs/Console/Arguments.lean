import Resumable.Console.Arguments
import Resumable.Proofs.Decimal.Integer

/-!
# Arguments as text

What the reader of arguments takes. Main statement: it takes the texts whose
pieces between commas are blank or numerals with blanks around, and the text of
arguments is read as those arguments.
-/

namespace Resumable

namespace Text

/-! ## Pieces between commas -/

structure Separates (sep : Char) (pieces : List (List Char)) (cs : List Char) : Prop where
  nonempty : pieces ≠ []
  free : ∀ piece ∈ pieces, sep ∉ piece
  joined : cs = [sep].intercalate pieces

theorem splitChars_eq_splitOn (sep : Char) (cs : List Char) :
    splitChars sep cs = cs.splitOn sep := by
  induction cs with
  | nil => rfl
  | cons c cs ih =>
      rw [splitChars, List.splitOn_cons_eq_if_modifyHead, ih]
      obtain ⟨piece, rest, hsplit⟩ := List.exists_cons_of_ne_nil (List.splitOn_ne_nil sep cs)
      simp [hsplit]

theorem Separates.splitChars_eq {sep : Char} {pieces : List (List Char)} {cs : List Char}
    (h : Separates sep pieces cs) : splitChars sep cs = pieces := by
  rw [splitChars_eq_splitOn, h.joined, List.splitOn_intercalate sep h.free h.nonempty]

theorem not_mem_of_mem_splitChars {sep : Char} {piece cs : List Char}
    (h : piece ∈ splitChars sep cs) : sep ∉ piece := by
  induction cs generalizing piece with
  | nil => simp [List.mem_singleton.1 h]
  | cons c cs ih =>
      rw [splitChars] at h
      split at h
      · exact (List.mem_cons.1 h).elim (fun h => h ▸ List.not_mem_nil) ih
      · next hc =>
          split at h
          · simp [List.mem_singleton.1 h, Ne.symm hc]
          · next first rest hsplit =>
              rw [hsplit] at ih
              rcases List.mem_cons.1 h with rfl | h
              · exact fun hmem => (List.mem_cons.1 hmem).elim (fun h => hc h.symm) (ih (.head _))
              · exact ih (.tail _ h)

theorem separates_splitChars (sep : Char) (cs : List Char) :
    Separates sep (splitChars sep cs) cs where
  nonempty := splitChars_eq_splitOn sep cs ▸ List.splitOn_ne_nil sep cs
  free _ := not_mem_of_mem_splitChars
  joined := by rw [splitChars_eq_splitOn, List.intercalate_splitOn]

/-! ## Blanks -/

theorem exists_trimChars (cs : List Char) : ∃ left right, cs = left ++ trimChars cs ++ right ∧
    left.all isBlank = true ∧ right.all isBlank = true := by
  refine ⟨cs.takeWhile isBlank, ((cs.dropWhile isBlank).reverse.takeWhile isBlank).reverse, ?_,
    List.all_takeWhile, by rw [List.all_reverse, List.all_takeWhile]⟩
  rw [trimChars, List.append_assoc, ← List.reverse_append, List.takeWhile_append_dropWhile,
    List.reverse_reverse, List.takeWhile_append_dropWhile]

theorem dropWhile_blanks {blanks core : List Char} (hblanks : blanks.all isBlank = true)
    (hcore : ∀ c ∈ core, isBlank c = false) : (blanks ++ core).dropWhile isBlank = core := by
  rw [List.dropWhile_append_of_pos (List.all_eq_true.1 hblanks)]
  cases core with
  | nil => rfl
  | cons c core => rw [List.dropWhile_cons_of_neg (by simp [hcore c (.head _)])]

theorem trimChars_eq_nil_iff {cs : List Char} : trimChars cs = [] ↔ cs.all isBlank = true := by
  constructor
  · intro h
    obtain ⟨left, right, hcs, hleft, hright⟩ := exists_trimChars cs
    rw [hcs, h, List.append_nil, List.all_append, hleft, hright, Bool.and_self]
  · intro h
    have hdrop : (cs ++ []).dropWhile isBlank = [] := dropWhile_blanks h (by simp)
    rw [List.append_nil] at hdrop
    rw [trimChars, hdrop]
    rfl

theorem trimChars_append {left core right : List Char} (hleft : left.all isBlank = true)
    (hright : right.all isBlank = true) (hne : core ≠ []) (hcore : ∀ c ∈ core, isBlank c = false) :
    trimChars (left ++ core ++ right) = core := by
  have hdrop : (left ++ core ++ right).dropWhile isBlank = core ++ right := by
    obtain ⟨c, core, rfl⟩ := List.exists_cons_of_ne_nil hne
    rw [List.append_assoc, List.dropWhile_append_of_pos (List.all_eq_true.1 hleft),
      List.cons_append, List.dropWhile_cons_of_neg (by simp [hcore c (.head _)])]
  rw [trimChars, hdrop, List.reverse_append, dropWhile_blanks (by rwa [List.all_reverse])
    (by simpa using hcore), List.reverse_reverse]

end Text

namespace Console

open Text Decimal

/-- The piece is a numeral of the integer, with nothing but blanks around. -/
def Written (piece : List Char) (n : Int64) : Prop :=
  ∃ left core right, piece = left ++ core ++ right ∧ left.all isBlank = true ∧
    right.all isBlank = true ∧ Numeral core n.toInt

theorem not_isBlank_of_numeral {cs : List Char} {n : Int} (h : Numeral cs n) {c : Char}
    (hc : c ∈ cs) : isBlank c = false ∧ c ≠ ',' := by
  rcases h.isDigit_or.2 c hc with rfl | rfl | hdigit
  · decide
  · decide
  · have hrange : 48 ≤ c.toNat ∧ c.toNat ≤ 57 := by
      simpa [Char.isDigit, UInt32.le_iff_toNat_le] using hdigit
    refine ⟨?_, by rintro rfl; cases hdigit⟩
    simp [isBlank]
    omega

theorem written_iff {piece : List Char} {n : Int64} :
    Written piece n ↔ readInt64? (String.ofList (trimChars piece)) = some n := by
  rw [readInt64?_eq_some_iff, String.toList_ofList]
  constructor
  · rintro ⟨left, core, right, rfl, hleft, hright, hcore⟩
    rwa [trimChars_append hleft hright hcore.isDigit_or.1
      fun c hc => (not_isBlank_of_numeral hcore hc).1]
  · intro h
    obtain ⟨left, right, hpiece, hleft, hright⟩ := exists_trimChars piece
    exact ⟨left, _, right, hpiece, hleft, hright, h⟩

inductive Values : List (List Char) → List Value → Prop
  | nil : Values [] []
  | blank {piece : List Char} {pieces : List (List Char)} {args : List Value}
      (hpiece : piece.all isBlank = true) (hrest : Values pieces args) :
      Values (piece :: pieces) args
  | number {piece : List Char} {n : Int64} {pieces : List (List Char)} {args : List Value}
      (hpiece : Written piece n) (hrest : Values pieces args) :
      Values (piece :: pieces) (.int n :: args)

theorem exists_values_iff {pieces : List (List Char)} : (∃ args, Values pieces args) ↔
    ∀ piece ∈ pieces, piece.all isBlank = true ∨ ∃ n, Written piece n := by
  constructor
  · rintro ⟨args, h⟩
    induction h with
    | nil => simp
    | blank hpiece _ ih => exact List.forall_mem_cons.2 ⟨.inl hpiece, ih⟩
    | number hpiece _ ih => exact List.forall_mem_cons.2 ⟨.inr ⟨_, hpiece⟩, ih⟩
  · intro h
    induction pieces with
    | nil => exact ⟨[], .nil⟩
    | cons piece pieces ih =>
        obtain ⟨hpiece, hrest⟩ := List.forall_mem_cons.1 h
        obtain ⟨args, hargs⟩ := ih hrest
        rcases hpiece with hblank | ⟨n, hn⟩
        · exact ⟨args, .blank hblank hargs⟩
        · exact ⟨.int n :: args, .number hn hargs⟩

theorem mapM_parseArg_iff {pieces : List (List Char)} {args : List Value} :
    ((pieces.map fun piece => String.ofList (trimChars piece)).filter fun field =>
      field ≠ "").mapM parseArg = .ok args ↔ Values pieces args := by
  induction pieces generalizing args with
  | nil =>
      refine ⟨fun h => ?_, fun h => ?_⟩
      · cases h
        exact .nil
      · cases h
        rfl
  | cons piece pieces ih =>
      rw [List.map_cons]
      by_cases hblank : trimChars piece = []
      · rw [List.filter_cons_of_neg (by simp [hblank]), ih]
        refine ⟨.blank (trimChars_eq_nil_iff.1 hblank), fun h => ?_⟩
        cases h with
        | blank _ hrest => exact hrest
        | number hpiece _ =>
            have hread := written_iff.1 hpiece
            rw [hblank] at hread
            cases hread
      · rw [List.filter_cons_of_pos (by simpa using hblank), List.mapM_cons]
        have hinv : Values (piece :: pieces) args ↔
            ∃ n rest, Written piece n ∧ Values pieces rest ∧ args = .int n :: rest := by
          refine ⟨fun h => ?_, ?_⟩
          · cases h with
            | blank hpiece _ => exact absurd (trimChars_eq_nil_iff.2 hpiece) hblank
            | number hpiece hrest => exact ⟨_, _, hpiece, hrest, rfl⟩
          · rintro ⟨n, rest, hpiece, hrest, rfl⟩
            exact .number hpiece hrest
        simp only [hinv, written_iff, ← ih, parseArg]
        cases readInt64? (String.ofList (trimChars piece)) with
        | none => simp [bind, Except.bind]
        | some n =>
            cases List.mapM parseArg _ <;>
              simp [bind, Except.bind, pure, Except.pure, eq_comm]

theorem parseArgs_eq_ok_iff {text : String} {pieces : List (List Char)} {args : List Value}
    (h : Separates ',' pieces text.toList) : parseArgs text = .ok args ↔ Values pieces args := by
  rw [parseArgs, splitList, commaFields, h.splitChars_eq, mapM_parseArg_iff]

/-! ## The text of arguments -/

theorem intercalate_comma_blank (t : List Char) (ts : List (List Char)) :
    [',', ' '].intercalate (t :: ts) = [','].intercalate (t :: ts.map (' ' :: ·)) := by
  induction ts generalizing t with
  | nil => rfl
  | cons u ts ih =>
      rw [List.intercalate_cons_cons, ih, List.map_cons, List.intercalate_cons_cons]
      cases ts <;> simp [List.intercalate_cons_cons]

theorem parseArgs_argsText (p : Program) (xs : List Int64) :
    parseArgs (argsText p (xs.map .int)) = .ok (xs.map .int) := by
  have hnumeral (n : Int64) : Numeral (int64Text n).toList n.toInt := numeral_toString n.toInt
  have hcomma (n : Int64) : ',' ∉ (int64Text n).toList :=
    fun hmem => (not_isBlank_of_numeral (hnumeral n) hmem).2 rfl
  have hvalues (ys : List Int64) :
      Values (ys.map fun n => ' ' :: (int64Text n).toList) (ys.map .int) := by
    induction ys with
    | nil => exact .nil
    | cons y ys ih =>
        exact .number ⟨[' '], _, [], (List.append_nil _).symm, rfl, rfl, hnumeral y⟩ ih
  cases xs with
  | nil => rfl
  | cons x xs =>
      have hpieces : Separates ',' ((int64Text x).toList ::
          xs.map fun n => ' ' :: (int64Text n).toList) (argsText p ((x :: xs).map .int)).toList := by
        refine ⟨List.cons_ne_nil _ _, List.forall_mem_cons.2 ⟨hcomma x, ?_⟩, ?_⟩
        · simpa using fun n _ => hcomma n
        · rw [argsText, String.toList_intercalate, List.map_cons, List.map_cons, List.map_cons]
          exact (intercalate_comma_blank _ _).trans (by simp [Value.format, Function.comp_def])
      rw [parseArgs_eq_ok_iff hpieces]
      exact .number ⟨[], _, [], (List.append_nil _).symm, rfl, rfl, hnumeral x⟩ (hvalues xs)

/-- The text of integers is read as these integers. A text is read exactly if
each of its pieces between commas is blank or a numeral in the range of 64 bits
with blanks around; the values are those of the pieces that are not blank, in
their order. -/
theorem parseArgs_exact :
    (∀ (p : Program) (xs : List Int64), ∃ text, formatArgs p (xs.map .int) = "(" ++ text ++ ")" ∧
      parseArgs text = .ok (xs.map .int)) ∧
    ∀ text : String, ∃ pieces, Separates ',' pieces text.toList ∧
      ((∃ args, parseArgs text = .ok args) ↔
        ∀ piece ∈ pieces, piece.all isBlank = true ∨ ∃ n, Written piece n) ∧
      ∀ args, parseArgs text = .ok args ↔ Values pieces args := by
  refine ⟨fun p xs => ⟨_, rfl, parseArgs_argsText p xs⟩, fun text => ?_⟩
  have hpieces := separates_splitChars ',' text.toList
  refine ⟨_, hpieces, ?_, fun args => parseArgs_eq_ok_iff hpieces⟩
  rw [← exists_values_iff]
  exact exists_congr fun args => parseArgs_eq_ok_iff hpieces

end Console

end Resumable
