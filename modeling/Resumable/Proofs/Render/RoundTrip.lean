import Mathlib.Data.List.Basic
import Resumable.Proofs.Render.Reading

/-!
# Rendered expressions are read back

The text of an expression determines it up to types and the identities of its
variables. The induction carries what the reader makes of the text as a whole and
of the text as an operand, whatever may follow.
-/

namespace Resumable.Reading

/-! ## What may follow -/

def Breaks (rest : List Char) : Prop :=
  ∀ c ∈ rest.head?, isWordChar c = false

/-- A row is at its end, or goes on with a blank or what closes an expression. -/
def Stops (rest : List Char) : Prop :=
  ∀ c ∈ rest.head?, c ∈ [' ', ')', ']', ',']

def Closes (rest : List Char) : Prop :=
  ∀ c ∈ rest.head?, c ∈ [')', ']', ',']

theorem breaks_cons {c : Char} {rest : List Char} (hc : isWordChar c = false) : Breaks (c :: rest) := by
  rintro _ ⟨⟩
  exact hc

theorem stops_blank (rest : List Char) : Stops (' ' :: rest) := by
  rintro _ ⟨⟩
  exact List.mem_cons_self

theorem closes_cons {c : Char} {rest : List Char} (hc : c ∈ [')', ']', ',']) : Closes (c :: rest) := by
  rintro _ ⟨⟩
  exact hc

theorem Closes.stops {rest : List Char} (h : Closes rest) : Stops rest :=
  fun c hc => List.mem_cons_of_mem ' ' (h c hc)

theorem Stops.breaks {rest : List Char} (h : Stops rest) : Breaks rest :=
  fun c hc => (by simp [isWordChar] : ∀ c ∈ [' ', ')', ']', ','], isWordChar c = false) c (h c hc)

theorem readSuffixes_of_stops {rest : List Char} (h : Stops rest) (x : Expr) :
    readSuffixes x rest = some (x, rest) := by
  rw [readSuffixes.eq_def]
  split
  all_goals first | rfl | exact absurd (h _ rfl) (by decide)

theorem readOperation_of_closes {rest : List Char} (h : Closes rest) (x : Expr) :
    readOperation x rest = some (x, rest) := by
  rw [readOperation.eq_def]
  split
  · exact absurd (h _ rfl) (by decide)
  · rfl

/-! ## Words -/

section

variable {word rest : List Char} (hword : word.all isWordChar = true) (hrest : Breaks rest)

include hword hrest

theorem takeWhile_word : (word ++ rest).takeWhile isWordChar = word := by
  rw [List.takeWhile_append_of_pos (List.all_eq_true.1 hword)]
  cases rest with
  | nil => exact List.append_nil word
  | cons c rest => rw [List.takeWhile_cons_of_neg (by simp [hrest c rfl]), List.append_nil]

theorem dropWhile_word : (word ++ rest).dropWhile isWordChar = rest := by
  rw [List.dropWhile_append_of_pos (List.all_eq_true.1 hword)]
  cases rest with
  | nil => rfl
  | cons c rest => rw [List.dropWhile_cons_of_neg (by simp [hrest c rfl])]

end

theorem prefixOp?_of_head {c : Char} (hc : c ∉ ['+', '-', '!', '~']) (rest : List Char) :
    prefixOp? (c :: rest) =
      ("typeof ".toList.isPrefixOf? (c :: rest)).map fun rest => (.typeof, rest) := by
  unfold prefixOp?
  split
  all_goals first
    | rfl
    | next heq => exact absurd (List.cons.inj heq).1 (by rintro rfl; exact hc (by decide))

/-- A word that is not `typeof` is no operator in front of an operand. -/
theorem prefixOp?_word {word rest : List Char} (hword : word.all isWordChar = true)
    (hne : word ≠ []) (htypeof : word ≠ "typeof".toList) (hrest : Breaks rest) :
    prefixOp? (word ++ rest) = none := by
  cases word with
  | nil => exact absurd rfl hne
  | cons c cs =>
      have hc : c ∉ ['+', '-', '!', '~'] := fun hmem =>
        absurd (List.all_eq_true.1 hword c List.mem_cons_self)
          ((by simp [isWordChar] : ∀ c ∈ ['+', '-', '!', '~'], ¬ isWordChar c = true) c hmem)
      rw [List.cons_append, prefixOp?_of_head hc, Option.map_eq_none_iff, ← List.cons_append]
      cases hfront : "typeof ".toList.isPrefixOf? (c :: cs ++ rest) with
      | none => rfl
      | some after =>
          -- both rows have the same word in front
          have heq := List.append_eq_of_isPrefixOf?_eq_some hfront
          have htake : ("typeof".toList ++ ' ' :: after).takeWhile isWordChar = "typeof".toList :=
            takeWhile_word (by decide) (breaks_cons (by decide))
          have hsame : "typeof".toList ++ ' ' :: after = c :: cs ++ rest := heq
          rw [hsame, takeWhile_word hword hrest] at htake
          exact absurd htake htypeof

/-- A name begins with a character of words that is no digit. -/
theorem isIdentifier_cons {name : String} (h : isIdentifier name = true) :
    name.toList.all isWordChar = true ∧
      ∃ c cs, name.toList = c :: cs ∧ c.isDigit = false := by
  rw [isIdentifier, Bool.and_eq_true] at h
  refine ⟨h.1, ?_⟩
  cases hlist : name.toList with
  | nil => simp [hlist] at h
  | cons c cs => exact ⟨c, cs, rfl, by simpa [hlist] using h.2⟩

/-! ## The characters of an expression -/

variable (p : Program)

def written (e : Expr) : List Char :=
  (Render.expr p e).toList

def writtenOperand (e : Expr) : List Char :=
  (Render.wrap (Render.needsParens e) (Render.expr p e)).toList

theorem writtenOperand_of_bare {e : Expr} (h : Render.needsParens e = false) :
    writtenOperand p e = written p e := by
  rw [writtenOperand, h]
  rfl

theorem writtenOperand_of_parens {e : Expr} (h : Render.needsParens e = true) :
    writtenOperand p e = '(' :: (written p e ++ [')']) := by
  rw [writtenOperand, h, Render.wrap, if_pos rfl, String.toList_append, String.toList_append]
  rfl

section

variable {p}

-- the equations of the renderer are made here, once for the lemmas below
attribute [local simp] Render.exprAt Render.exprsAt

theorem written_suffixed {op : UnaryOp} (hop : op.isPostfix = true) (x : Expr) (t : Ty) :
    written p (.unary op x t) = writtenOperand p x ++ op.text.toList := by
  simp only [written, Render.expr, Render.exprAt, hop, if_true, String.toList_append]
  rfl

theorem written_prefixed {op : UnaryOp} (hop : op.isPostfix = false) (x : Expr) (t : Ty) :
    written p (.unary op x t) = op.text.toList ++ writtenOperand p x := by
  simp only [written, Render.expr, Render.exprAt, hop, Bool.false_eq_true, if_false,
    String.toList_append]
  rfl

theorem written_index (x y : Expr) (t : Ty) :
    written p (.binary .index x y t) = writtenOperand p x ++ '[' :: (written p y ++ [']']) := by
  simp only [written, Render.expr, Render.exprAt, if_true, String.toList_append, List.append_assoc]
  rfl

theorem written_binary {op : BinaryOp} (hop : op ≠ .index) (x y : Expr) (t : Ty) :
    written p (.binary op x y t) =
      writtenOperand p x ++ ' ' :: (op.text.toList ++ ' ' :: writtenOperand p y) := by
  simp only [written, Render.expr, Render.exprAt, hop, if_false, String.toList_append,
    List.append_assoc]
  rfl

theorem written_conditional (c x y : Expr) (t : Ty) :
    written p (.conditional c x y t) = writtenOperand p c ++
      ' ' :: '?' :: ' ' :: (writtenOperand p x ++ ' ' :: ':' :: ' ' :: writtenOperand p y) := by
  simp only [written, Render.expr, Render.exprAt, String.toList_append, List.append_assoc]
  rfl

theorem written_assign (x y : Expr) :
    written p (.assign x y) = written p x ++ ' ' :: '=' :: ' ' :: written p y := by
  simp only [written, Render.expr, Render.exprAt, String.toList_append, List.append_assoc]
  rfl

theorem written_property (x : Expr) (name : String) (t : Ty) :
    written p (.property x name t) = writtenOperand p x ++ '.' :: name.toList := by
  simp only [written, Render.expr, Render.exprAt, String.toList_append, List.append_assoc]
  rfl

def writtenArgs (p : Program) (args : List Expr) : List Char :=
  [',', ' '].intercalate (args.map (written p))

theorem exprsAt_eq_map (args : List Expr) :
    Render.exprsAt p.types (Render.nested p) 0 args = args.map (Render.expr p) := by
  induction args with
  | nil => rfl
  | cons e es ih => rw [Render.exprsAt, ih]; rfl

theorem written_call (callee : Expr) (args : List Expr) (t : Ty) :
    written p (.call callee args t) =
      writtenOperand p callee ++ '(' :: (writtenArgs p args ++ [')']) := by
  simp only [written, Render.expr, Render.exprAt, exprsAt_eq_map, String.toList_append,
    String.toList_intercalate, List.map_map, List.append_assoc]
  rfl

theorem writtenArgs_cons_cons (e e' : Expr) (es : List Expr) :
    writtenArgs p (e :: e' :: es) = written p e ++ ',' :: ' ' :: writtenArgs p (e' :: es) := by
  simp only [writtenArgs, List.map_cons, List.intercalate_cons_cons, List.append_assoc]
  rfl

theorem writtenArgs_singleton (e : Expr) : writtenArgs p [e] = written p e :=
  List.intercalate_singleton

end

/-! ## What the reader makes of an expression -/

/-- The characters of an expression are read as the expression, as a whole and as
an operand. -/
structure Reads (e : Expr) : Prop where
  starts : ∀ {rest}, Breaks rest → prefixOp? (writtenOperand p e ++ rest) = none
  operand : ∀ {rest}, Breaks rest →
    readOperand (writtenOperand p e ++ rest) = readSuffixes e.erased rest
  whole : ∀ {rest}, Closes rest → readExpr (written p e ++ rest) = some (e.erased, rest)
  opens : ∃ c cs, written p e = c :: cs ∧ c ≠ ')'

section

variable {p} {e x y z : Expr}

/-- An operand that goes without parentheses. -/
theorem Reads.of_bare (hbare : Render.needsParens e = false)
    (hstarts : ∀ {rest}, Breaks rest → prefixOp? (written p e ++ rest) = none)
    (hoperand : ∀ {rest}, Breaks rest → readOperand (written p e ++ rest) = readSuffixes e.erased rest)
    (hopens : ∃ c cs, written p e = c :: cs ∧ c ≠ ')') : Reads p e where
  starts hrest := by
    rw [writtenOperand_of_bare p hbare]
    exact hstarts hrest
  operand hrest := by
    rw [writtenOperand_of_bare p hbare]
    exact hoperand hrest
  whole hrest := by
    have hne : written p e ≠ [] := by
      obtain ⟨c, cs, hc, -⟩ := hopens
      exact hc ▸ List.cons_ne_nil c cs
    rw [readExpr, hstarts hrest.stops.breaks]
    simp only [hoperand hrest.stops.breaks, readSuffixes_of_stops hrest.stops,
      Option.bind_eq_bind, Option.bind_some, Text.onward_append hne, readOperation_of_closes hrest]
  opens := hopens

/-- An operand that stands in parentheses. -/
theorem Reads.of_parens (hparens : Render.needsParens e = true)
    (hwhole : ∀ {rest}, Closes rest → readExpr (written p e ++ rest) = some (e.erased, rest))
    (hopens : ∃ c cs, written p e = c :: cs ∧ c ≠ ')') : Reads p e where
  starts hrest := by
    rw [writtenOperand_of_parens p hparens, List.cons_append, prefixOp?_of_head (by decide)]
    rfl
  operand {rest} hrest := by
    have hclosed : Closes (')' :: rest) := closes_cons (by decide)
    rw [writtenOperand_of_parens p hparens, List.cons_append, List.append_assoc, readOperand,
      List.singleton_append, hwhole hclosed]
    change (Text.onward _ rest).bind _ = _
    rw [Text.onward_append_cons]
    rfl
  whole := hwhole
  opens := hopens

theorem Reads.opens_operand (h : Reads p e) : ∃ c cs, writtenOperand p e = c :: cs ∧ c ≠ ')' := by
  cases hparens : Render.needsParens e with
  | false =>
      rw [writtenOperand_of_bare p hparens]
      exact h.opens
  | true => exact ⟨'(', _, writtenOperand_of_parens p hparens, by decide⟩

/-- An operand before a blank or the end of an expression. -/
theorem Reads.operand_stops (h : Reads p e) {rest : List Char} (hrest : Stops rest) :
    readOperand (writtenOperand p e ++ rest) = some (e.erased, rest) := by
  rw [h.operand hrest.breaks, readSuffixes_of_stops hrest]

/-- What stands right after an operand is read as a suffix of it. -/
theorem Reads.of_suffix (hx : Reads p x) (hbare : Render.needsParens e = false) {suffix : List Char}
    (hwritten : written p e = writtenOperand p x ++ suffix) {c : Char} {cs : List Char}
    (hsuffix : suffix = c :: cs) (hc : isWordChar c = false)
    (hreads : ∀ {rest}, Breaks rest →
      readSuffixes x.erased (suffix ++ rest) = readSuffixes e.erased rest) :
    Reads p e := by
  have hbreaks (rest : List Char) : Breaks (suffix ++ rest) := by
    rw [hsuffix, List.cons_append]
    exact breaks_cons hc
  refine .of_bare hbare (fun {rest} hrest => ?_) (fun {rest} hrest => ?_) ?_
  · rw [hwritten, List.append_assoc]
    exact hx.starts (hbreaks rest)
  · rw [hwritten, List.append_assoc, hx.operand (hbreaks rest), hreads hrest]
  · obtain ⟨d, ds, hd, hne⟩ := hx.opens_operand
    exact ⟨d, ds ++ suffix, by rw [hwritten, hd, List.cons_append], hne⟩

/-! ### Leaves -/

theorem reads_word (hbare : Render.needsParens e = false) {word : List Char}
    (hwritten : written p e = word) (hword : word.all isWordChar = true) (hne : word ≠ [])
    (htypeof : word ≠ "typeof".toList) (hexpr : wordExpr word = e.erased) : Reads p e := by
  have hhead (d : Char) (hd : isWordChar d = false) (cs rest : List Char) :
      word ++ rest ≠ d :: cs := by
    cases word with
    | nil => exact absurd rfl hne
    | cons c _ =>
        intro heq
        rw [(List.cons.inj heq).1] at hword
        rw [List.all_eq_true.1 hword d List.mem_cons_self] at hd
        cases hd
  refine .of_bare hbare (fun {rest} hrest => ?_) (fun {rest} hrest => ?_) ?_
  · rw [hwritten]
    exact prefixOp?_word hword hne htypeof hrest
  · rw [hwritten, readOperand.eq_def]
    split
    · next heq => exact absurd heq (hhead '(' (by decide) _ _)
    · next heq => exact absurd heq (hhead '"' (by decide) _ _)
    · rw [takeWhile_word hword hrest, dropWhile_word hword hrest, hexpr, Text.onward_append hne]
      rfl
  · cases word with
    | nil => exact absurd rfl hne
    | cons c cs =>
        refine ⟨c, cs, hwritten, ?_⟩
        rintro rfl
        exact absurd (List.all_eq_true.1 hword ')' List.mem_cons_self) (by decide)

theorem reads_str (s : String) (t : Ty) : Reads p (.literal (.str s) t) := by
  have hwritten : written p (.literal (.str s) t) = '"' :: _ := Text.toList_quote s
  refine .of_bare rfl (fun {rest} hrest => ?_) (fun {rest} hrest => ?_) ⟨_, _, hwritten, by decide⟩
  · rw [hwritten, List.cons_append, prefixOp?_of_head (by decide)]
    rfl
  · rw [hwritten, List.cons_append, List.append_assoc, List.singleton_append, readOperand,
      Text.readQuoted_escapeChars]
    simp only [Option.bind_eq_bind, Option.bind_some, Text.onward_append_cons, String.ofList_toList]
    rfl

/-! ### Suffixes -/

theorem reads_suffixed {op : UnaryOp} (hop : op.isPostfix = true) (hx : Reads p x) (t : Ty) :
    Reads p (.unary op x t) := by
  have hbare : Render.needsParens (.unary op x t) = false := by simp [Render.needsParens, hop]
  cases op
  case postInc | postDec =>
    refine hx.of_suffix hbare (written_suffixed hop x t) rfl (by decide) fun {rest} _ => ?_
    exact readSuffixes.eq_def .. |>.trans rfl
  all_goals cases hop

theorem reads_property (hx : Reads p x) {name : String} (hname : isIdentifier name = true) (t : Ty) :
    Reads p (.property x name t) := by
  obtain ⟨hword, c, cs, hlist, -⟩ := isIdentifier_cons hname
  have hne : name.toList ≠ [] := hlist ▸ List.cons_ne_nil c cs
  refine hx.of_suffix rfl (written_property x name t) rfl (by decide) fun {rest} hrest => ?_
  rw [List.cons_append, readSuffixes, takeWhile_word hword hrest, dropWhile_word hword hrest,
    String.ofList_toList, Text.onward_append hne]
  rfl

theorem reads_index (hx : Reads p x) (hy : Reads p y) (t : Ty) :
    Reads p (.binary .index x y t) := by
  refine hx.of_suffix rfl (written_index x y t) rfl (by decide) fun {rest} _ => ?_
  rw [List.cons_append, List.append_assoc, readSuffixes, List.singleton_append,
    hy.whole (closes_cons (by decide))]
  change (Text.onward _ rest).bind _ = _
  rw [Text.onward_append_cons]
  rfl

theorem opens_writtenArgs (h : Reads p e) (es : List Expr) :
    ∃ c cs, writtenArgs p (e :: es) = c :: cs ∧ c ≠ ')' := by
  obtain ⟨c, cs, hc, hne⟩ := h.opens
  cases es with
  | nil => exact ⟨c, cs, by rw [writtenArgs_singleton, hc], hne⟩
  | cons e' es => exact ⟨c, _, by rw [writtenArgs_cons_cons, hc, List.cons_append], hne⟩

theorem readSuffixes_args {c : Char} (hc : c ≠ ')') (x : Expr) (cs : List Char) :
    readSuffixes x ('(' :: c :: cs) =
      (readArgs (c :: cs)).bind fun found => (Text.onward (c :: cs) found.2).bind fun rest =>
        readSuffixes (.call x found.1 .absent) rest := by
  rw [readSuffixes]
  · rfl
  · exact fun _ heq => hc (List.cons.inj heq).1

theorem reads_call (hx : Reads p x) {args : List Expr} (hargs : ∀ arg ∈ args, Reads p arg) (t : Ty) :
    Reads p (.call x args t) := by
  have hlist : ∀ {args : List Expr}, args ≠ [] → (∀ arg ∈ args, Reads p arg) → ∀ rest,
      readArgs (writtenArgs p args ++ ')' :: rest) = some (erasedList args, rest) := by
    intro args hne hargs rest
    induction args with
    | nil => exact absurd rfl hne
    | cons arg args ih =>
        rw [List.forall_mem_cons] at hargs
        cases args with
        | nil =>
            rw [writtenArgs_singleton, readArgs, hargs.1.whole (closes_cons (by decide))]
            rfl
        | cons arg' args =>
            have hrest := ih (List.cons_ne_nil _ _) hargs.2
            rw [writtenArgs_cons_cons, List.append_assoc, List.cons_append, List.cons_append]
            generalize writtenArgs p (arg' :: args) ++ ')' :: rest = after at hrest ⊢
            rw [readArgs, hargs.1.whole (closes_cons (by decide))]
            change (Text.onward _ after).bind _ = _
            rw [Text.onward_of_lt (by simp; omega)]
            change (readArgs after).bind _ = _
            rw [hrest]
            rfl
  refine hx.of_suffix rfl (written_call x args t) rfl (by decide) fun {rest} _ => ?_
  cases args with
  | nil => exact readSuffixes.eq_def .. |>.trans rfl
  | cons arg args =>
      -- the first argument does not begin with a parenthesis that closes
      obtain ⟨c, cs, hc, hne⟩ := opens_writtenArgs (List.forall_mem_cons.1 hargs).1 args
      have hread := hlist (List.cons_ne_nil arg args) hargs rest
      rw [hc, List.cons_append] at hread
      rw [hc, List.cons_append, List.append_assoc, List.singleton_append, List.cons_append,
        readSuffixes_args hne, hread]
      have honward : Text.onward (c :: (cs ++ ')' :: rest)) rest = _ :=
        Text.onward_append_cons (c :: cs) ')' rest
      rw [Option.bind_some, honward]
      rfl

/-! ### Operations -/

theorem prefixOp?_sign {c : Char} (hc : c ∈ ['+', '-']) (rest : List Char) :
    prefixOp? (c :: rest) ≠ none := by
  intro h
  simp only [List.mem_cons, List.not_mem_nil, or_false] at hc
  unfold prefixOp? at h
  rcases hc with rfl | rfl <;> split at h <;> simp_all

theorem prefixOp?_text {op : UnaryOp} (hop : op.isPostfix = false) (hknown : op ≠ .unknown)
    {cs : List Char} (hcs : prefixOp? cs = none) :
    prefixOp? (op.text.toList ++ cs) = some (op, cs) := by
  cases op
  case postInc | postDec => cases hop
  case unknown => exact absurd rfl hknown
  case not | bitNot | typeof | preInc | preDec => rfl
  case neg =>
    change prefixOp? ('-' :: cs) = _
    rw [prefixOp?]
    rintro rest rfl
    exact prefixOp?_sign (by decide) rest hcs
  case plus =>
    change prefixOp? ('+' :: cs) = _
    rw [prefixOp?]
    rintro rest rfl
    exact prefixOp?_sign (by decide) rest hcs

theorem reads_prefixed {op : UnaryOp} (hop : op.isPostfix = false) (hknown : op ≠ .unknown)
    (hx : Reads p x) (t : Ty) : Reads p (.unary op x t) := by
  have hparens : Render.needsParens (.unary op x t) = true := by simp [Render.needsParens, hop]
  have hne : op.text.toList ≠ [] := by cases op <;> decide
  refine .of_parens hparens (fun {rest} hrest => ?_) ?_
  · rw [written_prefixed hop, List.append_assoc, readExpr,
      prefixOp?_text hop hknown (hx.starts hrest.stops.breaks)]
    simp only [Text.onward_append hne, hx.operand_stops hrest.stops, Option.bind_eq_bind,
      Option.bind_some]
    rfl
  · rw [written_prefixed hop]
    cases op
    case postInc | postDec => cases hop
    case unknown => exact absurd rfl hknown
    all_goals exact ⟨_, _, rfl, by decide⟩

/-- An operand with a blank after it is the left side of an operation. -/
theorem Reads.of_operation (hx : Reads p x) (hparens : Render.needsParens e = true)
    {operation : List Char} (hwritten : written p e = writtenOperand p x ++ ' ' :: operation)
    (hreads : ∀ {rest}, Closes rest →
      readOperation x.erased (' ' :: operation ++ rest) = some (e.erased, rest)) : Reads p e := by
  obtain ⟨c, cs, hc, hne⟩ := hx.opens_operand
  refine .of_parens hparens (fun {rest} hrest => ?_)
    ⟨c, cs ++ ' ' :: operation, by rw [hwritten, hc, List.cons_append], hne⟩
  have hblank : Stops (' ' :: operation ++ rest) := stops_blank _
  have hsome : writtenOperand p x ≠ [] := hc ▸ List.cons_ne_nil c cs
  rw [hwritten, List.append_assoc, readExpr, hx.starts hblank.breaks]
  simp only [hx.operand_stops hblank, Option.bind_eq_bind, Option.bind_some,
    Text.onward_append hsome, hreads hrest]

theorem readOperation_text {op : BinaryOp} (hop : op ≠ .index) (hknown : op ≠ .unknown) (x : Expr)
    (cs : List Char) : readOperation x (' ' :: (op.text.toList ++ ' ' :: cs)) =
      (readOperand cs).bind fun found => some (.binary op x found.1 .absent, found.2) := by
  cases op
  case index => exact absurd rfl hop
  case unknown => exact absurd rfl hknown
  all_goals
    rw [readOperation]
    change (Text.onward _ cs).bind _ = _
    rw [Text.onward_append_cons]
    rfl

theorem reads_binary {op : BinaryOp} (hop : op ≠ .index) (hknown : op ≠ .unknown) (hx : Reads p x)
    (hy : Reads p y) (t : Ty) : Reads p (.binary op x y t) := by
  have hparens : Render.needsParens (.binary op x y t) = true := by simp [Render.needsParens, hop]
  refine hx.of_operation hparens (written_binary hop x y t) fun {rest} hrest => ?_
  rw [List.cons_append, List.append_assoc, List.cons_append, readOperation_text hop hknown,
    hy.operand_stops hrest.stops]
  rfl

theorem readOperation_question (x : Expr) (cs : List Char) :
    readOperation x (' ' :: '?' :: ' ' :: cs) = (readOperand cs).bind fun found =>
      ([' ', ':', ' '].isPrefixOf? found.2).bind fun rest => (Text.onward cs rest).bind fun rest =>
        (readOperand rest).bind fun found' =>
          some (.conditional x found.1 found'.1 .absent, found'.2) := by
  rw [readOperation]
  change (Text.onward (['?'] ++ ' ' :: cs) cs).bind _ = _
  rw [Text.onward_append_cons]
  rfl

theorem readOperation_equals (x : Expr) (cs : List Char) :
    readOperation x (' ' :: '=' :: ' ' :: cs) =
      (readExpr cs).bind fun found => some (.assign x found.1, found.2) := by
  rw [readOperation]
  change (Text.onward (['='] ++ ' ' :: cs) cs).bind _ = _
  rw [Text.onward_append_cons]
  rfl

theorem reads_conditional (hx : Reads p x) (hy : Reads p y) (hz : Reads p z) (t : Ty) :
    Reads p (.conditional x y z t) := by
  refine hx.of_operation rfl (written_conditional x y z t) fun {rest} hrest => ?_
  have hcolon : Stops (' ' :: ':' :: ' ' :: (writtenOperand p z ++ rest)) := stops_blank _
  simp only [List.cons_append, List.append_assoc]
  rw [readOperation_question, hy.operand_stops hcolon, Option.bind_some]
  change (Text.onward _ (writtenOperand p z ++ rest)).bind _ = _
  rw [Text.onward_of_lt (by simp; omega), Option.bind_some, hz.operand_stops hrest.stops]
  rfl

theorem reads_assign (hx : Reads p x) (hplace : x.isPlace = true) (hy : Reads p y) :
    Reads p (.assign x y) := by
  have hbare : Render.needsParens x = false := by
    cases x <;> simp_all [Expr.isPlace, Render.needsParens]
  have hwritten : written p (.assign x y) = writtenOperand p x ++ ' ' :: '=' :: ' ' :: written p y := by
    rw [writtenOperand_of_bare p hbare, written_assign]
  refine hx.of_operation rfl hwritten fun {rest} hrest => ?_
  simp only [List.cons_append]
  rw [readOperation_equals, hy.whole hrest]
  rfl

/-! ### Words and names -/

/-- A row of digits is none of the words that are read in a way of their own. -/
theorem digits_ne {word text : List Char} (hword : ∀ c ∈ word, c.isDigit = true) {c : Char}
    (hc : c ∈ text) (hdigit : c.isDigit = false) : word ≠ text := by
  rintro rfl
  rw [hword c hc] at hdigit
  cases hdigit

theorem reads_int {n : Int64} (hn : 0 ≤ n) (t : Ty) : Reads p (.literal (.int n) t) := by
  obtain ⟨k, hk⟩ : ∃ k : Nat, n.toInt = k := Int.eq_ofNat_of_zero_le (Int64.le_iff_toInt_le.1 hn)
  have htext : (Decimal.int64Text n).toList = Nat.toDigits 10 k := by
    rw [Decimal.int64Text, hk]
    exact Nat.toList_repr
  have hdigits : ∀ c ∈ Nat.toDigits 10 k, c.isDigit = true :=
    fun c hc => Nat.isDigit_of_mem_toDigits (by decide) (by decide) hc
  refine reads_word rfl htext (List.all_eq_true.2 fun c hc => ?_) Nat.toDigits_ne_nil
    (digits_ne hdigits (c := 't') (by decide) rfl) ?_
  · simp [isWordChar, Char.isAlphanum, hdigits c hc]
  · rw [wordExpr, if_neg (digits_ne hdigits (c := 't') (by decide) rfl),
      if_neg (digits_ne hdigits (c := 'n') (by decide) rfl),
      if_neg (digits_ne hdigits (c := 't') (by decide) rfl),
      if_neg (digits_ne hdigits (c := 'f') (by decide) rfl), ← htext, String.ofList_toList,
      Decimal.readInt64?_int64Text]
    rfl

theorem reads_literal {value : Literal} (h : value.isPlain = true) (t : Ty) :
    Reads p (.literal value t) := by
  cases value with
  | null =>
      exact reads_word rfl (show _ = "null".toList from rfl) (by decide) (by decide) (by decide) rfl
  | bool b =>
      cases b with
      | false =>
          exact reads_word rfl (show _ = "false".toList from rfl) (by decide) (by decide)
            (by decide) rfl
      | true =>
          exact reads_word rfl (show _ = "true".toList from rfl) (by decide) (by decide) (by decide) rfl
  | int n => exact reads_int (of_decide_eq_true h) t
  | num x => cases h
  | str s => exact reads_str s t

theorem readInt64?_identifier {name : String} (h : isIdentifier name = true) :
    Decimal.readInt64? name = none := by
  obtain ⟨hword, c, cs, hlist, hdigit⟩ := isIdentifier_cons h
  have hc : isWordChar c = true := List.all_eq_true.1 hword c (hlist ▸ List.mem_cons_self)
  have hminus : c ≠ '-' := by
    rintro rfl
    exact absurd hc (by decide)
  have hplus : c ≠ '+' := by
    rintro rfl
    exact absurd hc (by decide)
  have hnatural : Decimal.natural? (c :: cs) = none := by
    simp [Decimal.natural?, Decimal.digitsValue?, Decimal.digit?_eq, hdigit]
  rw [Decimal.readInt64?, hlist, Decimal.signed?_of_not_sign hminus hplus, hnatural]
  rfl

theorem reads_ref {v : Variable} (hname : isIdentifier v.name = true)
    (hreserved : v.name ∉ reserved) : Reads p (.ref v) := by
  obtain ⟨hword, c, cs, hlist, -⟩ := isIdentifier_cons hname
  have hne (s : String) (hs : s ∈ reserved) : v.name.toList ≠ s.toList :=
    fun heq => hreserved (String.toList_injective heq ▸ hs)
  refine reads_word rfl (show _ = v.name.toList from rfl) hword
    (by rw [hlist]; exact List.cons_ne_nil c cs) (hne "typeof" (by decide)) ?_
  rw [wordExpr, if_neg (hne "this" (by decide)), if_neg (hne "null" (by decide)),
    if_neg (hne "true" (by decide)), if_neg (hne "false" (by decide)), String.ofList_toList,
    readInt64?_identifier hname]
  rfl

/-! ## Every expression -/

mutual

theorem reads : ∀ e : Expr, e.isPlain = true → Reads p e
  | .literal value t, h => reads_literal h t
  | .ref v, h => by
      rw [Expr.isPlain, Bool.and_eq_true] at h
      exact reads_ref h.1 (by simpa using h.2)
  | .receiver t, _ =>
      reads_word rfl (show _ = "this".toList from rfl) (by decide) (by decide) (by decide) rfl
  | .unary op x t, h => by
      rw [Expr.isPlain, Bool.and_eq_true, decide_eq_true_eq] at h
      cases hop : op.isPostfix with
      | false => exact reads_prefixed hop h.1 (reads x h.2) t
      | true => exact reads_suffixed hop (reads x h.2) t
  | .binary op x y t, h => by
      simp only [Expr.isPlain, Bool.and_eq_true, decide_eq_true_eq] at h
      by_cases hop : op = .index
      · subst hop
        exact reads_index (reads x h.1.2) (reads y h.2) t
      · exact reads_binary hop h.1.1 (reads x h.1.2) (reads y h.2) t
  | .conditional c x y t, h => by
      simp only [Expr.isPlain, Bool.and_eq_true] at h
      exact reads_conditional (reads c h.1.1) (reads x h.1.2) (reads y h.2) t
  | .assign x y, h => by
      simp only [Expr.isPlain, Bool.and_eq_true] at h
      exact reads_assign (reads x h.1.2) h.1.1 (reads y h.2)
  | .call callee args t, h => by
      rw [Expr.isPlain, Bool.and_eq_true] at h
      exact reads_call (reads callee h.1) (readsAll args h.2) t
  | .property x name t, h => by
      rw [Expr.isPlain, Bool.and_eq_true] at h
      exact reads_property (reads x h.1) h.2 t

theorem readsAll : ∀ args : List Expr, arePlain args = true → ∀ arg ∈ args, Reads p arg
  | [], _ => List.forall_mem_nil _
  | e :: es, h => by
      rw [arePlain, Bool.and_eq_true] at h
      exact List.forall_mem_cons.2 ⟨reads e h.1, readsAll es h.2⟩

end

/-- The text of an expression is read as the expression without its types. -/
theorem readExpr_written (h : e.isPlain = true) : readExpr (written p e) = some (e.erased, []) := by
  have hwhole : readExpr (written p e ++ []) = some (e.erased, []) :=
    (reads e h).whole fun c hc => by cases hc
  rwa [List.append_nil] at hwhole

end

end Resumable.Reading

namespace Resumable.Render

/-- Two expressions with the same text are equal up to types and the identities of
variables, in whatever programs they stand. -/
theorem expr_inj (p p' : Program) {e e' : Expr} (he : e.isPlain = true) (he' : e'.isPlain = true)
    (h : expr p e = expr p' e') : e.erased = e'.erased := by
  have hread : Reading.readExpr (Reading.written p e) = some (e'.erased, []) := by
    rw [Reading.written, h]
    exact Reading.readExpr_written he'
  rw [Reading.readExpr_written he] at hread
  exact congrArg Prod.fst (Option.some.inj hread)

/-- The expression `a.in = b-- - (-f(1, "\""))` with some identities and types. -/
def sampleExpr (id : Nat) (type : Ty) : Expr :=
  .assign (.property (.ref ⟨id, "a", type⟩) "in" type)
    (.binary .sub (.unary .postDec (.ref ⟨id + 1, "b", type⟩) type)
      (.unary .neg (.call (.ref ⟨id + 2, "f", type⟩)
        [.literal (.int 1) type, .literal (.str "\"") type] type) type) type)

theorem expr_inj_sample :
    expr {} (sampleExpr 0 .int) = "a.in = b-- - (-f(1, \"\\\"\"))" ∧
      (sampleExpr 0 .int).erased = (sampleExpr 7 .absent).erased := by
  have htext : expr {} (sampleExpr 0 .int) = expr {} (sampleExpr 7 .absent) := by rfl
  exact ⟨by decide +kernel, expr_inj {} {} (by decide) (by decide) htext⟩

end Resumable.Render
