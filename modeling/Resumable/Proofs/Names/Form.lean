import Resumable.Lowering.Names

/-!
# The form of made-up names

Lowering makes up names for labels and variables. Each is a fixed text with a
number after it, except for the names around a case of a switch, which have the
number of the switch inside. A name can be read back in one way only.
-/

namespace Resumable

/-! ## Texts with a number after them -/

namespace Label

def isBlunt (s : String) : Bool :=
  s.toList.getLast?.all fun c => !c.isDigit

def stem (s : String) : List Char :=
  (s.toList.reverse.dropWhile Char.isDigit).reverse

def digits (s : String) : List Char :=
  (s.toList.reverse.takeWhile Char.isDigit).reverse

theorem dropWhile_of_blunt {s : String} (hs : isBlunt s = true) :
    s.toList.reverse.dropWhile Char.isDigit = s.toList.reverse ∧
      s.toList.reverse.takeWhile Char.isDigit = [] := by
  unfold isBlunt at hs
  rw [← List.head?_reverse] at hs
  cases hlist : s.toList.reverse with
  | nil => exact ⟨rfl, rfl⟩
  | cons c rest =>
      rw [hlist] at hs
      have hc : c.isDigit = false := by simpa using hs
      simp [hc]

theorem stem_of_blunt {s : String} (hs : isBlunt s = true) : stem s = s.toList := by
  rw [stem, (dropWhile_of_blunt hs).1, List.reverse_reverse]

theorem digits_of_blunt {s : String} (hs : isBlunt s = true) : digits s = [] := by
  rw [digits, (dropWhile_of_blunt hs).2, List.reverse_nil]

theorem toList_numbered (s : String) (n : Nat) :
    (s ++ toString n).toList.reverse = (Nat.toDigits 10 n).reverse ++ s.toList.reverse := by
  simp [Nat.toString_eq_repr, Nat.toList_repr]

theorem isDigit_of_mem_reverse {n : Nat} {c : Char} (h : c ∈ (Nat.toDigits 10 n).reverse) :
    c.isDigit = true :=
  Nat.isDigit_of_mem_toDigits (by decide) (by decide) (List.mem_reverse.1 h)

theorem stem_numbered {s : String} (hs : isBlunt s = true) (n : Nat) :
    stem (s ++ toString n) = s.toList := by
  rw [stem, toList_numbered, List.dropWhile_append_of_pos fun c => isDigit_of_mem_reverse,
    (dropWhile_of_blunt hs).1, List.reverse_reverse]

theorem digits_numbered {s : String} (hs : isBlunt s = true) (n : Nat) :
    digits (s ++ toString n) = Nat.toDigits 10 n := by
  rw [digits, toList_numbered, List.takeWhile_append_of_pos fun c => isDigit_of_mem_reverse,
    (dropWhile_of_blunt hs).2, List.append_nil, List.reverse_reverse]

theorem toDigits_injective {n m : Nat} (h : Nat.toDigits 10 n = Nat.toDigits 10 m) : n = m := by
  calc
    n = Nat.ofDigitChars 10 (Nat.toDigits 10 n) 0 := Nat.ofDigitChars_ten_toDigits.symm
    _ = Nat.ofDigitChars 10 (Nat.toDigits 10 m) 0 := by rw [h]
    _ = m := Nat.ofDigitChars_ten_toDigits

def numbered (s : String) : Option Nat → String
  | some n => s ++ toString n
  | none => s

/-- The text and the number can be read off. -/
theorem numbered_inj {s t : String} (hs : isBlunt s = true) (ht : isBlunt t = true)
    {n m : Option Nat} (h : numbered s n = numbered t m) : s = t ∧ n = m := by
  have hstem (s : String) (hs : isBlunt s = true) (n : Option Nat) :
      stem (numbered s n) = s.toList := by
    cases n with
    | none => exact stem_of_blunt hs
    | some n => exact stem_numbered hs n
  have htexts : s = t := by
    rw [← String.toList_inj, ← hstem s hs n, h, hstem t ht m]
  have hdigits := congrArg digits h
  refine ⟨htexts, ?_⟩
  cases n with
  | none =>
      cases m with
      | none => rfl
      | some m =>
          rw [numbered, numbered, digits_of_blunt hs, digits_numbered ht] at hdigits
          exact absurd hdigits.symm Nat.toDigits_ne_nil
  | some n =>
      cases m with
      | none =>
          rw [numbered, numbered, digits_numbered hs, digits_of_blunt ht] at hdigits
          exact absurd hdigits Nat.toDigits_ne_nil
      | some m =>
          rw [numbered, numbered, digits_numbered hs, digits_numbered ht] at hdigits
          rw [toDigits_injective hdigits]

/-! ## Names by what they are made for -/

inductive Form where
  | begin
  | finish
  /-- A place in a construct, such as the test of a loop. -/
  | part (role : String) (kind : LabelKind) (n : Nat)
  | case (n i : Nat)
  | default (n : Nat)
  | afterYield (n : Nat)
  /-- A variable for a value on its way. -/
  | fresh (n : Nat)
  /-- The object of a generator. -/
  | object (depth : Nat)
  deriving DecidableEq

namespace Form

def roles : List String := ["TEST", "BODY", "END", "INIT", "POST", "SUCC", "FAIL"]

def kinds : List LabelKind := [.whileLoop, .doWhile, .forLoop, .ifElse, .switch]

def isProper : Form → Bool
  | .part role kind _ => roles.contains role && kinds.contains kind
  | _ => true

def text : Form → String
  | .begin => Label.begin
  | .finish => Label.finish
  | .part role kind n => Label.part role kind n
  | .case n i => Label.caseOf n i
  | .default n => Label.defaultOf n
  | .afterYield n => Label.afterYield n
  | .fresh n => "$a" ++ toString n
  | .object depth => Label.generatorVariable depth

def base : Form → String
  | .begin => Label.begin
  | .finish => Label.finish
  | .part role kind _ => "$" ++ role ++ "_" ++ kind.name ++ "_"
  | .case n _ => "$SWITCH_" ++ toString n ++ "_CASE_"
  | .default n => "$SWITCH_" ++ toString n ++ "_DEFAULT"
  | .afterYield _ => "$YIELD_"
  | .fresh _ => "$a"
  | .object _ => "$generator"

def number? : Form → Option Nat
  | .part _ _ n | .case _ n | .afterYield n | .fresh n | .object n => some n
  | _ => none

theorem text_eq (a : Form) : a.text = numbered a.base a.number? := by
  cases a <;> rfl

theorem isBlunt_append {s t : String} (ht : t ≠ "") : isBlunt (s ++ t) = isBlunt t := by
  have hne : t.toList ≠ [] := by simpa using ht
  simp [isBlunt, List.getLast?_eq_some_getLast hne]

theorem isBlunt_base (a : Form) : isBlunt a.base = true := by
  cases a with
  | part | case | default => exact isBlunt_append (by decide)
  | begin => decide +kernel
  | finish => decide +kernel
  | afterYield => exact (by decide +kernel : isBlunt "$YIELD_" = true)
  | fresh => exact (by decide +kernel : isBlunt "$a" = true)
  | object => exact (by decide +kernel : isBlunt "$generator" = true)

def renumber : Form → Nat → Form
  | .part role kind _, n => .part role kind n
  | .case id _, n => .case id n
  | .afterYield _, n => .afterYield n
  | .fresh _, n => .fresh n
  | .object _, n => .object n
  | a, _ => a

theorem renumber_number (a : Form) : a.renumber (a.number?.getD 0) = a := by
  cases a <;> rfl

theorem renumber_renumber (a : Form) (n m : Nat) : (a.renumber n).renumber m = a.renumber m := by
  cases a <;> rfl

theorem base_renumber (a : Form) (n : Nat) : (a.renumber n).base = a.base := by
  cases a <;> rfl

def plainForms : List Form :=
  [.begin, .finish, .afterYield 0, .fresh 0, .object 0] ++
    roles.flatMap fun role => kinds.map fun kind => .part role kind 0

theorem renumber_mem_plainForms {a : Form} (ha : a.isProper = true) :
    a.renumber 0 ∈ plainForms ∨ (∃ n i, a = .case n i) ∨ ∃ n, a = .default n := by
  cases a with
  | part role kind n =>
      simp only [isProper, Bool.and_eq_true, List.contains_iff_mem] at ha
      refine .inl (List.mem_append_right _ (List.mem_flatMap.2 ⟨role, ha.1, ?_⟩))
      exact List.mem_map.2 ⟨kind, ha.2, rfl⟩
  | case n i => exact .inr (.inl ⟨n, i, rfl⟩)
  | default n => exact .inr (.inr ⟨n, rfl⟩)
  | begin | finish | afterYield | fresh | object =>
      exact .inl (List.mem_append_left _ (by simp [renumber]))

theorem eq_of_base_eq : ∀ a ∈ plainForms, ∀ b ∈ plainForms, a.base = b.base → a = b := by
  decide +kernel

/-- No other name looks like one of a switch. -/
theorem base_ne_switch {a : Form} (ha : a.renumber 0 ∈ plainForms) (n : Nat) (s : String) :
    a.base ≠ "$SWITCH_" ++ toString n ++ s := by
  have hplain : ∀ a ∈ plainForms, a.base.toList.take 8 ≠ "$SWITCH_".toList := by decide +kernel
  intro h
  refine hplain _ ha ?_
  rw [base_renumber, h]
  simp

theorem switch_inj {n m : Nat} {s : String}
    (h : "$SWITCH_" ++ toString n ++ s = "$SWITCH_" ++ toString m ++ s) : n = m := by
  have hlists := congrArg String.toList h
  simp only [String.toList_append] at hlists
  have hdigits := List.append_cancel_left (List.append_cancel_right hlists)
  exact toDigits_injective (by simpa only [Nat.toString_eq_repr, Nat.toList_repr] using hdigits)

/-- A name tells what it is made for. -/
theorem text_injective {a b : Form} (ha : a.isProper = true) (hb : b.isProper = true)
    (h : a.text = b.text) : a = b := by
  rw [text_eq, text_eq] at h
  obtain ⟨hbase, hnumber⟩ := numbered_inj (isBlunt_base a) (isBlunt_base b) h
  rcases renumber_mem_plainForms ha with ha | ⟨n, i, rfl⟩ | ⟨n, rfl⟩ <;>
    rcases renumber_mem_plainForms hb with hb | ⟨m, j, rfl⟩ | ⟨m, rfl⟩
  · have hforms : a.renumber 0 = b.renumber 0 :=
      eq_of_base_eq _ ha _ hb (by rw [base_renumber, base_renumber, hbase])
    calc
      a = (a.renumber 0).renumber (a.number?.getD 0) := by
        rw [renumber_renumber, renumber_number]
      _ = (b.renumber 0).renumber (b.number?.getD 0) := by rw [hforms, hnumber]
      _ = b := by rw [renumber_renumber, renumber_number]
  · exact absurd hbase (base_ne_switch ha m _)
  · exact absurd hbase (base_ne_switch ha m _)
  · exact absurd hbase.symm (base_ne_switch hb n _)
  · cases hnumber
    rw [switch_inj hbase]
  · cases hnumber
  · exact absurd hbase.symm (base_ne_switch hb n _)
  · cases hnumber
  · rw [switch_inj hbase]

end Form

end Label

end Resumable
