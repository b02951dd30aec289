import Resumable.Text.Printable

/-!
# Quoted texts

A text between double quotes in which a quote, a backslash and every character
that is not printable are written as an escape.
-/

namespace Resumable.Text

/-- The lower-case hexadecimal digits of `n`, padded with zeros to `width`. -/
def hexPadded (width n : Nat) : String :=
  let digits := Nat.toDigits 16 n
  String.ofList (List.replicate (width - digits.length) '0' ++ digits)

/-- How one character stands between two quotation marks. -/
def escapeIn (mark c : Char) : String :=
  if c = mark || c = '\\' then "\\" ++ c.toString
  else if isPrintable c then c.toString
  else
    match c.toNat with
    | 0x07 => "\\a"
    | 0x08 => "\\b"
    | 0x09 => "\\t"
    | 0x0a => "\\n"
    | 0x0b => "\\v"
    | 0x0c => "\\f"
    | 0x0d => "\\r"
    | n =>
        if n < 0x20 || n = 0x7f then "\\x" ++ hexPadded 2 n
        else if n < 0x10000 then "\\u" ++ hexPadded 4 n
        else "\\U" ++ hexPadded 8 n

def escapeChar (c : Char) : String := escapeIn '"' c

def quote (s : String) : String :=
  "\"" ++ String.join (s.toList.map escapeChar) ++ "\""

/-- The character with a number between single quotes; a number of no character
counts as the replacement character. -/
def quoteNumber (n : Int) : String :=
  let c := if 0 ≤ n && n.toNat.isValidChar then Char.ofNat n.toNat else '\ufffd'
  "'" ++ escapeIn '\'' c ++ "'"

end Resumable.Text
