/-!
# Glob patterns

A pattern is a row of chunks; a star in front of a chunk lets the chunk start
anywhere later in the name, but not past a slash. Names are matched as UTF-8
bytes: a star may stop inside a character, and a byte that starts no character
counts as U+FFFD. Each chunk takes the leftmost place where it fits, and an
earlier choice is never revised.
-/

namespace Resumable.Text

inductive GlobItem where
  /-- Exactly this byte. -/
  | byte (b : UInt8)
  /-- Any one character but a slash. -/
  | anyChar
  /-- One character inside (or, if `negated`, outside) the given ranges. -/
  | oneOf (negated : Bool) (ranges : List (Nat × Nat))
  deriving Repr, DecidableEq

/-- A run of positions; `star` allows a gap in front of it. -/
structure GlobChunk where
  star : Bool
  items : List GlobItem
  deriving Repr, DecidableEq

abbrev Glob := List GlobChunk

namespace Glob

def slash : UInt8 := 0x2f
def starByte : UInt8 := 0x2a
def questionByte : UInt8 := 0x3f
def openBracket : UInt8 := 0x5b
def closeBracket : UInt8 := 0x5d
def backslash : UInt8 := 0x5c
def caret : UInt8 := 0x5e
def dash : UInt8 := 0x2d

/-- The six low bits of a byte that continues a character. -/
def continuation? (b : UInt8) : Option Nat :=
  if 0x80 ≤ b && b < 0xc0 then some (b.toNat - 0x80) else none

def replacement : Nat := 0xfffd

/-- The first character of a byte row and what follows it. -/
def nextChar : List UInt8 → Option (Nat × List UInt8)
  | [] => none
  | b0 :: rest =>
      let broken := some (replacement, rest)
      if b0 < 0x80 then some (b0.toNat, rest)
      else if b0 < 0xc0 then broken
      else if b0 < 0xe0 then
        match rest with
        | b1 :: tail =>
            match continuation? b1 with
            | some c1 => some ((b0.toNat - 0xc0) * 64 + c1, tail)
            | none => broken
        | [] => broken
      else if b0 < 0xf0 then
        match rest with
        | b1 :: b2 :: tail =>
            match continuation? b1, continuation? b2 with
            | some c1, some c2 => some (((b0.toNat - 0xe0) * 64 + c1) * 64 + c2, tail)
            | _, _ => broken
        | _ => broken
      else
        match rest with
        | b1 :: b2 :: b3 :: tail =>
            match continuation? b1, continuation? b2, continuation? b3 with
            | some c1, some c2, some c3 =>
                some ((((b0.toNat - 0xf0) * 64 + c1) * 64 + c2) * 64 + c3, tail)
            | _, _, _ => broken
        | _ => broken

/-! ## Reading a pattern -/

/-- The bytes up to the next star outside brackets, and the rest from it on. -/
def splitAtStar (inBrackets : Bool) : List UInt8 → List UInt8 × List UInt8
  | [] => ([], [])
  | b :: rest =>
      if b = backslash then
        match rest with
        | [] => ([b], [])
        | escaped :: tail =>
            let (chunk, others) := splitAtStar inBrackets tail
            (b :: escaped :: chunk, others)
      else if b = starByte && !inBrackets then ([], b :: rest)
      else
        let inside := if b = openBracket then true
          else if b = closeBracket then false else inBrackets
        let (chunk, others) := splitAtStar inside rest
        (b :: chunk, others)

/-- One end of a range inside brackets: a character, escaped or not, that is
neither a dash nor a closing bracket and does not end the chunk. -/
def rangeEnd? : List UInt8 → Option (Nat × List UInt8)
  | [] => none
  | b :: rest =>
      if b = dash || b = closeBracket then none
      else
        match nextChar (if b = backslash then rest else b :: rest) with
        | some (c, tail) => if tail.isEmpty then none else some (c, tail)
        | none => none

def ranges? : Nat → List (Nat × Nat) → List UInt8 →
    Option (List (Nat × Nat) × List UInt8)
  | 0, _, _ => none
  | fuel + 1, found, bytes =>
      match bytes with
      | [] => none
      | b :: rest =>
          if b = closeBracket && !found.isEmpty then some (found.reverse, rest)
          else do
            let (low, tail) ← rangeEnd? bytes
            match tail with
            | d :: more =>
                if d = dash then do
                  let (high, others) ← rangeEnd? more
                  ranges? fuel ((low, high) :: found) others
                else ranges? fuel ((low, low) :: found) tail
            | [] => none

/-- The positions of a chunk, or nothing if its brackets or escapes are broken. -/
def items? : Nat → List UInt8 → Option (List GlobItem)
  | _, [] => some []
  | 0, _ :: _ => none
  | fuel + 1, b :: rest =>
      if b = openBracket then do
        let (negated, body) := match rest with
          | c :: tail => if c = caret then (true, tail) else (false, rest)
          | [] => (false, rest)
        let (ranges, others) ← ranges? (body.length + 1) [] body
        let items ← items? fuel others
        return .oneOf negated ranges :: items
      else if b = questionByte then do
        return .anyChar :: (← items? fuel rest)
      else if b = backslash then
        match rest with
        | [] => none
        | c :: tail => do return .byte c :: (← items? fuel tail)
      else do
        return .byte b :: (← items? fuel rest)

def chunks? : Nat → List UInt8 → Option Glob
  | _, [] => some []
  | 0, _ :: _ => none
  | fuel + 1, bytes => do
      let body := bytes.dropWhile (· == starByte)
      let (chunk, others) := splitAtStar false body
      let items ← items? (chunk.length + 1) chunk
      let rest ← chunks? fuel others
      return ⟨bytes.length ≠ body.length, items⟩ :: rest

def parse? (pattern : String) : Option Glob :=
  let bytes := pattern.toUTF8.toList
  chunks? (bytes.length + 1) bytes

/-! ## Matching -/

/-- What is left of `name` after one position, if it fits. -/
def takeItem? (item : GlobItem) (name : List UInt8) : Option (List UInt8) :=
  match item with
  | .byte b =>
      match name with
      | c :: rest => if b = c then some rest else none
      | [] => none
  | .anyChar =>
      match name with
      | c :: _ => if c = slash then none else (nextChar name).map (·.2)
      | [] => none
  | .oneOf negated ranges =>
      match nextChar name with
      | some (c, rest) =>
          let inside := ranges.any fun (low, high) => low ≤ c && c ≤ high
          if inside = negated then none else some rest
      | none => none

/-- What is left of `name` after all positions of a chunk, if they fit. -/
def takeItems? (items : List GlobItem) (name : List UInt8) : Option (List UInt8) :=
  items.foldlM (fun left item => takeItem? item left) name

/-- The leftmost fit of a chunk after a gap of at least one byte. -/
def skipTo? (items : List GlobItem) (mustEnd : Bool) : List UInt8 → Option (List UInt8)
  | [] => none
  | c :: rest =>
      if c = slash then none
      else
        match takeItems? items rest with
        | some left => if mustEnd && !left.isEmpty then skipTo? items mustEnd rest else some left
        | none => skipTo? items mustEnd rest

/-- Whether the chunks cover the whole of `name`. -/
def matchBytes : Glob → List UInt8 → Bool
  | [], name => name.isEmpty
  | chunk :: rest, name =>
      if chunk.star && chunk.items.isEmpty && rest.isEmpty then !name.contains slash
      else
        let mustEnd := rest.isEmpty
        let here := match takeItems? chunk.items name with
          | some left => if mustEnd && !left.isEmpty then none else some left
          | none => none
        match here with
        | some left => matchBytes rest left
        | none =>
            if chunk.star then
              match skipTo? chunk.items mustEnd name with
              | some left => matchBytes rest left
              | none => false
            else false

def matchesName (glob : Glob) (name : String) : Bool :=
  matchBytes glob name.toUTF8.toList

def isPattern (text : String) : Bool :=
  text.toList.any fun c => c = '*' || c = '?' || c = '[' || c = '\\'

end Glob

end Resumable.Text
