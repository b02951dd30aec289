/-!
# Sets of identities

A set of small natural numbers kept as a row of 64-bit words: number `n` is
bit `n % 64` of word `n / 64`. Words beyond the row count as zero.
-/

namespace Resumable

structure IdSet where
  words : Array UInt64
  deriving Inhabited, Repr

namespace IdSet

def wordBits : Nat := 64

/-- The word that has only bit `n % 64` set. -/
def mask (n : Nat) : UInt64 :=
  1 <<< (n % wordBits).toUInt64

/-- The empty set, with room for the numbers up to `max` before it grows. -/
def withCapacity (max : Nat) : IdSet :=
  ⟨Array.replicate ((max + wordBits) / wordBits) 0⟩

def word (s : IdSet) (i : Nat) : UInt64 :=
  s.words.getD i 0

/-- Whether `n` is in the set. -/
def contains (s : IdSet) (n : Nat) : Bool :=
  s.word (n / wordBits) &&& mask n != 0

/-- The set with at least `count` words. -/
def grow (s : IdSet) (count : Nat) : IdSet :=
  ⟨s.words ++ Array.replicate (count - s.words.size) 0⟩

/-- The set with `n`. -/
def insert (s : IdSet) (n : Nat) : IdSet :=
  let grown := s.grow (n / wordBits + 1)
  ⟨grown.words.modify (n / wordBits) (· ||| mask n)⟩

/-- The set without `n`. -/
def erase (s : IdSet) (n : Nat) : IdSet :=
  ⟨s.words.modify (n / wordBits) (· &&& ~~~ mask n)⟩

def trailingZeros (w : UInt64) : Nat :=
  w.toBitVec.ctz.toNat

theorem toNat_and_sub_one_lt {w : UInt64} (hw : w ≠ 0) : (w &&& (w - 1)).toNat < w.toNat := by
  have hpos : 0 < w.toNat := Nat.pos_of_ne_zero fun h => hw (UInt64.toNat_inj.1 h)
  have hsub : (w - 1).toNat = w.toNat - 1 :=
    UInt64.toNat_sub_of_le _ _ (UInt64.le_iff_toNat_le.2 hpos)
  calc (w &&& (w - 1)).toNat ≤ (w - 1).toNat := UInt64.le_iff_toNat_le.1 UInt64.and_le_right
    _ < w.toNat := by omega

/-- The numbers that a word stands for whose first bit is number `base`: the
lowest bit gives the next one and is cleared. -/
def wordMembers (base : Nat) (w : UInt64) : List Nat :=
  if w = 0 then []
  else (base + trailingZeros w) :: wordMembers base (w &&& (w - 1))
termination_by w.toNat
decreasing_by exact toNat_and_sub_one_lt ‹_›

def toList (s : IdSet) : List Nat :=
  (List.range s.words.size).flatMap fun i => wordMembers (i * wordBits) (s.word i)

def bitCount (w : UInt64) : Nat :=
  (List.range wordBits).countP fun i => w &&& mask i != 0

def size (s : IdSet) : Nat :=
  s.words.foldl (fun n w => n + bitCount w) 0

end IdSet

end Resumable
