/-!
# Signed decimal integers of 64 bits

The text of an integer, and the reader that takes an optional sign, decimal
digits and nothing else, inside the range of 64 bits.
-/

namespace Resumable.Decimal

def digit? (c : Char) : Option Nat :=
  if '0' ≤ c && c ≤ '9' then some (c.toNat - '0'.toNat) else none

/-- The number written by the digits after `acc`. -/
def digitsValue? : Nat → List Char → Option Nat
  | acc, [] => some acc
  | acc, c :: cs => do
      let d ← digit? c
      digitsValue? (acc * 10 + d) cs

/-- The number written by a non-empty row of digits. -/
def natural? : List Char → Option Nat
  | [] => none
  | c :: cs => digitsValue? 0 (c :: cs)

def signed? : List Char → Option Int
  | '-' :: cs => (natural? cs).map fun n => -(n : Int)
  | '+' :: cs => (natural? cs).map fun n => (n : Int)
  | cs => (natural? cs).map fun n => (n : Int)

def inRange (n : Int) : Bool :=
  Int64.minValue.toInt ≤ n && n ≤ Int64.maxValue.toInt

def readInt64? (text : String) : Option Int64 := do
  let n ← signed? text.toList
  if inRange n then some (Int64.ofInt n) else none

def int64Text (n : Int64) : String :=
  toString n.toInt

end Resumable.Decimal
