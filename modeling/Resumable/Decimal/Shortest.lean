/-!
# Shortest decimal digits

The fewest decimal digits that read back as a given double-precision number:
of all decimals that round to the number, one with the least number of digits,
and of those the nearest to it.
-/

namespace Resumable.Decimal

/-- A finite positive double as `mantissa * 2 ^ exponent`. -/
structure Binary where
  mantissa : Nat
  exponent : Int
  deriving Repr, DecidableEq

/-- A positive decimal `0.d₁d₂… * 10 ^ (exponent + 1)` given by the number
whose decimal digits are `digits`; the first digit has weight `10 ^ exponent`. -/
structure Digits where
  digits : List Char
  exponent : Int
  deriving Repr, DecidableEq

/-- The leading bit of a mantissa with all its 53 bits: `2 ^ 52`. -/
def leadingBit : Nat := 4503599627370496

/-- The smallest exponent of `Binary.mantissa * 2 ^ exponent`. -/
def leastExponent : Int := -1074

def Binary.ofBits (bits : UInt64) : Binary :=
  let fraction := bits.toNat % leadingBit
  let biased := bits.toNat / leadingBit % 2048
  if biased = 0 then ⟨fraction, leastExponent⟩
  else ⟨leadingBit + fraction, (biased : Int) - 1075⟩

/-- All quantities are compared as whole multiples of `2 ^ -binaryScale`
times `10 ^ -decimalScale`. -/
def binaryScale : Nat := 1080
def decimalScale : Nat := 400

/-- The number `m * 2 ^ e` in those units. -/
def scaled (m : Nat) (e : Int) : Nat :=
  m * Nat.pow 2 (e + binaryScale).toNat * Nat.pow 10 decimalScale

/-- The power `10 ^ e` in those units. -/
def scaledPower (e : Int) : Nat :=
  Nat.pow 10 (e + decimalScale).toNat * Nat.pow 2 binaryScale

/-- The reals that round to a double: a closed interval if the mantissa is
even, an open one otherwise. -/
structure Interval where
  low : Nat
  high : Nat
  closed : Bool

def Interval.contains (i : Interval) (x : Nat) : Bool :=
  if i.closed then i.low ≤ x && x ≤ i.high else i.low < x && x < i.high

/-- Below a power of two the next double is half as far away. -/
def Binary.interval (b : Binary) : Interval :=
  let low :=
    if b.mantissa = leadingBit && leastExponent < b.exponent then
      scaled (4 * b.mantissa - 1) (b.exponent - 2)
    else scaled (2 * b.mantissa - 1) (b.exponent - 1)
  ⟨low, scaled (2 * b.mantissa + 1) (b.exponent - 1), b.mantissa % 2 = 0⟩

/-- The largest `e` with `10 ^ e ≤ m * 2 ^ exponent`. -/
def Binary.decimalExponent (b : Binary) : Int :=
  let whole := scaled b.mantissa b.exponent / Nat.pow 2 binaryScale
  ((Nat.toDigits 10 whole).length : Int) - 1 - decimalScale

/-- The digits of `n` without trailing zeros. -/
def significant (n : Nat) : List Char :=
  ((Nat.toDigits 10 n).reverse.dropWhile (· == '0')).reverse

/-- Tries one, two, … digits until a neighbour of the number on that decimal
grid lies in its interval. -/
def shortestFrom (value : Nat) (interval : Interval) (top : Int) : Nat → Nat → Digits
  | 0, count => ⟨significant (value / scaledPower (top - count)), top⟩
  | fuel + 1, count =>
      let grid := scaledPower (top - count)
      let below := value / grid
      let above := below + 1
      let lowHit := interval.contains (below * grid) && below ≠ 0
      let highHit := interval.contains (above * grid)
      let chosen :=
        if lowHit && highHit then
          let down := value - below * grid
          let up := above * grid - value
          if down < up then some below
          else if up < down then some above
          else if below % 2 = 0 then some below else some above
        else if lowHit then some below
        else if highHit then some above
        else none
      match chosen with
      | some n =>
          let exponent := top - count + ((Nat.toDigits 10 n).length : Int) - 1
          ⟨significant n, exponent⟩
      | none => shortestFrom value interval top fuel (count + 1)

def Binary.shortest (b : Binary) : Digits :=
  shortestFrom (scaled b.mantissa b.exponent) b.interval b.decimalExponent 20 0

end Resumable.Decimal
