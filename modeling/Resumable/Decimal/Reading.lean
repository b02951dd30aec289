import Resumable.Decimal.Integer

/-!
# Reading floating-point numbers

Takes a decimal text with an optional sign, point and exponent, or the name of
an infinity or of no number, to the nearest floating-point number.
-/

namespace Resumable.Decimal

def leadingDigits (cs : List Char) : List Char :=
  cs.takeWhile fun c => (digit? c).isSome

/-- Digits around a point as one number, and how many stand after the point. -/
def coefficient (cs : List Char) : Nat × Nat :=
  let whole := leadingDigits cs
  let fraction := match cs.drop whole.length with
    | '.' :: rest => leadingDigits rest
    | _ => []
  ((digitsValue? 0 (whole ++ fraction)).getD 0, fraction.length)

def isExponentMark (c : Char) : Bool := c = 'e' || c = 'E'

/-- The nearest number to `m * 10 ^ e`; beyond every number it is infinite. -/
def nearest (m : Nat) (e : Int) : Float :=
  if m = 0 then 0.0
  else if 400 < e then 1.0 / 0.0
  else Float.ofScientific m (e < 0) e.natAbs

def readMagnitude (cs : List Char) : Float :=
  if cs = ['I', 'n', 'f'] then 1.0 / 0.0
  else if cs = ['N', 'a', 'N'] then 0.0 / 0.0
  else
    let (m, places) := coefficient cs
    let exponent := (cs.dropWhile fun c => !isExponentMark c).drop 1
    nearest m ((signed? exponent).getD 0 - places)

def readFloat (text : String) : Float :=
  match text.toList with
  | '-' :: cs => -(readMagnitude cs)
  | '+' :: cs => readMagnitude cs
  | cs => readMagnitude cs

end Resumable.Decimal
