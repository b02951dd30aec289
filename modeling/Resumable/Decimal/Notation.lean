import Resumable.Decimal.Shortest

/-!
# Text of numbers

How a double is written: its shortest digits, positionally while the decimal
exponent is from -4 to 5 and with an exponent otherwise.
-/

namespace Resumable.Decimal

structure Format where
  /-- The least decimal exponent written positionally. -/
  leastPositional : Int
  /-- The first decimal exponent from which an exponent is written again. -/
  firstExponential : Int
  /-- The least number of digits of a written exponent. -/
  exponentWidth : Nat
  notANumber : String
  infinity : String
  minusInfinity : String

/-- The format of numbers in programs, logs and answers. -/
def general : Format where
  leastPositional := -4
  firstExponential := 6
  exponentWidth := 2
  notANumber := "NaN"
  infinity := "+Inf"
  minusInfinity := "-Inf"

/-- Scientific notation: `d.ddde±xx`. -/
def Format.exponential (f : Format) (d : Digits) : String :=
  let (first, rest) := match d.digits with
    | [] => ('0', [])
    | c :: cs => (c, cs)
  let point := if rest.isEmpty then "" else "." ++ String.ofList rest
  let exponent := (toString d.exponent.natAbs).toList
  let padded := List.replicate (f.exponentWidth - exponent.length) '0' ++ exponent
  first.toString ++ point ++ "e" ++ (if d.exponent < 0 then "-" else "+") ++
    String.ofList padded

def Digits.positional (d : Digits) : String :=
  if d.exponent < 0 then
    "0." ++ String.ofList (List.replicate (d.exponent.natAbs - 1) '0' ++ d.digits)
  else
    let whole := d.exponent.toNat + 1
    let front := d.digits.take whole
    let padded := front ++ List.replicate (whole - front.length) '0'
    let rest := d.digits.drop whole
    String.ofList padded ++ (if rest.isEmpty then "" else "." ++ String.ofList rest)

def Format.render (f : Format) (x : Float) : String :=
  let bits := x.toBits
  let negative := bits ≥ 0x8000000000000000
  let sign := if negative then "-" else ""
  if x.isNaN then f.notANumber
  else if x.isInf then (if negative then f.minusInfinity else f.infinity)
  else
    let b := Binary.ofBits bits
    if b.mantissa = 0 then sign ++ "0"
    else
      let d := b.shortest
      sign ++ (if d.exponent < f.leastPositional || f.firstExponential ≤ d.exponent
        then f.exponential d else d.positional)

def floatText (x : Float) : String :=
  general.render x

/-- The remainder of `x / y` that has the sign of `x` and is smaller than `y`
in size, computed exactly. It is no number if `x` is infinite or `y` is zero. -/
def remainder (x y : Float) : Float :=
  if x.isNaN || y.isNaN || x.isInf || y == 0.0 then 0.0 / 0.0
  else if y.isInf then x
  else
    let a := Binary.ofBits x.toBits
    let b := Binary.ofBits y.toBits
    let low := min a.exponent b.exponent
    let left := a.mantissa * Nat.pow 2 (a.exponent - low).toNat
    let right := b.mantissa * Nat.pow 2 (b.exponent - low).toNat
    let size := (Float.ofNat (left % right)).scaleB low
    if x.toBits ≥ 0x8000000000000000 then -size else size

end Resumable.Decimal
