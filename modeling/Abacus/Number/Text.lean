import Abacus.Number.Binary64

/-!
# `Number.Text` — numbers written with six significant digits

A number is rounded to six significant decimal digits, ties to even. The decimal exponent of the rounded
value decides the layout: from `-4` up to `5` it is written with a decimal point, otherwise as a
mantissa and an exponent with a sign and at least two digits. Zeros at the end of a fraction are left out.

## Contents
- `leadingExponent` — the power of ten of a fraction's first digit;
- `roundAt`, `scientific` — a fraction rounded to a power of ten, and to the digits kept;
- `pointed` — a scaled whole number with its decimal point;
- `text` — the text of a number.
-/

namespace Abacus
namespace Number

/-! ## Decimal digits -/

/-- `n` in decimal digits. -/
def decimal (n : Nat) : String := .ofList (Nat.toDigits 10 n)

/-- How many decimal digits `n` has; `0` has one. -/
def digitCount (n : Nat) : Nat := (Nat.toDigits 10 n).length

/-- The last `count` decimal digits of `n`, most significant first, with leading zeros. -/
def lastDigits : Nat → Nat → List Char
  | 0, _ => []
  | count + 1, n => lastDigits count (n / 10) ++ [Nat.digitChar (n % 10)]

/-! ## Rounding to a power of ten -/

/-- The greatest `k` with `10^k ≤ num / den`, for positive `num` and `den`. -/
def leadingExponent (num den : Nat) : Int :=
  if den ≤ num then (digitCount (num / den) : Int) - 1
  else -(digitCount ((den - 1) / num) : Int)

/-- `num / den` as a whole number of `10^place`, rounded to nearest, a half to the even one. -/
def roundAt (num den : Nat) : Int → Nat
  | .ofNat places => roundDiv num (den * tenTo places)
  | .negSucc places => roundDiv (num * tenTo (places + 1)) den

/-- How many significant digits are kept. -/
def significantDigits : Nat := 6

/-- The place of the last digit kept when the first one stands for `10^exponent`. -/
def lastPlace (exponent : Int) : Int := exponent + 1 - significantDigits

/-- The digits kept of `num / den`, as a whole number, and the decimal exponent of the first of them. Rounding
`9.999996` gives `10.0000`: a carry out of the first digit moves the point. -/
def scientific (num den : Nat) : Nat × Int :=
  let exponent := leadingExponent num den
  let digits := roundAt num den (lastPlace exponent)
  if digits = tenTo significantDigits then (tenTo (significantDigits - 1), exponent + 1) else (digits, exponent)

/-! ## Layout -/

/-- Takes zeros off the end of a fraction: `n / 10^places` with the fewest places. -/
def stripZeros : Nat → Nat → Nat × Nat
  | n, 0 => (n, 0)
  | n, places + 1 => if n % 10 = 0 then stripZeros (n / 10) places else (n, places + 1)

/-- `n / 10^places` with a decimal point where a fraction remains. -/
def pointed (n places : Nat) : String :=
  match stripZeros n places with
  | (n, 0) => decimal n
  | (n, places) => decimal (n / tenTo places) ++ "." ++ .ofList (lastDigits places n)

/-- A decimal exponent with its sign and at least two digits. -/
def exponentText (exponent : Int) : String :=
  let digits := decimal exponent.natAbs
  (if exponent < 0 then "-" else "+") ++ (if exponent.natAbs < 10 then "0" ++ digits else digits)

/-- Tells whether a value of this decimal exponent is written without one. -/
def isPositional (exponent : Int) : Bool :=
  decide (-4 ≤ exponent ∧ exponent < significantDigits)

/-- The text of the magnitude `units · 2^-1074`. Written without an exponent, it is rounded once more, at the place
of the last digit kept. -/
def magnitudeText (units : Nat) : String :=
  if units = 0 then "0"
  else
    let (digits, exponent) := scientific units one
    if isPositional exponent then
      pointed (roundAt units one (lastPlace exponent)) (-lastPlace exponent).toNat
    else
      pointed digits (significantDigits - 1) ++ "e" ++ exponentText exponent

/-- The text of `x`. The sign of zero is kept. -/
def text (x : Float) : String :=
  match decode x with
  | .nan => "nan"
  | .infinite negative => if negative then "-inf" else "inf"
  | .finite negative units => if negative then "-" ++ magnitudeText units else magnitudeText units

end Number
end Abacus
