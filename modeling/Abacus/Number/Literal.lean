import Abacus.Number.Binary64

/-!
# `Number.Literal` — numbers read from decimal text

A literal is an optional sign and then `inf`, `infinity` or `nan` in any case, or digits with at most one
decimal point, at least one digit, and an optional exponent. Its value is the nearest binary64 number.

## Contents
- `naturalValue` — the value of a digit string;
- `ofScientific` — the number nearest to `± digits · 10^exponent`;
- `read?` — the number a text denotes, if it is a literal.
-/

namespace Abacus
namespace Number

/-! ## Digits -/

/-- The value of a string of decimal digits. -/
def naturalValue (digits : List Char) : Nat :=
  digits.foldl (fun value c => 10 * value + (c.toNat - '0'.toNat)) 0

/-- Splits off the longest run of digits at the front. -/
def spanDigits (cs : List Char) : List Char × List Char :=
  (cs.takeWhile Char.isDigit, cs.dropWhile Char.isDigit)

/-! ## Scientific values -/

/-- Past this power of ten every value is infinite, and below its inverse every value is zero. -/
def exponentReach : Nat := 400

/-- The number nearest to `± digits · 10^exponent`, where `digits` is written with `width` digits. An
exponent beyond the reach of binary64 is moved to its edge, which leaves the nearest number unchanged. -/
def ofScientific (negative : Bool) (digits width : Nat) (exponent : Int) : Float :=
  let exponent := max (-(width + exponentReach : Nat) : Int) (min exponentReach exponent)
  nearest negative (digits * tenTo exponent.toNat) (tenTo (-exponent).toNat)

/-! ## Reading -/

/-- The value of an exponent's digits: an optional sign and at least one digit. -/
def readExponent? (cs : List Char) : Option Int :=
  let (negative, digits) := match cs with
    | '-' :: rest => (true, rest)
    | '+' :: rest => (false, rest)
    | rest => (false, rest)
  if digits.isEmpty || !digits.all Char.isDigit then none
  else
    let value : Int := naturalValue digits
    some (if negative then -value else value)

/-- Reads digits, an optional fraction and an optional exponent. -/
def readDecimal? (negative : Bool) (cs : List Char) : Option Float :=
  let (whole, rest) := spanDigits cs
  let (fraction, rest) := match rest with
    | '.' :: rest => spanDigits rest
    | rest => ([], rest)
  let digits := whole ++ fraction
  let value (exponent : Int) :=
    ofScientific negative (naturalValue digits) digits.length (exponent - fraction.length)
  if digits.isEmpty then none
  else match rest with
    | [] => some (value 0)
    | c :: rest => if c = 'e' || c = 'E' then (readExponent? rest).map value else none

/-- Reads an unsigned literal. -/
def readMagnitude? (negative : Bool) (cs : List Char) : Option Float :=
  let word := cs.map Char.toLower
  if word = ['n', 'a', 'n'] then some nan
  else if word = ['i', 'n', 'f'] || word = ['i', 'n', 'f', 'i', 'n', 'i', 't', 'y'] then
    some (infinity negative)
  else readDecimal? negative cs

/-- The number a text denotes, or `none` if it is no literal. -/
def read? (text : String) : Option Float :=
  match text.toList with
  | '-' :: cs => readMagnitude? true cs
  | '+' :: cs => readMagnitude? false cs
  | cs => readMagnitude? false cs

end Number
end Abacus
