import Abacus.Number.Binary64

/-!
# `Number.Integer` — whole parts, remainders and conversions

## Contents
- `ofNat`, `ofInt` — the number nearest to an integer;
- `truncate` — the whole part, kept inside a signed 64-bit word;
- `bitwise` — two integers combined as words;
- `remainder` — what is left of the dividend, exactly, with the dividend's sign.
-/

namespace Abacus
namespace Number

/-! ## From integers -/

/-- The number nearest to `n`. -/
def ofNat (n : Nat) : Float := nearest false n 1

/-- The number nearest to `i`. -/
def ofInt (i : Int) : Float := nearest (decide (i < 0)) i.natAbs 1

/-! ## To integers -/

/-- The least signed 64-bit integer. -/
def minWord : Int := -(twoTo 63 : Int)

/-- The greatest signed 64-bit integer. -/
def maxWord : Int := (twoTo 63 : Int) - 1

/-- `i` moved to the nearest signed 64-bit integer. -/
def clampWord (i : Int) : Int := max minWord (min maxWord i)

/-- The whole part of `x`, rounded towards zero and clamped to a signed 64-bit word.
No number has the whole part `0`. -/
def truncate (x : Float) : Int :=
  match decode x with
  | .nan => 0
  | .infinite negative => if negative then minWord else maxWord
  | .finite negative units =>
    let whole : Int := (units / one : Nat)
    clampWord (if negative then -whole else whole)

/-- Two integers combined bit by bit, as signed 64-bit words. -/
def bitwise (combine : Int64 → Int64 → Int64) (i j : Int) : Int := (combine (.ofInt i) (.ofInt j)).toInt

/-! ## Remainder -/

/-- The exact remainder of `x` by `y`: `x` less the whole multiple of `y` towards zero, with the sign of
`x`. An infinite dividend, a zero divisor and NaN leave no number; an infinite divisor leaves `x`. -/
def remainder (x y : Float) : Float :=
  match decode x, decode y with
  | .finite negative units, .finite _ divisor =>
    if divisor = 0 then nan else nearest negative (units % divisor) one
  | .finite _ _, .infinite _ => x
  | _, _ => nan

end Number
end Abacus
