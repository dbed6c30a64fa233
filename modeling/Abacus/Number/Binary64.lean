import Abacus.Number.Power

/-!
# `Number.Binary64` — the exact value behind a binary64 number

Every finite binary64 number is a whole multiple of `2^-1074`, the least positive one. Counting those
**units** turns exact arithmetic on numbers into arithmetic on `Nat`: truncation, remainder, array
positions and decimal text all work on the unit count, and none of them rounds.

## Contents
- `decode` — NaN, an infinity, or a sign with a unit count;
- `roundDiv` — a quotient rounded to nearest, a half to the even neighbour;
- `nearest` — the binary64 number nearest to a fraction, overflow giving infinity.
-/

namespace Abacus
namespace Number

/-! ## Units -/

/-- The number of units that make up `1`. -/
def one : Nat := twoTo 1074

/-- What a binary64 number is: no number, an infinity, or `± units · 2^-1074`. -/
inductive Decoded where
  | nan
  | infinite (negative : Bool)
  | finite (negative : Bool) (units : Nat)
deriving DecidableEq, Repr

/-- Reads the value off the bits of `x`: one sign bit, eleven exponent bits, 52 fraction bits. -/
def decode (x : Float) : Decoded :=
  let bits := x.toBits.toNat
  let negative := decide (twoTo 63 ≤ bits)
  let biased := bits / twoTo 52 % twoTo 11
  let fraction := bits % twoTo 52
  if biased = 2047 then
    if fraction = 0 then .infinite negative else .nan
  else if biased = 0 then .finite negative fraction
  else .finite negative ((twoTo 52 + fraction) * twoTo (biased - 1))

/-! ## Rounding -/

/-- `num / den` rounded to the nearest whole number, a half to the even one. -/
def roundDiv (num den : Nat) : Nat :=
  let quotient := num / den
  let rest := num % den
  if 2 * rest < den then quotient
  else if den < 2 * rest then quotient + 1
  else quotient + quotient % 2

/-- The bits of infinity, above those of every finite magnitude. -/
def infinityBits : Nat := 2047 * twoTo 52

/-- The bits of the binary64 magnitude nearest to `num / den`.

The quotient in units is cut to 53 significant bits by a shift. Exponent and fraction are then one sum:
a fraction that rounds up to the next power of two carries into the exponent by itself. -/
def magnitudeBits (num den : Nat) : Nat :=
  let units := num * one
  -- Below `2^53` units nothing is shifted out: there the numbers are one unit apart.
  let shift := (units / den).log2 - 52
  min infinityBits (shift * twoTo 52 + roundDiv units (den * twoTo shift))

/-- The binary64 number nearest to `± num / den`, ties to even. -/
def nearest (negative : Bool) (num den : Nat) : Float :=
  .ofBits (.ofNat (magnitudeBits num den + if negative then twoTo 63 else 0))

/-- `n` rounded to 53 significant bits: the value of the binary64 number nearest to `n`. -/
def roundSignificant (n : Nat) : Nat :=
  let shift := n.log2 - 52
  roundDiv n (twoTo shift) * twoTo shift

/-! ## Special numbers -/

/-- The number that stands for no number. -/
def nan : Float := .ofBits 0x7ff8000000000000

/-- The infinity of the given sign. -/
def infinity (negative : Bool) : Float :=
  .ofBits (if negative then 0xfff0000000000000 else 0x7ff0000000000000)

end Number
end Abacus
