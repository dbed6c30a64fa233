import Abacus.Error
import Abacus.Number.Integer

/-!
# `Elements` — the contents of an array

## Contents
- `position` — the place a number denotes in an array of a given length;
- `text` — an array in brackets.
-/

namespace Abacus

/-- The elements of an array. -/
abbrev Elements := Array Float

namespace Elements

/-- The place that `index` denotes among `length` elements.

A number that is not whole denotes none. Like every number the length is compared as a binary64 number,
which is exact up to `2^53`. -/
def position (index : Float) (length : Nat) : Except RuntimeError Nat :=
  match Number.decode index with
  | .finite negative units =>
    let whole := units / Number.one
    if units % Number.one ≠ 0 then .error .integerIndexRequired
    else if negative && units ≠ 0 then .error .outOfBounds
    else if whole < Number.roundSignificant length then .ok whole
    else .error .outOfBounds
  | _ => .error .integerIndexRequired

/-- The elements between brackets. -/
def text (elements : Elements) : String :=
  "[" ++ ", ".intercalate (elements.toList.map Number.text) ++ "]"

end Elements
end Abacus
