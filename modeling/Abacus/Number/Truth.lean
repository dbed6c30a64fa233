/-!
# `Number.Truth` — truth values as numbers

Truth is `1` and falsehood is `0`. As a condition every number but zero holds, NaN included; as an operand
of a logical operator only zero and one will do.
-/

namespace Abacus
namespace Number

/-- The number of a truth value. -/
def ofTruth (value : Bool) : Float := if value then 1 else 0

/-- Tells whether `x` holds as a condition. -/
def isTruthy (x : Float) : Bool := x != 0

/-- Tells whether `x` is a truth value, zero or one. -/
def isTruth (x : Float) : Bool := x == 0 || x == 1

end Number
end Abacus
