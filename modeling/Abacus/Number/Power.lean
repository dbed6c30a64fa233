/-!
# `Number.Power` — powers of two and ten

The two powers that number formats are made of. They are powers of natural numbers and nothing more general.
-/

namespace Abacus
namespace Number

/-- Two to the power `k`. -/
def twoTo (k : Nat) : Nat := Nat.pow 2 k

/-- Ten to the power `k`. -/
def tenTo (k : Nat) : Nat := Nat.pow 10 k

theorem twoTo_pos (k : Nat) : 0 < twoTo k := Nat.pow_pos (by decide)

theorem tenTo_pos (k : Nat) : 0 < tenTo k := Nat.pow_pos (by decide)

end Number
end Abacus
