/-!
# `Operator` — the binary operators

Fourteen operators have a symbol and a family. A condition may also hold a symbol that is none of them;
it is kept as `unknown`, and only evaluating it fails.
-/

namespace Abacus

/-- A binary operator. -/
inductive Operator where
  | add | sub | mul | div | rem
  | lt | gt | le | ge | eq | ne
  | and | xor | or
  | unknown (symbol : Char)
deriving DecidableEq, Repr, Inhabited

namespace Operator

/-- What an operator takes and gives. -/
inductive Family where
  /-- Numbers to a number. -/
  | arithmetic
  /-- Two numbers or two truth values to a truth value. -/
  | comparison
  /-- Truth values to a truth value. -/
  | logical
  /-- No meaning. -/
  | unknown
deriving DecidableEq, Repr

/-- The family of an operator. -/
def family : Operator → Family
  | add | sub | mul | div | rem => .arithmetic
  | lt | gt | le | ge | eq | ne => .comparison
  | and | xor | or => .logical
  | unknown _ => .unknown

/-- Tells whether the operator gives a truth value. -/
def givesTruth (op : Operator) : Bool := op.family = .comparison || op.family = .logical

/-- The symbol an operator is written with. -/
def symbol : Operator → String
  | add => "+"
  | sub => "-"
  | mul => "*"
  | div => "/"
  | rem => "%"
  | lt => "<"
  | gt => ">"
  | le => "<="
  | ge => ">="
  | eq => "=="
  | ne => "!="
  | and => "&"
  | xor => "^"
  | or => "|"
  | unknown c => .ofList [c]

/-- The operators that have a meaning. -/
def meaningful : List Operator :=
  [add, sub, mul, div, rem, lt, gt, le, ge, eq, ne, and, xor, or]

/-- The operator with a meaning that is written as `text`. -/
def ofSymbol? (text : String) : Option Operator := meaningful.find? (·.symbol = text)

/-- The operator written as `text`; one without a meaning is known by its first character, and an empty
text by the character zero. -/
def ofText (text : String) : Operator :=
  (ofSymbol? text).getD (.unknown (text.toList.headD '\x00'))

/-- Reading a symbol gives back the operator. -/
theorem ofSymbol?_symbol {op : Operator} (h : op ∈ meaningful) : ofSymbol? op.symbol = some op := by
  revert op
  decide +kernel

end Operator
end Abacus
