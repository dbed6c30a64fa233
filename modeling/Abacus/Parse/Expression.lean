import Abacus.Number.Literal
import Abacus.Parse.Basic

/-!
# `Parse.Expression` — the rules for expressions

    expression := operation ("=" expression)?
    operation  := seven levels of operators, `|` loosest and `*` `/` `%` tightest, grouping to the left
    operand    := number | boolean | named | "(" expression ")" | array
    named      := name "(" list ")" | name "[" expression "]" | name
    array      := "[" list "]"

Only a variable or an element of an array can be assigned to. A name that is known to be a function is
called, or stands alone in front of a semicolon.

Conditions have a rule of their own: operators other than `*`, `/` and `%` group to the left whatever they
are, and a symbol without a meaning is kept.

    condition  := factor (operator factor)*
    factor     := operand (("*" | "/" | "%") operand)*
-/

namespace Abacus
namespace Parse

/-! ## Operands -/

/-- A number; its text has to be a literal. -/
def number : Parse Term := do
  let token ← look
  match Number.read? token.text with
  | some value =>
    advance
    return .number value
  | none => unexpected

/-- An array with its brackets. -/
def array (expression : Parse Term) : Parse Term := do
  let _ ← expect (Token.is .leftBracket)
  return .array (← commaList .rightBracket expression)

/-- What begins with a name. -/
def named (expression : Parse Term) : Parse Term := do
  let name ← name
  if ← accept (Token.is .leftParen) then
    return .call name (← commaList .rightParen expression)
  else if ← isKnown name then
    -- The semicolon stays: it ends the statement.
    let token ← look
    if token.is .semicolon then
      return .var name
    else
      unexpected
  else if ← accept (Token.is .leftBracket) then
    let index ← expression
    let _ ← expect (Token.is .rightBracket)
    return .lookup name index
  else
    return .var name

/-- An operand, with `expression` for what stands inside brackets. -/
def operand (expression : Parse Term) : Parse Term := do
  let token ← look
  match token.kind with
  | .number => number
  | .boolean =>
    advance
    return .boolean (token.text = "true")
  | .identifier => named expression
  | .leftParen =>
    advance
    let inner ← expression
    let _ ← expect (Token.is .rightParen)
    return inner
  | .leftBracket => array expression
  | _ => unexpected

/-! ## Operators -/

/-- The operator with a meaning that a token stands for. -/
def operatorOf? (token : Token) : Option Operator :=
  if token.kind = .operator then Operator.ofSymbol? token.text else none

/-- One operator of a level with its right operand, and then `more` of them. -/
def chainStep (level : List Operator) (operand : Parse Term) (more : Term → Parse Term) (left : Term) :
    Parse Term := do
  match (operatorOf? (← look)).filter level.contains with
  | some op =>
    advance
    let right ← operand
    more (.binary op left right)
  | none => return left

/-- What follows the operand `left` on a level. -/
def chainRest (level : List Operator) (operand : Parse Term) : Term → Parse Term :=
  recurse (chainStep level operand)

/-- Operands joined by operators of one level, grouped to the left. -/
def chain (level : List Operator) (operand : Parse Term) : Parse Term := do
  let first ← operand
  chainRest level operand first

/-- Operands joined by operators of several levels, the loosest level first. -/
def ladder : List (List Operator) → Parse Term → Parse Term
  | [], operand => operand
  | level :: tighter, operand => chain level (ladder tighter operand)

/-- The operators that bind tightest. -/
def factorLevel : List Operator := [.mul, .div, .rem]

/-- The levels of operators, the loosest first. -/
def levels : List (List Operator) :=
  [[.or], [.xor], [.and], [.eq, .ne], [.lt, .gt, .le, .ge], [.add, .sub], factorLevel]

/-! ## Expressions -/

/-- The term `target`, or what is assigned to it if it is followed by an equals sign. -/
def assignTo (expression : Parse Term) (target : Term) : Parse Term := do
  let token ← look
  if token.is .assignment then
    match target with
    | .var name =>
      advance
      return .assign name (← expression)
    | .lookup name index =>
      advance
      return .store name index (← expression)
    | _ => unexpected
  else
    return target

/-- An operation, and what is assigned to it if it is followed by an equals sign. -/
def assignment (expression : Parse Term) : Parse Term := do
  let target ← ladder levels (operand expression)
  assignTo expression target

/-- An expression. -/
def expression : Parse Term := recurse (fun expression (_ : Unit) => assignment (expression ())) ()

/-! ## Conditions -/

/-- The brace that opens a block. -/
def openBrace : String := "\x7b"

/-- The brace that closes a block. -/
def closeBrace : String := "\x7d"

/-- Operands joined by the operators that bind tightest. -/
def factor : Parse Term := chain factorLevel (operand expression)

/-- Tells whether a token joins two factors of a condition. -/
def joinsFactors (token : Token) : Bool := token.is .operator && !token.isOperator openBrace

/-- One operator of a condition with its right factor, and then `more` of them. -/
def conditionStep (more : Term → Parse Term) (left : Term) : Parse Term := do
  let token ← look
  if joinsFactors token then
    advance
    let right ← factor
    more (.binary (.ofText token.text) left right)
  else
    return left

/-- What follows the factor `left` in a condition. -/
def conditionRest : Term → Parse Term := recurse conditionStep

/-- The condition of an `if` or a `while`. -/
def condition : Parse Term := do
  let first ← factor
  conditionRest first

end Parse
end Abacus
