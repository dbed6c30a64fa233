import Abacus.Parse.Expression

/-!
# `Parse.Statement` — the rules for statements

    statement := "if" condition block ("else" ("if" … | block))?
               | "while" condition block
               | "print" expression ";"
               | "def" name "(" names ")" block
               | "return" expression? ";"
               | array ";"?
               | expression ";"?        (an assignment needs the semicolon)
    block     := "{" statement+ "}"

A function is known from its name on, so its body can call it. Its definition is queued once the body is
complete; definitions inside the body come first.
-/

namespace Abacus
namespace Parse

/-! ## Ends -/

/-- The semicolon a statement has to end with. -/
def semicolon : Parse Unit := do
  let _ ← expect (Token.is .semicolon)

/-- The semicolon a statement may end with. -/
def optionalSemicolon : Parse Unit := do
  let _ ← accept (Token.is .semicolon)

/-- Tells whether a term assigns to a variable or to an element. -/
def isAssignment : Term → Bool
  | .assign _ _ | .store _ _ _ => true
  | _ => false

/-! ## Statements, with `statement` for those inside blocks -/

/-- A statement and, unless the closing brace follows, `more` of them. -/
def statementsStep (statement : Parse Term) (more : Unit → Parse (List Term)) (_ : Unit) :
    Parse (List Term) := do
  let head ← statement
  if ← accept (Token.isOperator closeBrace) then
    return [head]
  else
    -- At the end of the program no statement begins, so a missing brace is reported there.
    let tail ← more ()
    return head :: tail

/-- Statements up to and including the closing brace; at least one. -/
def statements (statement : Parse Term) : Parse (List Term) := recurse (statementsStep statement) ()

/-- Statements in braces. -/
def block (statement : Parse Term) : Parse Term := do
  let _ ← expect (Token.isOperator openBrace)
  let inside ← statements statement
  return .braced (.block inside)

/-- What follows the word `else`. -/
def elseClause (statement : Parse Term) : Parse Term := do
  let token ← look
  if token.isWord "if" then
    return .elseClause (some (← statement)) none
  else
    return .elseClause none (some (← block statement))

/-- A branch. -/
def ifStatement (statement : Parse Term) : Parse Term := do
  advance
  let condition ← condition
  let body ← block statement
  if ← accept (Token.isWord "else") then
    return .ifElse condition body (some (← elseClause statement))
  else
    return .ifElse condition body none

/-- A loop. -/
def whileStatement (statement : Parse Term) : Parse Term := do
  advance
  let condition ← condition
  return .whileLoop condition (← block statement)

/-- An output statement. -/
def printStatement : Parse Term := do
  advance
  let value ← expression
  semicolon
  return .print value

/-- A `return`, with or without a value. -/
def returnStatement : Parse Term := do
  advance
  if ← accept (Token.is .semicolon) then
    return .giveBack none
  else
    let value ← expression
    semicolon
    return .giveBack (some value)

/-- A function definition. -/
def definition (statement : Parse Term) : Parse Term := do
  advance
  let name ← name
  learn name
  let _ ← expect (Token.is .leftParen)
  let params ← commaList .rightParen Parse.name
  let body ← block statement
  enqueue { name, params, body }
  return .define name params body

/-- An array that stands alone. -/
def arrayStatement : Parse Term := do
  let literal ← array expression
  optionalSemicolon
  return literal

/-- An expression that stands alone. -/
def expressionStatement : Parse Term := do
  let term ← expression
  if isAssignment term then
    semicolon
  else
    optionalSemicolon
  return term

/-- The statement that the current token begins. -/
def statementStep (statement : Parse Term) : Parse Term := do
  let token ← look
  if token.is .leftBracket then arrayStatement
  else if token.isWord "if" then ifStatement statement
  else if token.isWord "while" then whileStatement statement
  else if token.isWord "print" then printStatement
  else if token.isWord "def" then definition statement
  else if token.isWord "return" then returnStatement
  else expressionStatement

/-- A statement. -/
def statement : Parse Term := recurse (fun statement (_ : Unit) => statementStep (statement ())) ()

end Parse
end Abacus
