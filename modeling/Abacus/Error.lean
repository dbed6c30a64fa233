import Abacus.Number.Text
import Abacus.Operator
import Abacus.Token

/-!
# `Error` — what can go wrong, in words and exit codes

Reading characters, reading statements and evaluating each have a type of their own for their failures.
`Error` joins them and gives each its message and the exit code of a run that ends with it.
-/

namespace Abacus

/-- A character that begins no token, or a number that breaks off behind its decimal point. -/
structure SyntaxError where
  pos : Position
deriving DecidableEq, Repr, Inhabited

/-- A token that does not fit the statement read so far. -/
structure Unexpected where
  text : String
  pos : Position
deriving DecidableEq, Repr, Inhabited

/-- The failure to make use of `token`. -/
def Unexpected.ofToken (token : Token) : Unexpected := ⟨token.text, token.pos⟩

/-- A failure of evaluation. -/
inductive RuntimeError where
  | invalidOperator (op : Operator)
  | unknownIdentifier (name : String)
  | unknownFunction (name : String)
  | divisionByZero
  | invalidOperandType
  | integerIndexRequired
  | outOfBounds
  | notAnArray (name : String)
  | underflow
  | argumentCount (name : String) (expected found : Nat)
  | output (reason : String)
deriving DecidableEq, Repr, Inhabited

/-- Any failure of a program. -/
inductive Error where
  | refused (error : SyntaxError)
  | unexpected (error : Unexpected)
  | runtime (error : RuntimeError)
deriving DecidableEq, Repr, Inhabited

/-! ## Messages -/

/-- The message of a lexical failure. -/
def SyntaxError.message (error : SyntaxError) : String :=
  "Syntax error on line " ++ Number.decimal error.pos.line ++
    " column " ++ Number.decimal error.pos.column ++ "."

/-- The message of a token that does not fit. -/
def Unexpected.message (error : Unexpected) : String :=
  "Unexpected token at line " ++ Number.decimal error.pos.line ++
    " column " ++ Number.decimal error.pos.column ++ ": " ++ error.text

/-- What an evaluation failure says about its cause. -/
def RuntimeError.reason : RuntimeError → String
  | invalidOperator op => "invalid operator '" ++ op.symbol ++ "'."
  | unknownIdentifier name => "unknown identifier " ++ name
  | unknownFunction name => "unknown function " ++ name
  | divisionByZero => "division by zero."
  | invalidOperandType => "invalid operand type."
  | integerIndexRequired => "index is not an integer."
  | outOfBounds => "index out of bounds."
  | notAnArray name => name ++ " is not an array."
  | underflow => "underflow."
  | argumentCount name expected found =>
    name ++ " expects " ++ Number.decimal expected ++ " argument(s) but got " ++
      Number.decimal found ++ "."
  | output reason => "cannot write output: " ++ reason

/-- The message of an evaluation failure. -/
def RuntimeError.message (error : RuntimeError) : String := "Runtime error: " ++ error.reason

/-- The message of any failure. -/
def Error.message : Error → String
  | refused error => error.message
  | unexpected error => error.message
  | runtime error => error.message

/-! ## Exit codes -/

/-- The exit code of an evaluation failure. A condition with a meaningless operator counts as misread. -/
def RuntimeError.exitCode : RuntimeError → Nat
  | invalidOperator _ => 2
  | _ => 3

/-- The exit code of a run that ends with the failure. -/
def Error.exitCode : Error → Nat
  | refused _ => 1
  | unexpected _ => 2
  | runtime error => error.exitCode

end Abacus
