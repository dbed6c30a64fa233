import Abacus.Number.Text
import Abacus.Term

/-!
# `Term.Render` — the text of a term

Operations and assignments are written in full parentheses, so the text shows how operators group. Blocks
put each statement on a line of its own, four spaces deeper than the line that opens them.

A block writes its closing brace; the opening one belongs to the `if`, `else`, `while` or `def` in front.
-/

namespace Abacus

/-- How a truth value is shown. -/
def truthText (value : Bool) : String := if value then "true" else "false"

namespace Term

/-- How many spaces a nesting level adds. -/
def indentWidth : Nat := 4

/-- The spaces in front of a line at nesting level `depth`. -/
def indent (depth : Nat) : String := .ofList (List.replicate (depth * indentWidth) ' ')

/-- The start of a new line at nesting level `depth`. -/
def newLine (depth : Nat) : String := "\n" ++ indent depth

mutual

/-- The text of a term that stands at nesting level `depth`. -/
def renderAt (depth : Nat) : Term → String
  | number value => Number.text value
  | boolean value => truthText value
  | var name => name
  | assign name value => "(" ++ name ++ " = " ++ value.renderAt depth ++ ")"
  | binary op left right =>
    "(" ++ left.renderAt depth ++ " " ++ op.symbol ++ " " ++ right.renderAt depth ++ ")"
  | block statements => renderLines (depth + 1) statements ++ newLine depth ++ "\x7d"
  | braced body => body.renderAt depth
  | ifElse condition body none =>
    "if " ++ condition.renderAt depth ++ " \x7b" ++ body.renderAt depth
  | ifElse condition body (some otherwise) =>
    "if " ++ condition.renderAt depth ++ " \x7b" ++ body.renderAt depth ++ otherwise.renderAt depth
  | elseClause (some nested) _ => newLine depth ++ "else " ++ nested.renderAt depth
  | elseClause none (some body) => newLine depth ++ "else \x7b" ++ body.renderAt depth
  | elseClause none none => newLine depth ++ "else "
  | whileLoop condition body =>
    "while " ++ condition.renderAt depth ++ " \x7b" ++ body.renderAt depth
  | print value => "print " ++ value.renderAt depth
  | define name params body =>
    "def " ++ name ++ "(" ++ ", ".intercalate params ++ ") \x7b" ++ body.renderAt depth
  | giveBack none => "return"
  | giveBack (some value) => "return " ++ value.renderAt depth
  | call name args => name ++ "(" ++ ", ".intercalate (renderEach depth args) ++ ")"
  | array elements => "[" ++ ", ".intercalate (renderEach depth elements) ++ "]"
  | lookup name index => name ++ "[" ++ index.renderAt depth ++ "]"
  | store name index value =>
    "(" ++ name ++ "[" ++ index.renderAt depth ++ "] = " ++ value.renderAt depth ++ ")"

/-- Statements at nesting level `depth`, each on a new line. -/
def renderLines (depth : Nat) : List Term → String
  | [] => ""
  | statement :: rest => newLine depth ++ statement.renderAt depth ++ renderLines depth rest

/-- The texts of several terms. -/
def renderEach (depth : Nat) : List Term → List String
  | [] => []
  | term :: rest => term.renderAt depth :: renderEach depth rest

end

/-- The text of a term that stands by itself. -/
def render (term : Term) : String := term.renderAt 0

end Term
end Abacus
