import Abacus.Position

/-!
# `Token` — the words of a source text

A token has a kind, the text it was read from and the position of its first character. The token that ends
every token list has the text `END`.
-/

namespace Abacus

/-- The lexical class of a token. The braces are operators, and the keywords are identifiers. -/
inductive Token.Kind where
  | leftParen | rightParen
  | leftBracket | rightBracket
  | operator
  | number
  | identifier
  | assignment
  | boolean
  | comma
  | semicolon
  | finish
deriving DecidableEq, Repr, Inhabited

/-- A word of a source text. -/
structure Token where
  kind : Token.Kind
  text : String
  pos : Position
deriving DecidableEq, Repr, Inhabited

namespace Token

/-- The token that ends a token list. -/
def finish (pos : Position) : Token := ⟨.finish, "END", pos⟩

/-- Tells whether the token is of the given kind. -/
def is (kind : Kind) (token : Token) : Bool := token.kind = kind

/-- Tells whether the token is the operator written as `symbol`. -/
def isOperator (symbol : String) (token : Token) : Bool :=
  token.kind = .operator && token.text = symbol

/-- Tells whether the token is the identifier `word`. -/
def isWord (word : String) (token : Token) : Bool :=
  token.kind = .identifier && token.text = word

/-- The place behind the last character of a token, on its line. -/
def after (token : Token) : Position :=
  ⟨token.pos.line, token.pos.column + token.text.length⟩

end Token

/-! ## Names -/

/-- The words with a fixed meaning. -/
def keywords : List String := ["if", "else", "while", "print", "def", "return"]

/-- Tells whether `word` has a fixed meaning, so that it cannot be a name. -/
def isKeyword (word : String) : Bool := keywords.contains word

/-- Tells whether the token can name a variable, an array or a function. -/
def Token.isName (token : Token) : Bool := token.kind = .identifier && !isKeyword token.text

end Abacus
