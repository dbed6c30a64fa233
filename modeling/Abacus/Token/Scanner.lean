import Abacus.Error

/-!
# `Token.Scanner` — from characters to tokens

The scanner passes blanks and takes the longest lexeme at the front of what is left. A lexeme is a token,
a character that begins none, or digits with a decimal point and no digit behind it. The last two are
failures; the scanner goes on behind them.

## Contents
- `Lexeme.first` — the lexeme at the front of a text;
- `Scanner.next` — one result and the scanner behind it;
- `Scanner.tokens`, `lex` — all tokens, or the first failure.
-/

namespace Abacus

/-! ## Characters -/

/-- Tells whether `c` separates tokens. -/
def isBlank (c : Char) : Bool :=
  c = ' ' || c = '\t' || c = '\n' || c = '\r' || c = '\x0b' || c = '\x0c'

/-- Tells whether `c` can begin a name. -/
def isNameStart (c : Char) : Bool := c.isAlpha || c = '_'

/-- Tells whether `c` can continue a name. -/
def isNameRest (c : Char) : Bool := c.isAlphanum || c = '_'

/-! ## Lexemes -/

/-- What can stand at the front of a text. -/
inductive Lexeme where
  /-- A token of the given kind. -/
  | token (kind : Token.Kind) (text : List Char)
  /-- A character that begins no token. -/
  | refused (c : Char)
  /-- Digits and a decimal point, without a digit behind it. -/
  | dangling (text : List Char)
deriving DecidableEq, Repr

namespace Lexeme

/-- The characters a lexeme covers. -/
def chars : Lexeme → List Char
  | token _ text => text
  | refused c => [c]
  | dangling text => text

/-- The kind of the word `text`. -/
def wordKind (text : List Char) : Token.Kind :=
  if text = ['t', 'r', 'u', 'e'] || text = ['f', 'a', 'l', 's', 'e'] then .boolean else .identifier

/-- The word that begins with `c`. -/
def word (c : Char) (cs : List Char) : Lexeme :=
  let text := c :: cs.takeWhile isNameRest
  token (wordKind text) text

/-- The number that begins with the digit `c`. -/
def number (c : Char) (cs : List Char) : Lexeme :=
  let whole := c :: cs.takeWhile Char.isDigit
  match cs.dropWhile Char.isDigit with
  | '.' :: rest =>
    match rest.takeWhile Char.isDigit with
    | [] => dangling (whole ++ ['.'])
    | fraction => token .number (whole ++ '.' :: fraction)
  | _ => token .number whole

/-- The kind of a token written with the one character `c`. -/
def singleKind? (c : Char) : Option Token.Kind :=
  if c = '(' then some .leftParen
  else if c = ')' then some .rightParen
  else if c = '[' then some .leftBracket
  else if c = ']' then some .rightBracket
  else if c = ',' then some .comma
  else if c = ';' then some .semicolon
  else if c = '=' then some .assignment
  else if ['+', '-', '*', '/', '%', '<', '>', '&', '^', '|', '\x7b', '\x7d'].contains c then
    some .operator
  else none

/-- Tells whether `c` and an equals sign form one operator. -/
def joinsEquals (c : Char) : Bool := c = '<' || c = '>' || c = '=' || c = '!'

/-- The symbol that begins with `c`. -/
def symbol (c : Char) (cs : List Char) : Lexeme :=
  if joinsEquals c && cs.head? = some '=' then token .operator [c, '=']
  else match singleKind? c with
    | some kind => token kind [c]
    | none => refused c

/-- The lexeme at the front of the text `c :: cs`. -/
def first (c : Char) (cs : List Char) : Lexeme :=
  if c.isDigit then number c cs
  else if isNameStart c then word c cs
  else symbol c cs

/-- What a lexeme at `pos` gives: its token, or the failure. A number that breaks off fails behind its
decimal point, where a digit is missing. -/
def result (pos : Position) : Lexeme → Except SyntaxError Token
  | token kind text => .ok ⟨kind, .ofList text, pos⟩
  | refused _ => .error ⟨pos⟩
  | dangling text => .error ⟨pos.advance text⟩

/-- A lexeme covers at least one character. -/
theorem chars_first_ne_nil (c : Char) (cs : List Char) : (first c cs).chars ≠ [] := by
  unfold first number word symbol
  split
  · split
    · split <;> simp [chars]
    · simp [chars]
  · split
    · simp [chars]
    · split
      · simp [chars]
      · split <;> simp [chars]

end Lexeme

/-! ## The scanner -/

/-- The text that is left, and where it starts. -/
structure Scanner where
  pos : Position
  rest : List Char
deriving DecidableEq, Repr

namespace Scanner

/-- The scanner in front of `source`. -/
def ofString (source : String) : Scanner := ⟨.start, source.toList⟩

/-- The scanner behind the leading blanks. -/
def skipBlanks (scanner : Scanner) : Scanner :=
  ⟨scanner.pos.advance (scanner.rest.takeWhile isBlank), scanner.rest.dropWhile isBlank⟩

/-- The scanner behind the characters of `lexeme`, which stand at its front. -/
def pass (scanner : Scanner) (lexeme : Lexeme) : Scanner :=
  ⟨scanner.pos.advance lexeme.chars, scanner.rest.drop lexeme.chars.length⟩

/-- The next token or failure, and the scanner behind it. At the end of the text the token `END` comes
again and again. -/
def next (scanner : Scanner) : Except SyntaxError Token × Scanner :=
  let scanner := scanner.skipBlanks
  match scanner.rest with
  | [] => (.ok (.finish scanner.pos), scanner)
  | c :: cs =>
    let lexeme := Lexeme.first c cs
    (lexeme.result scanner.pos, scanner.pass lexeme)

theorem length_skipBlanks_le (scanner : Scanner) :
    scanner.skipBlanks.rest.length ≤ scanner.rest.length :=
  (List.dropWhile_suffix _).length_le

/-- Unless the text has ended, the scanner moves on. -/
theorem length_next_lt {scanner : Scanner} (h : scanner.skipBlanks.rest ≠ []) :
    scanner.next.2.rest.length < scanner.rest.length := by
  have hle := scanner.length_skipBlanks_le
  cases hr : scanner.skipBlanks.rest with
  | nil => exact absurd hr h
  | cons c cs =>
      have hpos := List.length_pos_iff.mpr (Lexeme.chars_first_ne_nil c cs)
      rw [hr, List.length_cons] at hle
      simp only [next, hr, pass, List.length_drop, List.length_cons]
      omega

/-- All tokens up to the end of the text, or the first failure. -/
def tokens (scanner : Scanner) : Except SyntaxError (List Token) :=
  if _ended : scanner.skipBlanks.rest = [] then .ok [.finish scanner.skipBlanks.pos]
  else
    match scanner.next.1 with
    | .error error => .error error
    | .ok token => scanner.next.2.tokens.map (token :: ·)
termination_by scanner.rest.length
decreasing_by exact length_next_lt _ended

end Scanner

/-- The tokens of `source`, ended by `END`, or the first failure. -/
def lex (source : String) : Except SyntaxError (List Token) := (Scanner.ofString source).tokens

end Abacus
