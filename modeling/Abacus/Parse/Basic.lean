import Abacus.Error
import Abacus.Term

/-!
# `Parse.Basic` — reading tokens one at a time

A `Parse` action looks at the current token, passes it or leaves it, and gives a value or the failure at the
token where it stopped. What it did up to a failure stays done: the next action goes on from there.

Besides the tokens the state holds the names known to be functions, which decide how a bare name is read,
and the definitions read so far that nobody has taken yet.

## Contents
- `State`, `Parse` — the state and the actions;
- `look`, `advance`, `accept`, `expect`, `unexpected` — the current token;
- `recurse` — recursion, bounded by the tokens still to be read;
- `commaList` — lists.
-/

namespace Abacus

/-- Where reading stands. The last token is kept apart: it ends the program and is never passed, so there
always is a current token. -/
structure Parse.State where
  /-- The tokens still to be read, up to the last one. -/
  tokens : List Token
  /-- The last token. -/
  last : Token
  /-- Names known to be functions. -/
  known : List String
  /-- Definitions that wait to be registered, the oldest first. -/
  queued : List Definition
  /-- Whether the parentheses have been checked. -/
  scanned : Bool
  /-- The last token ends the program. -/
  ends : last.kind = .finish

/-- An action on the tokens that gives an `α` or a failure. -/
def Parse (α : Type) : Type := Parse.State → Except Unexpected α × Parse.State

namespace Parse

variable {α β : Type}

/-! ## Sequencing -/

/-- Gives `a` and reads nothing. -/
protected def pure (a : α) : Parse α := fun s => (.ok a, s)

/-- Does `p` and then what `f` makes of its value; a failure of `p` ends both. -/
protected def bind (p : Parse α) (f : α → Parse β) : Parse β := fun s =>
  match p s with
  | (.ok a, t) => f a t
  | (.error e, t) => (.error e, t)

instance : Monad Parse where
  pure := Parse.pure
  bind := Parse.bind

/-! ## States -/

/-- The token to be read next. -/
def State.current (s : State) : Token := s.tokens.headD s.last

/-- The state behind the current token. -/
def State.next (s : State) : State := { s with tokens := s.tokens.tail }

/-- The state in front of `tokens`, where the names in `known` are functions. Tokens that do not end the
program are followed by `END`, right behind the last of them. -/
def State.ofTokens (tokens : List Token) (known : List String) : State :=
  match tokens.getLast? with
  | none =>
    { tokens := [], last := .finish .start, known, queued := [], scanned := false, ends := rfl }
  | some last =>
    if ends : last.kind = .finish then
      { tokens := tokens.dropLast, last, known, queued := [], scanned := false, ends }
    else
      { tokens, last := .finish last.after, known, queued := [], scanned := false, ends := rfl }

/-! ## The current token -/

/-- The current token. -/
def look : Parse Token := fun s => (.ok s.current, s)

/-- Fails at the current token. -/
def unexpected : Parse α := fun s => (.error (.ofToken s.current), s)

/-- Passes the current token. -/
def advance : Parse Unit := fun s => (.ok (), s.next)

/-- Passes the current token if it passes the test, and tells whether it did. -/
def accept (test : Token → Bool) : Parse Bool := do
  if test (← look) then
    advance
    return true
  else
    return false

/-- Passes the current token, which has to pass the test. -/
def expect (test : Token → Bool) : Parse Token := do
  let token ← look
  if test token then
    advance
    return token
  else
    unexpected

/-- Passes a name and gives its text. -/
def name : Parse String := do
  let token ← expect Token.isName
  return token.text

/-! ## Functions -/

/-- Tells whether `name` is known to be a function. -/
def isKnown (name : String) : Parse Bool := fun s => (.ok (s.known.contains name), s)

/-- Makes `name` known as a function. -/
def learn (name : String) : Parse Unit := fun s => (.ok (), { s with known := name :: s.known })

/-- Puts a definition at the end of the queue. -/
def enqueue (definition : Definition) : Parse Unit := fun s =>
  (.ok (), { s with queued := s.queued ++ [definition] })

/-- Hands over the queued definitions. -/
def takeDefinitions : Parse (List Definition) := fun s => (.ok s.queued, { s with queued := [] })

/-! ## Recursion -/

/-- Rounds of `step` inside each other, one more than `bound` has tokens; a further round fails at the
token it starts from. -/
def recurseWithin (step : (α → Parse β) → α → Parse β) : List Token → α → Parse β
  | [], a => step (fun _ => unexpected) a
  | _ :: bound, a => step (recurseWithin step bound) a

/-- The action that `step` describes in terms of itself.

A round that passes a token before it goes into the next one leaves fewer tokens each time, so the tokens
still to be read are a bound that is never used up. -/
def recurse (step : (α → Parse β) → α → Parse β) (a : α) : Parse β := fun s =>
  recurseWithin step s.tokens a s

/-! ## Lists -/

/-- An item and, behind a comma, `more` of them. -/
def itemsStep (closing : Token.Kind) (item : Parse α) (more : Unit → Parse (List α)) (_ : Unit) :
    Parse (List α) := do
  let head ← item
  if ← accept (Token.is .comma) then
    let tail ← more ()
    return head :: tail
  else
    let _ ← expect (Token.is closing)
    return [head]

/-- Items with commas between them, up to and including a token of kind `closing`; at least one item. -/
def items (closing : Token.Kind) (item : Parse α) : Parse (List α) :=
  recurse (itemsStep closing item) ()

/-- A possibly empty list of items with commas between them, up to and including a token of kind
`closing`. -/
def commaList (closing : Token.Kind) (item : Parse α) : Parse (List α) := do
  if ← accept (Token.is closing) then
    return []
  else
    items closing item

end Parse
end Abacus
