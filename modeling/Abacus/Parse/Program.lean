import Abacus.Parse.Statement

/-!
# `Parse.Program` — reading whole programs

Statements come one at a time until `END` is reached. Before the first one all tokens are searched for a
closing parenthesis that closes nothing, so that such a program fails before any of it runs.

## Contents
- `next`, `all` — the next statement, and all that are left;
- `Statement`, `nextStatement` — a statement with the definitions inside it;
- `Script` — everything reading finds in a list of tokens.
-/

namespace Abacus

/-! ## Parentheses -/

/-- The first closing parenthesis that closes nothing, where `depth` are open. -/
def strayParen? : Nat → List Token → Option Token
  | _, [] => none
  | depth, token :: rest =>
    match token.kind, depth with
    | .leftParen, _ => strayParen? (depth + 1) rest
    | .rightParen, 0 => some token
    | .rightParen, depth + 1 => strayParen? depth rest
    | _, _ => strayParen? depth rest

namespace Parse

/-- Fails at the first closing parenthesis that closes nothing. Only the first call looks. -/
def checkParens : Parse Unit := fun s =>
  if s.scanned then (.ok (), s)
  else
    let checked := { s with scanned := true }
    match strayParen? 0 s.tokens with
    | some token => (.error (.ofToken token), checked)
    | none => (.ok (), checked)

/-! ## Statements -/

/-- The next statement, or `none` at the end. -/
def next : Parse (Option Term) := do
  checkParens
  if (← look).is .finish then
    return none
  else
    return some (← statement)

/-- A statement, if there is one, and then `more` of them. -/
def allStep (more : Unit → Parse (List Term)) (_ : Unit) : Parse (List Term) := do
  match ← next with
  | none => return []
  | some head =>
    let tail ← more ()
    return head :: tail

/-- All statements that are left. -/
def all : Parse (List Term) := recurse allStep ()

end Parse

/-- A statement and the definitions read with it, inner ones first. -/
structure Statement where
  term : Term
  definitions : List Definition
deriving Inhabited

/-- The next statement with its definitions, or `none` at the end. -/
def Parse.nextStatement : Parse (Option Statement) := do
  match ← next with
  | none => return none
  | some term => return some { term, definitions := ← takeDefinitions }

/-! ## Scripts -/

/-- What reading finds: complete statements, and the token that stopped it if one did. -/
structure Script where
  statements : List Statement
  stop : Option Unexpected
deriving Inhabited

namespace Script

/-- Reads at most `n` statements. -/
def readWithin : Nat → Parse.State → Script
  | 0, _ => ⟨[], none⟩
  | n + 1, s =>
    match Parse.nextStatement s with
    | (.error error, _) => ⟨[], some error⟩
    | (.ok none, _) => ⟨[], none⟩
    | (.ok (some statement), s) =>
      let rest := readWithin n s
      ⟨statement :: rest.statements, rest.stop⟩

/-- Reads everything that is left. Each statement has at least one token, so there are no more statements
than tokens. -/
def read (s : Parse.State) : Script := readWithin (s.tokens.length + 1) s

end Script
end Abacus
