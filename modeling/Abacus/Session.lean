import Abacus.Eval.Term
import Abacus.Parse.Program
import Abacus.Token.Scanner

/-!
# `Session` — running source text

A session runs one text after another on the same state. Statements are read and evaluated in turns: the
definitions inside a statement are registered once it has been read, then it is evaluated, and only then
the next one is read. The first failure ends the text; what was done before it stays.

## Contents
- `Report`, `Trace` — what happened, statement by statement;
- `trace` — reads and evaluates tokens;
- `run` — runs a source text for its value.
-/

namespace Abacus

/-! ## Reports -/

/-- What happened to one statement. -/
structure Report where
  statement : Statement
  /-- Its value or its failure. -/
  outcome : Except RuntimeError Float
  /-- The lines it printed. -/
  printed : List String
  /-- The state behind it. -/
  after : Env

/-- What happened to a list of tokens. -/
structure Trace where
  /-- The statements that were evaluated. -/
  reports : List Report
  /-- The token that could not be read, if one ended the run. -/
  stop : Option Unexpected
  /-- The state at the end. -/
  final : Env

namespace Trace

/-- The trace with a report in front. -/
def cons (report : Report) (trace : Trace) : Trace :=
  { trace with reports := report :: trace.reports }

/-- The value of the last statement, `0` if there is none, or the failure that ended the run. -/
def result (trace : Trace) : Except Error Float :=
  match (trace.reports.getLast?).map Report.outcome, trace.stop with
  | some (.error error), _ => .error (.runtime error)
  | _, some error => .error (.unexpected error)
  | some (.ok value), none => .ok value
  | none, none => .ok 0

end Trace

/-! ## Running -/

/-- The lines printed between two states of a run. -/
def printedSince (before after : Env) : List String :=
  after.sink.lines.toList.drop before.sink.lines.size

namespace Session

/-- Registers the definitions of a statement and evaluates it. -/
def perform (fuel : Nat) (statement : Statement) (env : Env) : Option Report :=
  (eval fuel statement.term (env.registerAll statement.definitions)).map fun (outcome, after) =>
    { statement, outcome, printed := printedSince env after, after }

/-- Reads and evaluates at most `n` statements. -/
def traceWithin (fuel : Nat) : Nat → Parse.State → Env → Option Trace
  | 0, _, env => some ⟨[], none, env⟩
  | n + 1, s, env =>
    match Parse.nextStatement s with
    | (.error error, _) => some ⟨[], some error, env⟩
    | (.ok none, _) => some ⟨[], none, env⟩
    | (.ok (some statement), s) => do
      let report ← perform fuel statement env
      match report.outcome with
      -- A failure ends the run before the next statement is read.
      | .error _ => some ⟨[report], none, report.after⟩
      | .ok _ => return (← traceWithin fuel n s report.after).cons report

/-- Reads and evaluates everything that is left. -/
def traceFrom (fuel : Nat) (s : Parse.State) (env : Env) : Option Trace :=
  traceWithin fuel (s.tokens.length + 1) s env

/-- Reads and evaluates tokens. The registered functions are known from the start. -/
def trace (fuel : Nat) (tokens : List Token) (env : Env) : Option Trace :=
  traceFrom fuel (.ofTokens tokens env.functions.names) env

/-- Runs a source text: the value of its last statement or the failure that ended it, and the state
behind it. A text with a lexical failure does not begin to run. -/
def run (fuel : Nat) (source : String) (env : Env) : Option (Except Error Float × Env) :=
  match lex source with
  | .error error => some (.error (.refused error), env)
  | .ok tokens => (trace fuel tokens env).map fun trace => (trace.result, trace.final)

end Session
end Abacus
