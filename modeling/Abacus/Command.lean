import Abacus.Session
import Abacus.Text.Lines
import Abacus.Text.WhiteSpace

/-!
# `Command` — what the command line answers

A script is run, calculated line by line, shown as its statements, or shown as its tokens. The answer is the
text for standard output and the exit code; a failure adds its message to the text and gives the code.

## Contents
- `Mode`, `Response` — the question and the answer;
- `runScript`, `calcScript`, `parseScript`, `lexScript` — one function a mode;
- `respond`, `respondToBytes` — all modes, for a text and for bytes.
-/

namespace Abacus
namespace Command

/-- What to do with a script. -/
inductive Mode where
  /-- Run it; only `print` gives output. -/
  | run
  /-- Run each line by itself and show every statement with its value. -/
  | calc
  /-- Show every statement as text. -/
  | parse
  /-- Show every token with its position. -/
  | lex
deriving DecidableEq, Repr, Inhabited

/-- The outcome of a command. -/
structure Response where
  /-- The text on standard output. -/
  output : String
  exitCode : Nat
deriving DecidableEq, Repr, Inhabited

namespace Response

/-- Lines of output and the failure that ended them, if one did. -/
def ofLines (lines : List String) (failure : Option Error) : Response :=
  match failure with
  | none => ⟨linesText lines, 0⟩
  | some error => ⟨linesText (lines ++ [error.message]), error.exitCode⟩

/-- The response to a script that cannot be read. -/
def unreadable : Response := ⟨"", 1⟩

end Response

/-! ## Running -/

/-- Runs a script on a fresh state. -/
def runScript (fuel : Nat) (script : String) : Option Response :=
  (Session.run fuel script .empty).map fun (result, env) =>
    .ofLines env.sink.lines.toList (match result with
      | .ok _ => none
      | .error error => some error)

/-! ## Calculating -/

/-- How the value of a statement is shown: an assignment of an array shows its elements. -/
def resultText (env : Env) (term : Term) (value : Float) : String :=
  match term with
  | .assign name _ =>
    match env.wholeArray? name with
    | some elements => elements.text
    | none => Eval.valueText term value
  | _ => Eval.valueText term value

/-- The lines shown for a statement: its text, what it printed, and its value or failure. -/
def reportLines (report : Report) : List String :=
  let last := match report.outcome with
    | .ok value => resultText report.after report.statement.term value
    | .error error => error.message
  report.statement.term.render :: report.printed ++ [last]

/-- The lines shown for a trace. -/
def traceLines (trace : Trace) : List String :=
  trace.reports.flatMap reportLines ++ (trace.stop.map Unexpected.message).toList

/-- Calculates one line: what is shown, and the state behind it. -/
def calcLine (fuel : Nat) (line : String) (env : Env) : Option (List String × Env) :=
  match lex line with
  | .error error => some ([error.message], env)
  | .ok tokens => (Session.trace fuel tokens env).map fun trace => (traceLines trace, trace.final)

/-- Calculates lines in order, on one state. A failure only ends its line. -/
def calcLines (fuel : Nat) : List String → Env → Option (List String × Env)
  | [], env => some ([], env)
  | line :: rest, env => do
    let (shown, env) ← calcLine fuel line env
    let (others, env) ← calcLines fuel rest env
    return (shown ++ others, env)

/-- Calculates the lines of a script that are not blank, on a fresh state. -/
def calcScript (fuel : Nat) (script : String) : Option Response :=
  (calcLines fuel ((linesOf script).filter (!isBlankText ·)) .empty).map fun (lines, _) =>
    .ofLines lines none

/-! ## Showing -/

/-- Shows the statements of a script. -/
def parseScript (script : String) : Response :=
  match Abacus.lex script with
  | .error error => .ofLines [] (some (.refused error))
  | .ok tokens =>
    let script := Script.read (.ofTokens tokens [])
    .ofLines (script.statements.map (·.term.render)) (script.stop.map .unexpected)

/-- A token with its position in columns. -/
def tokenLine (token : Token) : String :=
  padLeft 4 (Number.decimal token.pos.line) ++ padLeft 5 (Number.decimal token.pos.column) ++
    "  " ++ token.text

/-- Shows the tokens of a script. -/
def lexScript (script : String) : Response :=
  match Abacus.lex script with
  | .error error => .ofLines [] (some (.refused error))
  | .ok tokens => .ofLines (tokens.map tokenLine) none

/-! ## All modes -/

/-- The response to a script, unless it does not end within the fuel. -/
def respond (fuel : Nat) (mode : Mode) (script : String) : Option Response :=
  match mode with
  | .run => runScript fuel script
  | .calc => calcScript fuel script
  | .parse => some (parseScript script)
  | .lex => some (lexScript script)

/-- The response to a script that is given as bytes; it has to be UTF-8. -/
def respondToBytes (fuel : Nat) (mode : Mode) (bytes : ByteArray) : Option Response :=
  match String.fromUTF8? bytes with
  | some script => respond fuel mode script
  | none => some .unreadable

end Command
end Abacus
