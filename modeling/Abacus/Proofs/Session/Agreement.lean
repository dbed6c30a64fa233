import Abacus.Proofs.Session.Running
import Abacus.Proofs.Token.Scanning

/-!
# `Session.Agreement` — which names are functions

Two tables say which names are functions: the parser's, which decides how a bare name is read, and that of the
program, which decides what a call does. They are kept apart. The parser learns a name in the middle of a
definition and does not forget it when the definition fails; the program learns it when the statement is complete,
or when a definition is evaluated that nobody registered.

All the same they agree **in front of every round** of the loop that reads and evaluates statements (`AtRound`).
A round that goes on has read a whole statement, so what the parser has learnt is what is registered; and since
every definition inside a registered body is registered, evaluation adds no name to that.

## Contents
- `AtRound` — the parser and the program in front of a round;
- `AtRound.agree` — the invariant;
- `AtRound.runFrom_eq`, `traceWithin_atRound` — the rounds are those of the loop.
-/

namespace Abacus
namespace Session

open Parse (State nextStatement)

/-- The parser and the program in front of a round of the loop that runs `tokens` from `env`: at the start, and
behind every statement that was evaluated without a failure. -/
inductive AtRound (tokens : List Token) (env : Env) : State → Env → Prop where
  | first : AtRound tokens env (.ofTokens tokens env.functions.names) env
  | next {s u : State} {before after : Env} {st : Statement} {fuel : Nat} {value : Float} :
      AtRound tokens env s before → nextStatement s = (.ok (some st), u) →
      eval fuel st.term (before.registerAll st.definitions) = some (.ok value, after) →
      AtRound tokens env u after

section Rounds

variable {tokens : List Token} {env before : Env} {s : State}

/-- The invariant of the loop. -/
theorem AtRound.agree (hclosed : env.Closed) (hidle : env.active = none)
    (h : AtRound tokens env s before) : Agree s before := by
  induction h with
  | first => exact agree_ofTokens tokens hclosed hidle
  | next _ hst heval ih => exact performed_agree ih hst heval

/-! ## The rounds of a run -/

/-- Given the fuel to get there, a run goes on from each of its rounds. -/
theorem AtRound.runFrom_eq (h : AtRound tokens env s before) :
    ∃ enough last, ∀ fuel, enough ≤ fuel →
      runFrom fuel (.ofTokens tokens env.functions.names) env 0 = runFrom fuel s before last := by
  induction h with
  | first => exact ⟨0, 0, fun _ _ => rfl⟩
  | @next s u before after st n value _ hst heval ih =>
      obtain ⟨enough, last, hrun⟩ := ih
      refine ⟨max enough n, value, fun fuel hfuel => ?_⟩
      rw [hrun fuel (by omega), runFrom_of_value hst (Eval.eval_mono (by omega : n ≤ fuel) heval)]

/-- Every statement of a run is read and evaluated in one of its rounds. -/
theorem traceWithin_atRound {fuel n : Nat} {trace : Trace} (h : AtRound tokens env s before)
    (htrace : traceWithin fuel n s before = some trace) :
    ∀ report ∈ trace.reports, ∃ s u before, AtRound tokens env s before ∧
      nextStatement s = (.ok (some report.statement), u) ∧
      eval fuel report.statement.term (before.registerAll report.statement.definitions) =
        some (report.outcome, report.after) := by
  induction n generalizing s before trace with
  | zero =>
      cases htrace
      intro report hmem
      cases hmem
  | succ n ih =>
      rcases traceWithin_cases htrace with ⟨hreports, -⟩ | ⟨report, u, hst, heval, hmore⟩
      · rw [hreports]
        intro report hmem
        cases hmem
      · have hround : ∃ s u before, AtRound tokens env s before ∧
            nextStatement s = (.ok (some report.statement), u) ∧
            eval fuel report.statement.term (before.registerAll report.statement.definitions) =
              some (report.outcome, report.after) := ⟨s, u, before, h, hst, heval⟩
        rcases hmore with ⟨hreports, -⟩ | ⟨rest, value, hvalue, hrest, hreports, -⟩
        · rw [hreports]
          intro other hother
          rw [List.mem_singleton.mp hother]
          exact hround
        · rw [hreports]
          rw [hvalue] at heval
          intro other hother
          rcases List.mem_cons.mp hother with rfl | hmem
          · exact hround
          · exact ih (.next h hst heval) hrest other hmem

end Rounds

/-! ## Agreement -/

/-- **The parser and the program always agree on what is a function.** In a reachable state every definition inside
a registered body is registered. Running a text from there goes through rounds: the run goes on from each of them,
and whatever is evaluated is evaluated in one. In front of each round the parser knows exactly the names that are
registered, and the definitions inside registered bodies are registered; evaluating the statement of the round,
whether it fails or not, leaves the names as they are once its definitions have been registered. -/
theorem known_iff_registered {env : Env} (henv : Reachable env) :
    env.Closed ∧ ∀ source tokens, lex source = .ok tokens →
      (∀ fuel trace, Session.trace fuel tokens env = some trace → ∀ report ∈ trace.reports,
        ∃ s u before, AtRound tokens env s before ∧ nextStatement s = (.ok (some report.statement), u) ∧
          eval fuel report.statement.term (before.registerAll report.statement.definitions) =
            some (report.outcome, report.after)) ∧
      ∀ s before, AtRound tokens env s before →
        (∃ enough last, ∀ fuel, enough ≤ fuel → run fuel source env = runFrom fuel s before last) ∧
        (∀ name, name ∈ s.known ↔ name ∈ before.functions.names) ∧ before.Closed ∧
        ∀ st u fuel r after, nextStatement s = (.ok (some st), u) →
          eval fuel st.term (before.registerAll st.definitions) = some (r, after) →
          ∀ name, name ∈ after.functions.names ↔ name ∈ (before.registerAll st.definitions).functions.names := by
  obtain ⟨hclosed, hidle⟩ := henv.settled
  refine ⟨hclosed, fun source tokens hlex => ⟨fun fuel trace htrace => ?_, fun s before hround => ?_⟩⟩
  · exact traceWithin_atRound .first htrace
  have hagree := hround.agree hclosed hidle
  refine ⟨?_, fun name => ?_, hagree.closed, fun st u fuel r after hst heval name => ?_⟩
  · simp only [run_eq_runFrom hlex]
    exact hround.runFrom_eq
  · rw [Table.mem_names, ← hagree.known, List.contains_iff_mem]
  · rw [Table.mem_names, Table.mem_names, (performed_sameFunctions hagree hst heval).contains_eq]

/-- Behind a run that failed, `f` and the function inside it are registered. The parser of the next text knows them,
and behind the first statement of that text it knows `h`, too. -/
theorem known_iff_registered_behind_failure :
    let body : Term := .braced (.block [.boolean true])
    let outer : Term := .braced (.block [.define "g" [] body])
    let env := (Env.empty.register ⟨"g", [], body⟩).register ⟨"f", [], outer⟩
    let after := env.register ⟨"h", [], body⟩
    Runs "def f()\x7bdef g()\x7btrue\x7d\x7d x" .empty (.error (.runtime (.unknownIdentifier "x"))) env ∧
      ∃ tokens s, lex "def h()\x7btrue\x7d h;" = .ok tokens ∧ AtRound tokens env s after ∧
        (∀ name, name ∈ s.known ↔ name ∈ ["g", "f", "h"]) := by
  intro body outer env after
  let before : List Token := [⟨.identifier, "def", ⟨1, 1⟩⟩, ⟨.identifier, "f", ⟨1, 5⟩⟩, ⟨.leftParen, "(", ⟨1, 6⟩⟩,
    ⟨.rightParen, ")", ⟨1, 7⟩⟩, ⟨.operator, "\x7b", ⟨1, 8⟩⟩, ⟨.identifier, "def", ⟨1, 9⟩⟩,
    ⟨.identifier, "g", ⟨1, 13⟩⟩, ⟨.leftParen, "(", ⟨1, 14⟩⟩, ⟨.rightParen, ")", ⟨1, 15⟩⟩,
    ⟨.operator, "\x7b", ⟨1, 16⟩⟩, ⟨.boolean, "true", ⟨1, 17⟩⟩, ⟨.operator, "\x7d", ⟨1, 21⟩⟩,
    ⟨.operator, "\x7d", ⟨1, 22⟩⟩, ⟨.identifier, "x", ⟨1, 24⟩⟩, .finish ⟨1, 25⟩]
  let definitions : List Definition := [⟨"g", [], body⟩, ⟨"f", [], outer⟩]
  have hbefore : lex "def f()\x7bdef g()\x7btrue\x7d\x7d x" = .ok before := by
    rw [lex_eq_tokensWithin]
    subst before
    rfl
  have hfirst : nextStatement (.ofTokens before Env.empty.functions.names) =
      (.ok (some ⟨.define "f" [] outer, definitions⟩),
        ⟨[⟨.identifier, "x", ⟨1, 24⟩⟩], .finish ⟨1, 25⟩, ["g", "f"], [], true, rfl⟩) := by
    subst before definitions outer body
    rfl
  have hdefined : eval 1 (.define "f" [] outer) (Env.empty.registerAll definitions) = some (.ok 0, env) := rfl
  have hrun : Runs "def f()\x7bdef g()\x7btrue\x7d\x7d x" .empty (.error (.runtime (.unknownIdentifier "x"))) env := by
    refine ⟨1, ?_⟩
    rw [run_eq_runFrom hbefore, runFrom_of_value hfirst hdefined]
    rfl
  have hreachable : Reachable env := .run (.fresh _) hrun
  let tokens : List Token := [⟨.identifier, "def", ⟨1, 1⟩⟩, ⟨.identifier, "h", ⟨1, 5⟩⟩,
    ⟨.leftParen, "(", ⟨1, 6⟩⟩, ⟨.rightParen, ")", ⟨1, 7⟩⟩, ⟨.operator, "\x7b", ⟨1, 8⟩⟩,
    ⟨.boolean, "true", ⟨1, 9⟩⟩, ⟨.operator, "\x7d", ⟨1, 13⟩⟩, ⟨.identifier, "h", ⟨1, 15⟩⟩,
    ⟨.semicolon, ";", ⟨1, 16⟩⟩, .finish ⟨1, 17⟩]
  have hlex : lex "def h()\x7btrue\x7d h;"  = .ok tokens := by
    rw [lex_eq_tokensWithin]
    subst tokens
    rfl
  let s : State := ⟨[⟨.identifier, "h", ⟨1, 15⟩⟩, ⟨.semicolon, ";", ⟨1, 16⟩⟩], .finish ⟨1, 17⟩,
    ["h", "g", "f"], [], true, rfl⟩
  have hst : nextStatement (.ofTokens tokens env.functions.names) =
      (.ok (some ⟨.define "h" [] body, [⟨"h", [], body⟩]⟩), s) := by
    subst tokens s env body
    rfl
  have heval : eval 1 (.define "h" [] body) (env.registerAll [⟨"h", [], body⟩]) = some (.ok 0, after) := rfl
  have hround : AtRound tokens env s after := .next .first hst heval
  exact ⟨hrun, tokens, s, hlex, hround, (((known_iff_registered hreachable).2 _ _ hlex).2 s after hround).2.1⟩

end Session
end Abacus
