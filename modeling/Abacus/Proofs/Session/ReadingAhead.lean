import Abacus.Proofs.Grammar.Parentheses
import Abacus.Proofs.Session.Running
import Abacus.Proofs.Token.Scanning

/-!
# `Session.ReadingAhead` — reading first and running then

A run reads a statement only after all statements before it have been evaluated. It could as well read everything
first: reading does not look at the state of the program, and what it knows about functions it found in the tokens. So
a run is **what reading finds, performed**: each complete statement is evaluated behind its definitions, the first
failure ends it, and the token that stopped the reading is reported behind the last of them. A statement that is not
complete leaves no trace.

## Contents
- `Script.read_eq` — reading, statement by statement;
- `performAll`, `Script.run` — performing statements that have been read;
- `runFrom_eq_script` — a run reads ahead;
- `run_of_firstStray` — a stray parenthesis.
-/

namespace Abacus

open Parse (State nextStatement)

/-! ## Reading -/

namespace Script

/-- Any bound above the number of tokens is enough. -/
theorem readWithin_adequate : ∀ (n m : Nat) (s : State), s.tokens.length < n → s.tokens.length < m →
    readWithin n s = readWithin m s := by
  intro n
  induction n with
  | zero => intro m s hn _; exact absurd hn (Nat.not_lt_zero _)
  | succ n ih =>
      intro m s hn hm
      cases m with
      | zero => exact absurd hm (Nat.not_lt_zero _)
      | succ m =>
          unfold readWithin
          split
          · rfl
          · rfl
          · next st u hst =>
            have hlt := length_lt_of_nextStatement hst
            have hmore : readWithin n u = readWithin m u := ih m u (by omega) (by omega)
            simp only [hmore]

/-- **Reading, statement by statement.** -/
theorem read_eq (s : State) :
    read s = match nextStatement s with
      | (.error error, _) => ⟨[], some error⟩
      | (.ok none, _) => ⟨[], none⟩
      | (.ok (some st), u) => ⟨st :: (read u).statements, (read u).stop⟩ := by
  unfold read
  rw [readWithin]
  cases hst : nextStatement s with
  | mk r u =>
      cases r with
      | error e => rfl
      | ok statement? =>
          cases statement? with
          | none => rfl
          | some st =>
              have hlt := length_lt_of_nextStatement hst
              have hbound := readWithin_adequate s.tokens.length (u.tokens.length + 1) u hlt (Nat.lt_succ_self _)
              simp only [hbound]

end Script

/-! ## Performing what was read -/

/-- Evaluates statements in order, each behind its definitions, until one fails; `last` is the value so far. -/
def performAll (fuel : Nat) : List Statement → Env → Float → Option (Except RuntimeError Float × Env)
  | [], env, last => some (.ok last, env)
  | st :: rest, env, _ =>
    match eval fuel st.term (env.registerAll st.definitions) with
    | none => none
    | some (.error error, after) => some (.error error, after)
    | some (.ok value, after) => performAll fuel rest after value

namespace Script

/-- Performs the complete statements. Then the token that stopped the reading is reported, if there is one. -/
def run (fuel : Nat) (script : Script) (env : Env) (last : Float) : Option (Except Error Float × Env) :=
  match performAll fuel script.statements env last with
  | none => none
  | some (.error error, after) => some (.error (.runtime error), after)
  | some (.ok value, after) =>
    match script.stop with
    | some error => some (.error (.unexpected error), after)
    | none => some (.ok value, after)

/-- The token that stopped the reading is reported in the state behind the last complete statement. -/
theorem run_eq_unexpected {fuel : Nat} {script : Script} {env after : Env} {last : Float} {e : Unexpected}
    (h : script.run fuel env last = some (.error (.unexpected e), after)) :
    script.stop = some e ∧ ∃ value, performAll fuel script.statements env last = some (.ok value, after) := by
  unfold run at h
  split at h
  · cases h
  · cases h
  · next value _ hperform =>
    split at h
    · next hstop =>
      cases h
      exact ⟨hstop, value, hperform⟩
    · cases h

end Script

namespace Session

/-- **A run reads ahead.** -/
theorem runFrom_eq_script (fuel : Nat) (s : State) (env : Env) (last : Float) :
    runFrom fuel s env last = (Script.read s).run fuel env last := by
  induction hlen : s.tokens.length using Nat.strongRecOn generalizing s env last with
  | ind length ih =>
      rw [runFrom_eq, Script.read_eq]
      cases hst : nextStatement s with
      | mk r u =>
          cases r with
          | error e => rfl
          | ok statement? =>
              cases statement? with
              | none => rfl
              | some st =>
                  have hlt := length_lt_of_nextStatement hst
                  dsimp only
                  rw [Script.run, performAll]
                  cases eval fuel st.term (env.registerAll st.definitions) with
                  | none => rfl
                  | some x =>
                      obtain ⟨outcome, after⟩ := x
                      cases outcome with
                      | error e => rfl
                      | ok value => exact ih u.tokens.length (by omega) u after value rfl

/-! ## Stray parentheses -/

/-- What ends the program is no parenthesis. -/
theorem strayParen?_ofTokens (tokens : List Token) (known : List String) :
    strayParen? 0 (State.ofTokens tokens known).tokens = strayParen? 0 tokens := by
  unfold State.ofTokens
  split
  · next hlast => rw [List.getLast?_eq_none_iff.mp hlast]
  · next last hlast =>
    split
    · next hfinish =>
      have hnone : ∀ depth, strayParen? depth [last] = none := fun depth =>
        strayParen?_other (by simp [hfinish]) (by simp [hfinish]) depth
      obtain ⟨ts, rfl⟩ := List.getLast?_eq_some_iff.mp hlast
      rw [List.dropLast_concat, strayParen?_append_eq, hnone, Option.or_none]
    · rfl

/-- A text with a stray parenthesis does not begin to run. -/
theorem run_of_firstStray {source : String} {tokens : List Token} {t : Token} (hlex : lex source = .ok tokens)
    (h : FirstStray tokens t) (fuel : Nat) (env : Env) :
    run fuel source env = some (.error (.unexpected (.ofToken t)), env) := by
  have hscanned : (State.ofTokens tokens env.functions.names).scanned = false := by
    unfold State.ofTokens
    split
    · rfl
    · split <;> rfl
  rw [run_eq_runFrom hlex, runFrom_eq, nextStatement_unchecked hscanned, strayParen?_ofTokens,
    strayParen?_eq_some_iff.mpr h]

/-- **Failures in front of evaluation leave no trace.** A text with a lexical failure, or with a parenthesis anywhere
that closes nothing, fails and leaves the state as it is. Any other one is run as if everything had been read first,
from the functions known at the start: its statements are performed in order, and the first failure, or else the
token that stopped the reading, or else the last value is its result. So a token that stops the reading is reported in
exactly the state behind the last complete statement. -/
theorem run_reads_ahead (fuel : Nat) (source : String) (env : Env) :
    (∀ e, lex source = .error e → run fuel source env = some (.error (.refused e), env)) ∧
    ∀ tokens, lex source = .ok tokens →
      (HasStray tokens →
        ∃ t, FirstStray tokens t ∧ run fuel source env = some (.error (.unexpected (.ofToken t)), env)) ∧
      let script := Script.read (.ofTokens tokens env.functions.names)
      run fuel source env = script.run fuel env 0 ∧
        ∀ e after, run fuel source env = some (.error (.unexpected e), after) →
          script.stop = some e ∧ ∃ value, performAll fuel script.statements env 0 = some (.ok value, after) := by
  constructor
  · intro e hlex
    unfold run
    rw [hlex]
  · intro tokens hlex
    have hscript : run fuel source env = (Script.read (.ofTokens tokens env.functions.names)).run fuel env 0 := by
      rw [run_eq_runFrom hlex]
      exact runFrom_eq_script fuel _ env 0
    refine ⟨fun hstray => ?_, hscript, fun e after h => ?_⟩
    · cases hfound : strayParen? 0 tokens with
      | none => exact absurd hstray (strayParen?_eq_none_iff.mp hfound)
      | some t =>
          have hfirst := strayParen?_eq_some_iff.mp hfound
          exact ⟨t, hfirst, run_of_firstStray hlex hfirst fuel env⟩
    · rw [hscript] at h
      exact Script.run_eq_unexpected h

/-- A character that begins no token and a parenthesis that closes nothing stop everything. A definition that is not
complete is not there, nor is the complete one inside it. -/
theorem run_reads_ahead_incomplete :
    let source := "def f()\x7btrue\x7d def f()\x7bdef g()\x7btrue\x7d+"
    let after := Env.empty.register ⟨"f", [], .braced (.block [.boolean true])⟩
    run 1 "true;@" .empty = some (.error (.refused ⟨⟨1, 6⟩⟩), .empty) ∧
      (∃ e, run 1 "true)" .empty = some (.error e, .empty)) ∧
      run 1 source .empty = some (.error (.unexpected ⟨"+", ⟨1, 36⟩⟩), after) ∧
      ∃ tokens value, lex source = .ok tokens ∧
        performAll 1 (Script.read (.ofTokens tokens [])).statements .empty 0 = some (.ok value, after) := by
  intro source after
  have hrefused : lex "true;@" = .error ⟨⟨1, 6⟩⟩ := (lex_eq_tokensWithin _).trans rfl
  have hstray : HasStray [⟨.boolean, "true", ⟨1, 1⟩⟩, ⟨.rightParen, ")", ⟨1, 5⟩⟩, .finish ⟨1, 6⟩] :=
    ⟨[_], _, [_], rfl, stray_iff.mpr ⟨rfl, rfl⟩⟩
  obtain ⟨t, -, hparen⟩ := ((run_reads_ahead 1 "true)" .empty).2 _ ((lex_eq_tokensWithin _).trans rfl)).1 hstray
  let body : Term := .braced (.block [.boolean true])
  let rest : List Token := [⟨.identifier, "def", ⟨1, 15⟩⟩, ⟨.identifier, "f", ⟨1, 19⟩⟩, ⟨.leftParen, "(", ⟨1, 20⟩⟩,
    ⟨.rightParen, ")", ⟨1, 21⟩⟩, ⟨.operator, "\x7b", ⟨1, 22⟩⟩, ⟨.identifier, "def", ⟨1, 23⟩⟩,
    ⟨.identifier, "g", ⟨1, 27⟩⟩, ⟨.leftParen, "(", ⟨1, 28⟩⟩, ⟨.rightParen, ")", ⟨1, 29⟩⟩,
    ⟨.operator, "\x7b", ⟨1, 30⟩⟩, ⟨.boolean, "true", ⟨1, 31⟩⟩, ⟨.operator, "\x7d", ⟨1, 35⟩⟩,
    ⟨.operator, "+", ⟨1, 36⟩⟩]
  let tokens : List Token := [⟨.identifier, "def", ⟨1, 1⟩⟩, ⟨.identifier, "f", ⟨1, 5⟩⟩, ⟨.leftParen, "(", ⟨1, 6⟩⟩,
    ⟨.rightParen, ")", ⟨1, 7⟩⟩, ⟨.operator, "\x7b", ⟨1, 8⟩⟩, ⟨.boolean, "true", ⟨1, 9⟩⟩,
    ⟨.operator, "\x7d", ⟨1, 13⟩⟩] ++ rest ++ [.finish ⟨1, 37⟩]
  have hlex : lex source = .ok tokens := by
    rw [lex_eq_tokensWithin]
    subst source tokens rest
    rfl
  have hfirst : nextStatement (.ofTokens tokens Env.empty.functions.names) =
      (.ok (some ⟨.define "f" [] body, [⟨"f", [], body⟩]⟩), ⟨rest, .finish ⟨1, 37⟩, ["f"], [], true, rfl⟩) := by
    subst tokens rest body
    rfl
  have hdefined : eval 1 (.define "f" [] body) (Env.empty.registerAll [⟨"f", [], body⟩]) = some (.ok 0, after) := rfl
  have hrun : run 1 source .empty = some (.error (.unexpected ⟨"+", ⟨1, 36⟩⟩), after) := by
    rw [run_eq_runFrom hlex, runFrom_of_value hfirst hdefined]
    rfl
  obtain ⟨-, value, hperform⟩ := ((run_reads_ahead 1 source .empty).2 tokens hlex).2.2 _ _ hrun
  exact ⟨(run_reads_ahead 1 _ .empty).1 _ hrefused, ⟨_, hparen⟩, hrun, tokens, value, hlex, hperform⟩

end Session
end Abacus
