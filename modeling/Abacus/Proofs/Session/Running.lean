import Abacus.Proofs.Eval.Functions
import Abacus.Proofs.Grammar.ProgramReading
import Abacus.Session

/-!
# `Session.Running` — a run, statement by statement

A run reads a statement, registers what it defines, evaluates it, and goes on from there. `runFrom` is a run
from a state of the parser; its equation `runFrom_eq` has no bound on the number of statements, since each one
uses up a token.

The parser and the state of the program agree on what is a function (`Agree`), from one statement to the next:
what a statement makes known is what it defines, that is registered, and evaluation registers nothing else.

## Contents
- `nextStatement_eq_some` — what reading a statement says about it;
- `traceWithin_cases` — a run, one statement at a time;
- `runFrom`, `runFrom_eq` — runs;
- `Agree`, `performed_agree` — the parser and the program know the same functions;
- `Runs`, `Reachable` — runs that end, and the states they lead to.
-/

namespace Abacus

open Parse (State nextStatement checkParens statement)

/-! ## Reading the next statement -/

/-- The next statement, with the definitions that wait in the queue. -/
theorem nextStatement_eq (s : State) :
    nextStatement s = match Parse.next s with
      | (.ok none, u) => (.ok none, u)
      | (.ok (some n), u) => (.ok (some ⟨n, u.queued⟩), { u with queued := [] })
      | (.error e, u) => (.error e, u) := by
  unfold nextStatement
  rw [Parse.bind_apply]
  cases Parse.next s with
  | mk r u =>
      cases r with
      | error e => rfl
      | ok n => cases n <;> rfl

/-- Behind the check, the next statement is read unless the program ends. -/
theorem nextStatement_checked {s : State} (h : s.scanned = true) :
    nextStatement s =
      if s.current.is .finish then (.ok none, s)
      else match statement s with
        | (.ok n, u) => (.ok (some ⟨n, u.queued⟩), { u with queued := [] })
        | (.error e, u) => (.error e, u) := by
  rw [nextStatement_eq, next_checked h]
  by_cases hfinish : s.current.is .finish = true
  · rw [if_pos hfinish, if_pos hfinish]
  · rw [if_neg hfinish, if_neg hfinish]
    cases statement s with
    | mk r u => cases r <;> rfl

/-- The first call checks the parentheses. -/
theorem nextStatement_unchecked {s : State} (h : s.scanned = false) :
    nextStatement s = match strayParen? 0 s.tokens with
      | some t => (.error (.ofToken t), s.checked)
      | none => nextStatement s.checked := by
  rw [nextStatement_eq, nextStatement_eq, next_unchecked h]
  cases strayParen? 0 s.tokens <;> rfl

/-- A statement that is read is one of the grammar, and its definitions are handed over. -/
theorem nextStatement_eq_some {s u : State} {st : Statement}
    (h : nextStatement s = (.ok (some st), u)) :
    ∃ known defs rest, Grammar.Statement s.known s.tokens st.term known defs rest ∧
      st.definitions = s.queued ++ defs ∧
      u = { s with tokens := rest, known, queued := [], scanned := true } := by
  rw [nextStatement_eq] at h
  split at h
  · cases h
  · next n v hn =>
    obtain ⟨known, defs, rest, hstatement, rfl⟩ := next_eq_some hn
    cases h
    exact ⟨known, defs, rest, hstatement, rfl, rfl⟩
  · cases h

theorem length_lt_of_nextStatement {s u : State} {st : Statement}
    (h : nextStatement s = (.ok (some st), u)) : u.tokens.length < s.tokens.length := by
  obtain ⟨known, defs, rest, hstatement, -, rfl⟩ := nextStatement_eq_some h
  exact hstatement.before.length_lt

/-! ## Runs -/

/-- The value of the last statement, `last` if there is none, or the failure that ended the run. -/
def Trace.resultOr (last : Float) (trace : Trace) : Except Error Float :=
  match (trace.reports.getLast?).map Report.outcome, trace.stop with
  | some (.error error), _ => .error (.runtime error)
  | _, some error => .error (.unexpected error)
  | some (.ok value), none => .ok value
  | none, none => .ok last

/-- A statement in front gives the value if no other does. -/
theorem Trace.resultOr_cons {report : Report} {value : Float} (h : report.outcome = .ok value)
    (trace : Trace) (last : Float) : (trace.cons report).resultOr last = trace.resultOr value := by
  unfold resultOr cons
  cases htail : trace.reports with
  | nil => cases hstop : trace.stop <;> simp [h]
  | cons head tail =>
      have hlast : ∃ report, (head :: tail).getLast? = some report :=
        ⟨_, List.getLast?_eq_some_getLast (by simp)⟩
      obtain ⟨other, hother⟩ := hlast
      rw [List.getLast?_cons_cons, hother, Option.map_some]
      cases other.outcome <;> cases trace.stop <;> rfl

namespace Session

/-- The result of a run from a state of the parser, and the state of the program behind it; `last` is the value
so far. -/
def runFrom (fuel : Nat) (s : State) (env : Env) (last : Float) : Option (Except Error Float × Env) :=
  (traceFrom fuel s env).map fun trace => (trace.resultOr last, trace.final)

/-- Any bound above the number of tokens is enough. -/
theorem traceWithin_adequate (fuel : Nat) : ∀ (n m : Nat) (s : State) (env : Env),
    s.tokens.length < n → s.tokens.length < m →
      traceWithin fuel n s env = traceWithin fuel m s env := by
  intro n
  induction n with
  | zero => intro m s env hn _; exact absurd hn (Nat.not_lt_zero _)
  | succ n ih =>
      intro m s env hn hm
      cases m with
      | zero => exact absurd hm (Nat.not_lt_zero _)
      | succ m =>
          unfold traceWithin
          split
          · rfl
          · rfl
          · next st u hst =>
            have hlt := length_lt_of_nextStatement hst
            have hmore : ∀ env, traceWithin fuel n u env = traceWithin fuel m u env :=
              fun env => ih m u env (by omega) (by omega)
            simp only [hmore]

/-- A run that goes on reads a statement and evaluates it, and ends there or goes on behind it. -/
theorem traceWithin_cases {fuel n : Nat} {s : State} {env : Env} {trace : Trace}
    (h : traceWithin fuel (n + 1) s env = some trace) :
    (trace.reports = [] ∧ trace.final = env) ∨
      ∃ report u, nextStatement s = (.ok (some report.statement), u) ∧
        eval fuel report.statement.term (env.registerAll report.statement.definitions) =
          some (report.outcome, report.after) ∧
        ((trace.reports = [report] ∧ trace.final = report.after) ∨
          ∃ rest value, report.outcome = .ok value ∧ traceWithin fuel n u report.after = some rest ∧
            trace.reports = report :: rest.reports ∧ trace.final = rest.final) := by
  rw [traceWithin] at h
  split at h
  · cases h
    exact .inl ⟨rfl, rfl⟩
  · cases h
    exact .inl ⟨rfl, rfl⟩
  · next st u hst =>
    cases heval : eval fuel st.term (env.registerAll st.definitions) with
    | none =>
        rw [perform, heval] at h
        cases h
    | some x =>
        obtain ⟨outcome, after⟩ := x
        rw [perform, heval] at h
        refine .inr ⟨⟨st, outcome, printedSince env after, after⟩, u, hst, heval, ?_⟩
        cases outcome with
        | error e =>
            cases h
            exact .inl ⟨rfl, rfl⟩
        | ok value =>
            change ((traceWithin fuel n u after).bind fun rest => some (rest.cons _)) = some trace at h
            obtain ⟨rest, hrest, htrace⟩ := Option.bind_eq_some_iff.mp h
            cases htrace
            exact .inr ⟨rest, value, rfl, hrest, rfl, rfl⟩

/-- **A run, statement by statement.** -/
theorem runFrom_eq (fuel : Nat) (s : State) (env : Env) (last : Float) :
    runFrom fuel s env last = match nextStatement s with
      | (.error error, _) => some (.error (.unexpected error), env)
      | (.ok none, _) => some (.ok last, env)
      | (.ok (some st), u) =>
        match eval fuel st.term (env.registerAll st.definitions) with
        | none => none
        | some (.error error, after) => some (.error (.runtime error), after)
        | some (.ok value, after) => runFrom fuel u after value := by
  unfold runFrom traceFrom
  rw [traceWithin]
  cases hnext : nextStatement s with
  | mk r u =>
      cases r with
      | error e => rfl
      | ok statement? =>
          cases statement? with
          | none => rfl
          | some st =>
              unfold perform
              dsimp only
              cases eval fuel st.term (env.registerAll st.definitions) with
              | none => rfl
              | some x =>
                  obtain ⟨outcome, after⟩ := x
                  cases outcome with
                  | error e => rfl
                  | ok value =>
                      -- one round less is left, which is still enough for the tokens that are left
                      have hlt := length_lt_of_nextStatement hnext
                      have hbound := traceWithin_adequate fuel s.tokens.length (u.tokens.length + 1) u after
                        hlt (Nat.lt_succ_self _)
                      simp only [Option.map_some, Option.bind_some, bind, hbound]
                      cases traceWithin fuel (u.tokens.length + 1) u after with
                      | none => rfl
                      | some trace =>
                          simp only [pure, Option.bind_some, Option.map_some]
                          rw [Trace.resultOr_cons rfl]
                          rfl

/-- A run goes on behind a statement that has a value. -/
theorem runFrom_of_value {fuel : Nat} {s u : State} {st : Statement} {env after : Env} {value : Float}
    (hst : nextStatement s = (.ok (some st), u))
    (heval : eval fuel st.term (env.registerAll st.definitions) = some (.ok value, after)) (last : Float) :
    runFrom fuel s env last = runFrom fuel u after value := by
  rw [runFrom_eq, hst]
  dsimp only
  rw [heval]

/-- Running a text is running its tokens. -/
theorem run_eq_runFrom {source : String} {tokens : List Token} (h : lex source = .ok tokens) (fuel : Nat)
    (env : Env) : run fuel source env = runFrom fuel (.ofTokens tokens env.functions.names) env 0 := by
  unfold run
  rw [h]
  rfl

/-- What a run gives from the first token on is the result and the end of a trace. -/
theorem trace_of_runFrom {fuel : Nat} {tokens : List Token} {env after : Env} {r : Except Error Float}
    (h : runFrom fuel (.ofTokens tokens env.functions.names) env 0 = some (r, after)) :
    ∃ trace, Session.trace fuel tokens env = some trace ∧ trace.result = r ∧ trace.final = after := by
  obtain ⟨trace, htrace, hends⟩ := Option.map_eq_some_iff.mp h
  exact ⟨trace, htrace, Prod.mk.inj hends⟩

/-- More fuel changes nothing about a run that has ended. -/
theorem runFrom_mono {n m : Nat} (hnm : n ≤ m) {s : State} {env : Env} {last : Float}
    {x : Except Error Float × Env} (h : runFrom n s env last = some x) :
    runFrom m s env last = some x := by
  induction hlen : s.tokens.length using Nat.strongRecOn generalizing s env last with
  | ind length ih =>
      rw [runFrom_eq] at h ⊢
      split at h
      · exact h
      · exact h
      · next st u hst =>
        have hlt := length_lt_of_nextStatement hst
        split at h
        · cases h
        · next e after heval =>
          rw [Eval.eval_mono hnm heval]
          exact h
        · next value after heval =>
          rw [Eval.eval_mono hnm heval]
          exact ih _ (by omega) h rfl

theorem run_mono {n m : Nat} (hnm : n ≤ m) {source : String} {env : Env}
    {x : Except Error Float × Env} (h : run n source env = some x) : run m source env = some x := by
  cases hlex : lex source with
  | error e =>
      unfold run at h ⊢
      rw [hlex] at h ⊢
      exact h
  | ok tokens =>
      rw [run_eq_runFrom hlex] at h ⊢
      exact runFrom_mono hnm h

end Session

/-! ## Functions -/

namespace Table

variable {α : Type}

theorem contains_names (table : Table α) (name : String) :
    table.names.contains name = table.contains name := by
  have hlist : ∀ entries : List (String × α),
      (entries.map Prod.fst).contains name = (findEntry name entries).isSome := by
    intro entries
    induction entries with
    | nil => rfl
    | cons entry rest ih =>
        rw [List.map_cons, List.contains_cons, ih, findEntry]
        by_cases hname : name = entry.1
        · simp [hname]
        · simp [hname]
  exact hlist table.entries

theorem mem_names {table : Table α} {name : String} : name ∈ table.names ↔ table.contains name = true := by
  rw [← contains_names, List.contains_iff_mem]

end Table

namespace Env

variable {env : Env}

theorem contains_register (d : Definition) (name : String) :
    (env.register d).functions.contains name = true ↔
      d.name = name ∨ env.functions.contains name = true := by
  simp only [register, Table.contains, Table.get?_insert]
  by_cases hname : name = d.name
  · simp [hname]
  · simp [hname, Ne.symm hname]

/-- Registering makes the given functions registered, and no others. -/
theorem contains_registerAll (defs : List Definition) (name : String) :
    (env.registerAll defs).functions.contains name = true ↔
      (∃ d ∈ defs, d.name = name) ∨ env.functions.contains name = true := by
  induction defs generalizing env with
  | nil => simp [registerAll]
  | cons d defs ih =>
      have hfold : env.registerAll (d :: defs) = (env.register d).registerAll defs := rfl
      rw [hfold, ih, contains_register]
      simp only [List.mem_cons, exists_eq_or_imp]
      exact or_left_comm.trans or_assoc.symm

/-- A function registered among others has one of the given definitions or the one it had. -/
theorem get?_registerAll {defs : List Definition} {name : String} {frame : Frame}
    (h : (env.registerAll defs).functions.get? name = some frame) :
    frame.definition ∈ defs ∨ env.functions.get? name = some frame := by
  induction defs generalizing env with
  | nil => exact .inr h
  | cons d defs ih =>
      have hfold : env.registerAll (d :: defs) = (env.register d).registerAll defs := rfl
      rw [hfold] at h
      rcases ih h with hmem | hget
      · exact .inl (List.mem_cons_of_mem d hmem)
      · simp only [register, Table.get?_insert] at hget
        split at hget
        · cases hget
          exact .inl (List.mem_cons_self ..)
        · exact .inr hget

theorem active_registerAll (defs : List Definition) :
    (env.registerAll defs).active = env.active := by
  induction defs generalizing env with
  | nil => rfl
  | cons d defs ih => exact ih

end Env

namespace Session

/-- The parser knows the functions that are registered, and nothing waits to be registered. -/
structure Agree (s : State) (env : Env) : Prop where
  known : ∀ name, s.known.contains name = env.functions.contains name
  queued : s.queued = []
  closed : env.Closed
  idle : env.active = none

/-- The definitions inside a statement, once registered, are all that its evaluation can meet. -/
theorem closed_registerAll {env : Env} {defs : List Definition} {term : Term}
    (hdefs : ∀ d, d ∈ defs ↔ term.Defines d) (h : env.Closed) : (env.registerAll defs).Closed := by
  intro name frame hget d hd
  rw [Env.contains_registerAll]
  rcases Env.get?_registerAll hget with hmem | hold
  · -- What is inside the body of a definition is inside the statement.
    have houter := (hdefs _).mp hmem
    have hinner : term.Defines d := by
      refine Term.Within.trans ?_ houter
      exact .part (by simp [Term.parts]) hd
    exact .inl ⟨d, (hdefs d).mpr hinner, rfl⟩
  · exact .inr (h name frame hold d hd)

section Performed

variable {s u : State} {env after : Env} {st : Statement} {fuel : Nat} {r : Except RuntimeError Float}
  (hagree : Agree s env) (hst : nextStatement s = (.ok (some st), u))

include hagree hst

/-- The definitions that are registered with a statement are those inside it, in post-order. -/
theorem nextStatement_definitions : st.definitions = st.term.definitions := by
  obtain ⟨known, defs, rest, hstatement, hqueued, -⟩ := nextStatement_eq_some hst
  rw [hqueued, hagree.queued, List.nil_append]
  exact hstatement.definitions_eq

/-- Registering the definitions of a statement registers all that its evaluation can meet. -/
theorem performed_closed : (env.registerAll st.definitions).Closed := by
  have hdefs : ∀ d, d ∈ st.definitions ↔ st.term.Defines d := by
    intro d
    rw [nextStatement_definitions hagree hst]
    exact Term.mem_definitions_iff
  exact closed_registerAll hdefs hagree.closed

variable (heval : eval fuel st.term (env.registerAll st.definitions) = some (r, after))

include heval

/-- Evaluating a statement leaves the functions that are registered with it as they are. -/
theorem performed_sameFunctions : (env.registerAll st.definitions).SameFunctions after := by
  refine Eval.eval_sameFunctions (performed_closed hagree hst) (fun d hd => ?_) heval
  rw [Env.contains_registerAll, nextStatement_definitions hagree hst]
  exact .inl ⟨d, Term.mem_definitions_iff.mpr hd, rfl⟩

/-- **The parser and the program agree on what is a function**, from one statement to the next. -/
theorem performed_agree : Agree u after := by
  have hsame := performed_sameFunctions hagree hst heval
  have hclosed := performed_closed hagree hst
  obtain ⟨known, defs, rest, hstatement, hqueued, rfl⟩ := nextStatement_eq_some hst
  rw [hagree.queued, List.nil_append] at hqueued
  refine ⟨fun name => ?_, rfl, hsame.closed hclosed, ?_⟩
  · -- both sides grow by the definitions inside the statement
    rw [hsame.contains_eq, hqueued, Bool.eq_iff_iff, Env.contains_registerAll, List.contains_iff_mem,
      hstatement.mem_known_iff, ← hagree.known name, List.contains_iff_mem]
    exact or_comm
  · rw [hsame.keeps.active, Env.active_registerAll]
    exact hagree.idle

end Performed

/-- What `Agree` says of the program alone holds at the end of a run, whatever its result. -/
theorem runFrom_settled {fuel : Nat} {s : State} {env after : Env} {last : Float}
    {r : Except Error Float} (hagree : Agree s env) (h : runFrom fuel s env last = some (r, after)) :
    after.Closed ∧ after.active = none := by
  induction hlen : s.tokens.length using Nat.strongRecOn generalizing s env last with
  | ind length ih =>
      rw [runFrom_eq] at h
      split at h
      · cases h
        exact ⟨hagree.closed, hagree.idle⟩
      · cases h
        exact ⟨hagree.closed, hagree.idle⟩
      · next st u hst =>
        split at h
        · cases h
        · next e after' heval =>
          have hnext := performed_agree hagree hst heval
          cases h
          exact ⟨hnext.closed, hnext.idle⟩
        · next value after' heval =>
          have hlt := length_lt_of_nextStatement hst
          exact ih _ (by omega) (performed_agree hagree hst heval) h rfl

/-! ## Texts -/

/-- Running `source` ends with the result `r` and the state `after`. -/
def Runs (source : String) (env : Env) (r : Except Error Float) (after : Env) : Prop :=
  ∃ fuel, run fuel source env = some (r, after)

/-- The states that running texts leads to, from a state in which nothing has run. -/
inductive Reachable : Env → Prop where
  | fresh (sink : Sink) : Reachable (.ofSink sink)
  | run {env after : Env} {source : String} {r : Except Error Float} :
      Reachable env → Runs source env r after → Reachable after

/-- The parser that a text is given to begins in agreement with the program. -/
theorem agree_ofTokens {env : Env} (tokens : List Token) (hclosed : env.Closed)
    (hidle : env.active = none) : Agree (.ofTokens tokens env.functions.names) env := by
  have hstate : (State.ofTokens tokens env.functions.names).known = env.functions.names ∧
      (State.ofTokens tokens env.functions.names).queued = [] := by
    unfold State.ofTokens
    split
    · exact ⟨rfl, rfl⟩
    · split <;> exact ⟨rfl, rfl⟩
  refine ⟨fun name => ?_, hstate.2, hclosed, hidle⟩
  rw [hstate.1, Table.contains_names]

/-- In a reachable state no call is running, and the definitions inside bodies are registered. -/
theorem Reachable.settled {env : Env} (h : Reachable env) : env.Closed ∧ env.active = none := by
  induction h with
  | fresh sink =>
      refine ⟨fun name frame hget => ?_, rfl⟩
      cases hget
  | @run env after source r _ hrun ih =>
      obtain ⟨fuel, hfuel⟩ := hrun
      cases hlex : lex source with
      | error e =>
          unfold Session.run at hfuel
          rw [hlex] at hfuel
          cases hfuel
          exact ih
      | ok tokens =>
          rw [run_eq_runFrom hlex] at hfuel
          exact runFrom_settled (agree_ofTokens tokens ih.1 ih.2) hfuel

end Session
end Abacus
