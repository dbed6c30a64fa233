import Abacus.Proofs.Session.Running
import Abacus.Proofs.Token.Scanning

/-!
# `Session.Hoisting` — reading defines functions, evaluating does not

A definition is registered once the statement around it has been read, whether or not it is ever evaluated. Evaluating
it later finds its function registered and leaves its body as it is. So the functions behind a run are known from the
terms that were handed to evaluation, by looking at them: they are the definitions inside these terms, and of several
with one name **the last in post-order** counts.

## Contents
- `lastNamed` — the last definition of a name;
- `definition?_registerAll` — registering several definitions;
- `evaluated` — the terms that a run hands to evaluation;
- `traceWithin_definition?` — the functions behind a run.
-/

namespace Abacus

open Parse (State nextStatement)

/-! ## The last definition of a name -/

/-- The last of several definitions that has the given name. -/
def lastNamed (name : String) (defs : List Definition) : Option Definition :=
  (defs.filter (·.name = name)).getLast?

section LastNamed

variable {name : String}

theorem lastNamed_append (ds es : List Definition) :
    lastNamed name (ds ++ es) = (lastNamed name es).or (lastNamed name ds) := by
  rw [lastNamed, List.filter_append, List.getLast?_append]
  rfl

theorem lastNamed_singleton (d : Definition) :
    lastNamed name [d] = if d.name = name then some d else none := by
  by_cases hname : d.name = name
  · simp [lastNamed, hname]
  · simp [lastNamed, hname]

theorem isSome_lastNamed {defs : List Definition} :
    (lastNamed name defs).isSome = true ↔ ∃ d ∈ defs, d.name = name := by
  simp [lastNamed]

end LastNamed

namespace Env

variable {env : Env} {name : String}

theorem definition?_register (d : Definition) :
    (env.register d).definition? name = (lastNamed name [d]).or (env.definition? name) := by
  rw [lastNamed_singleton, Env.definition?, Env.register, Table.get?_insert]
  by_cases hname : name = d.name
  · rw [if_pos hname, if_pos hname.symm]
    rfl
  · rw [if_neg hname, if_neg (Ne.symm hname)]
    rfl

/-- Of several definitions with one name, the last one counts. -/
theorem definition?_registerAll (defs : List Definition) :
    (env.registerAll defs).definition? name = (lastNamed name defs).or (env.definition? name) := by
  induction defs generalizing env with
  | nil => rfl
  | cons d defs ih =>
      have hcons : lastNamed name (d :: defs) = (lastNamed name defs).or (lastNamed name [d]) :=
        lastNamed_append [d] defs
      show ((env.register d).registerAll defs).definition? name = _
      rw [ih, definition?_register, hcons, Option.or_assoc]

end Env

/-! ## What a run hands to evaluation -/

/-- The terms that were evaluated. -/
def Trace.terms (trace : Trace) : List Term := trace.reports.map fun report => report.statement.term

namespace Session

/-- The terms that running `source` hands to evaluation, one that fails included. -/
def evaluated (fuel : Nat) (source : String) (env : Env) : List Term :=
  match lex source with
  | .error _ => []
  | .ok tokens => ((trace fuel tokens env).map Trace.terms).getD []

/-- They are the terms in the trace of its tokens. -/
theorem evaluated_eq {source : String} {tokens : List Token} (h : lex source = .ok tokens) (fuel : Nat) (env : Env) :
    evaluated fuel source env = ((trace fuel tokens env).map Trace.terms).getD [] := by
  rw [evaluated, h]

/-- Nothing is evaluated behind a statement that fails. -/
theorem evaluated_of_error {source : String} {tokens : List Token} {fuel : Nat} {env after : Env} {u : State}
    {st : Statement} {e : RuntimeError} (hlex : lex source = .ok tokens)
    (hst : nextStatement (.ofTokens tokens env.functions.names) = (.ok (some st), u))
    (heval : eval fuel st.term (env.registerAll st.definitions) = some (.error e, after)) :
    evaluated fuel source env = [st.term] := by
  rw [evaluated_eq hlex, trace, traceFrom, traceWithin, hst]
  dsimp only
  rw [perform, heval]
  rfl

/-- **The functions behind a run** are those inside the terms it evaluated, and those that were there before. -/
theorem traceWithin_definition? {fuel n : Nat} {s : State} {env : Env} {trace : Trace} {name : String}
    (hagree : Agree s env) (h : traceWithin fuel n s env = some trace) :
    trace.final.definition? name =
      (lastNamed name (trace.terms.flatMap Term.definitions)).or (env.definition? name) := by
  induction n generalizing s env trace with
  | zero =>
      cases h
      rfl
  | succ n ih =>
      rcases traceWithin_cases h with ⟨hreports, hfinal⟩ | ⟨report, u, hst, heval, hmore⟩
      · rw [Trace.terms, hreports, hfinal]
        rfl
      · -- behind the first statement, its definitions hide those of the same name
        have hfirst : report.after.definition? name =
            (lastNamed name report.statement.term.definitions).or (env.definition? name) := by
          rw [(performed_sameFunctions hagree hst heval).definition?_eq,
            nextStatement_definitions hagree hst, Env.definition?_registerAll]
        rcases hmore with ⟨hreports, hfinal⟩ | ⟨rest, -, -, hrest, hreports, hfinal⟩
        · rw [Trace.terms, hreports, hfinal, List.map_singleton, List.flatMap_singleton]
          exact hfirst
        · rw [Trace.terms, hreports, hfinal, List.map_cons, List.flatMap_cons, lastNamed_append,
            Option.or_assoc, ← hfirst]
          exact ih (performed_agree hagree hst heval) hrest

/-- **Functions are hoisted by reading, never by evaluation.** From a reachable state, whatever the result of a run:
the functions registered behind it are those registered before it and those defined in the terms it handed to
evaluation, at any depth and in any branch; and each has the last definition of its name in the post-order of these
terms, or the one it had if there is none. -/
theorem run_hoists_definitions {env after : Env} (henv : Reachable env) {fuel : Nat} {source : String}
    {r : Except Error Float} (h : run fuel source env = some (r, after)) (name : String) :
    (after.functions.contains name = true ↔ env.functions.contains name = true ∨
      ∃ term ∈ evaluated fuel source env, ∃ d, term.Defines d ∧ d.name = name) ∧
    after.definition? name =
      (lastNamed name ((evaluated fuel source env).flatMap Term.definitions)).or (env.definition? name) := by
  have hdefinition : after.definition? name =
      (lastNamed name ((evaluated fuel source env).flatMap Term.definitions)).or (env.definition? name) := by
    unfold run at h
    cases hlex : lex source with
    | error e =>
        rw [hlex] at h
        cases h
        rw [evaluated, hlex]
        rfl
    | ok tokens =>
        rw [hlex] at h
        obtain ⟨trace, htrace, heq⟩ := Option.map_eq_some_iff.mp h
        cases heq
        rw [evaluated_eq hlex, htrace]
        exact traceWithin_definition? (agree_ofTokens tokens henv.settled.1 henv.settled.2) htrace
  refine ⟨?_, hdefinition⟩
  rw [← Env.isSome_definition?, ← Env.isSome_definition?, hdefinition, Option.isSome_or, Bool.or_eq_true,
    isSome_lastNamed, or_comm]
  simp only [List.mem_flatMap, Term.mem_definitions_iff]
  grind

/-- The condition fails, so no branch is taken. `f` is registered all the same, with the outer of two definitions. -/
theorem run_hoists_definitions_untaken :
    let source := "if x \x7bdef f()\x7bdef f()\x7btrue\x7dfalse\x7d\x7d"
    let inner : Term := .define "f" [] (.braced (.block [.boolean true]))
    let body : Term := .braced (.block [inner, .boolean false])
    ∃ after, run 2 source .empty = some (.error (.runtime (.unknownIdentifier "x")), after) ∧
      after.functions.contains "f" = true ∧ after.definition? "f" = some ⟨"f", [], body⟩ := by
  intro source inner body
  let term : Term := .ifElse (.var "x") (.braced (.block [.define "f" [] body])) none
  let after := Env.empty.register ⟨"f", [], body⟩
  let tokens : List Token := [⟨.identifier, "if", ⟨1, 1⟩⟩, ⟨.identifier, "x", ⟨1, 4⟩⟩, ⟨.operator, "\x7b", ⟨1, 6⟩⟩,
    ⟨.identifier, "def", ⟨1, 7⟩⟩, ⟨.identifier, "f", ⟨1, 11⟩⟩, ⟨.leftParen, "(", ⟨1, 12⟩⟩,
    ⟨.rightParen, ")", ⟨1, 13⟩⟩, ⟨.operator, "\x7b", ⟨1, 14⟩⟩, ⟨.identifier, "def", ⟨1, 15⟩⟩,
    ⟨.identifier, "f", ⟨1, 19⟩⟩, ⟨.leftParen, "(", ⟨1, 20⟩⟩, ⟨.rightParen, ")", ⟨1, 21⟩⟩,
    ⟨.operator, "\x7b", ⟨1, 22⟩⟩, ⟨.boolean, "true", ⟨1, 23⟩⟩, ⟨.operator, "\x7d", ⟨1, 27⟩⟩,
    ⟨.boolean, "false", ⟨1, 28⟩⟩, ⟨.operator, "\x7d", ⟨1, 33⟩⟩, ⟨.operator, "\x7d", ⟨1, 34⟩⟩, .finish ⟨1, 35⟩]
  have hlex : lex source = .ok tokens := by
    rw [lex_eq_tokensWithin]
    subst source tokens
    rfl
  have hread : nextStatement (.ofTokens tokens Env.empty.functions.names) =
      (.ok (some ⟨term, [⟨"f", [], .braced (.block [.boolean true])⟩, ⟨"f", [], body⟩]⟩),
        ⟨[], .finish ⟨1, 35⟩, ["f", "f"], [], true, rfl⟩) := by
    subst tokens term body inner
    rfl
  have hfails : eval 2 term (Env.empty.registerAll [⟨"f", [], .braced (.block [.boolean true])⟩, ⟨"f", [], body⟩]) =
      some (.error (.unknownIdentifier "x"), after) := rfl
  have hrun : run 2 source .empty = some (.error (.runtime (.unknownIdentifier "x")), after) := by
    rw [run_eq_runFrom hlex, runFrom_eq, hread]
    dsimp only
    rw [hfails]
  have hevaluated : evaluated 2 source .empty = [term] := evaluated_of_error hlex hread hfails
  have hdefinitions : term.definitions = [⟨"f", [], .braced (.block [.boolean true])⟩, ⟨"f", [], body⟩] := rfl
  have hreachable : Reachable .empty := .fresh _
  obtain ⟨hcontains, hdefinition⟩ := run_hoists_definitions hreachable hrun "f"
  rw [hevaluated, List.flatMap_singleton, hdefinitions] at hdefinition
  refine ⟨after, hrun, hcontains.mpr (.inr ⟨term, ?_, ⟨"f", [], body⟩, ?_, rfl⟩), hdefinition⟩
  · rw [hevaluated]
    exact List.mem_singleton_self term
  · rw [← Term.mem_definitions_iff, hdefinitions]
    simp

end Session
end Abacus
