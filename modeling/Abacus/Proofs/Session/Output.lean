import Abacus.Proofs.Eval.Output
import Abacus.Proofs.Session.Running
import Abacus.Proofs.Text.Layout
import Abacus.Text.Lines

/-!
# `Session.Output` — a run can only be refused its output

What was shown of terms in `Eval.Output` holds of whole texts. Between its statements a text reads and registers, and
neither looks at the sink; so the moments of a text are those of its statements, one statement after the other.

What is printed is the concatenation of these lines, each with a line break behind it, and no line holds one.

## Contents
- `moments` — the lines of a run, and the states in which they are written;
- `IsLine.plain` — a line is one line;
- `Outputs`, `output_can_only_be_refused` — appending, independence of what came before, and refusal.
-/

namespace Abacus

open Parse (State nextStatement)
open Eval (Moment IsLine Records printed behind)

/-! ## Lines -/

/-- A line holds no line break. -/
theorem Eval.IsLine.plain {line : String} (h : IsLine line) : '\n' ∉ line.toList := by
  have hplain : ∀ c ∈ line.toList, Plain c := by
    cases h with
    | truth value => cases value <;> simp [truthText, Plain]
    | number value => exact Number.plain_text value
    | array elements =>
        have hlist : ∀ text ∈ elements.toList.map Number.text, ∀ c ∈ text.toList, Plain c := by
          intro text htext
          obtain ⟨x, -, rfl⟩ := List.mem_map.mp htext
          exact Number.plain_text x
        unfold Elements.text
        simp only [String.toList_append, List.forall_mem_append]
        exact ⟨⟨by simp [Plain], plain_list hlist⟩, by simp [Plain]⟩
  exact fun hmem => (hplain '\n' hmem).1 rfl

/-- Lines printed later stand behind those printed earlier. -/
theorem linesText_append (lines others : List String) :
    linesText (lines ++ others) = linesText lines ++ linesText others := by
  simp [linesText]

/-! ## Texts -/

/-- Registering functions and exchanging the sink do not get in each other's way. -/
theorem Env.registerAll_withSink (env : Env) (defs : List Definition) (sink : Sink) :
    (env.withSink sink).registerAll defs = (env.registerAll defs).withSink sink := by
  induction defs generalizing env with
  | nil => rfl
  | cons d defs ih => exact ih (env.register d)

theorem Env.sink_registerAll (env : Env) (defs : List Definition) : (env.registerAll defs).sink = env.sink := by
  induction defs generalizing env with
  | nil => rfl
  | cons d defs ih => exact ih (env.register d)

namespace Session

/-- The moments at which at most `n` statements write a line. -/
def momentsWithin (fuel : Nat) : Nat → State → Env → List Moment
  | 0, _, _ => []
  | n + 1, s, env =>
    match nextStatement s with
    | (.ok (some statement), s) =>
      let begun := env.registerAll statement.definitions
      Eval.moments fuel statement.term begun ++
        behind (eval fuel statement.term) (fun _ => momentsWithin fuel n s) begun
    | _ => []

/-- The moments at which running a text writes a line. -/
def moments (fuel : Nat) (source : String) (env : Env) : List Moment :=
  match lex source with
  | .error _ => []
  | .ok tokens =>
    let s := State.ofTokens tokens env.functions.names
    momentsWithin fuel (s.tokens.length + 1) s env

/-- The failure of a text by a failure of evaluation. -/
def failing (error : RuntimeError) : Except Error Float := .error (.runtime error)

/-- By induction on the tokens that are left: registering prints nothing, and then the statement and the rest of the
run record their moments one behind the other. -/
theorem runFrom_records (fuel : Nat) {n : Nat} {s : State} (hn : s.tokens.length < n) {env : Env}
    {lines : Array String} (last : Float) (hsink : env.sink = .accepting lines) :
    Records failing (runFrom fuel s · last) env lines (momentsWithin fuel n s env) := by
  induction n generalizing s env lines last with
  | zero => exact absurd hn (Nat.not_lt_zero _)
  | succ n ih =>
      have hrun (env : Env) := runFrom_eq fuel s env last
      unfold momentsWithin
      rcases hnext : nextStatement s with ⟨e | _ | st, u⟩
      · have hstop (env : Env) : runFrom fuel s env last = some (.error (.unexpected e), env) := by
          rw [hrun, hnext]
        exact Records.of_still hstop hsink
      · have hstop (env : Env) : runFrom fuel s env last = some (.ok last, env) := by
          rw [hrun, hnext]
        exact Records.of_still hstop hsink
      · have hlt := length_lt_of_nextStatement hnext
        have hbegun : (env.registerAll st.definitions).sink = .accepting lines := by
          rw [Env.sink_registerAll, hsink]
        have heval := Eval.eval_records fuel st.term hbegun
        have hrest : u.tokens.length < n := by omega
        have hseq := heval.andThen fun {value mid} h => ih hrest value (heval.sink_after h)
        have hregistered := Records.comp (·.registerAll st.definitions) hseq
          (Env.active_registerAll _) (Env.sink_registerAll env _) (Env.registerAll_withSink env _)
        refine hregistered.congr fun sink => ?_
        rw [hrun, hnext, Eval.andThen]
        dsimp only
        rcases eval fuel st.term ((env.withSink sink).registerAll st.definitions) with _ | ⟨_ | _, _⟩ <;> rfl

/-- A text that is refused, or is stopped in front of its first statement, prints nothing. -/
theorem run_records (fuel : Nat) (source : String) {env : Env} {lines : Array String}
    (hsink : env.sink = .accepting lines) :
    Records failing (run fuel source) env lines (moments fuel source env) := by
  unfold moments
  cases hlex : lex source with
  | error e =>
      have hstop (env : Env) : run fuel source env = some (.error (.refused e), env) := by
        rw [run, hlex]
      exact Records.of_still hstop hsink
  | ok tokens =>
      refine (runFrom_records fuel (Nat.lt_succ_self _) 0 hsink).congr fun sink => ?_
      rw [run_eq_runFrom hlex]
      rfl

/-! ## What the sink can do -/

/-- How a run from the state `env`, with `lines` printed so far, depends on its sink. -/
structure Outputs {ε : Type} (fail : RuntimeError → Except ε Float) (run : Env → Option (Except ε Float × Env))
    (env : Env) (lines : Array String) (moments : List Moment) : Prop where
  /-- Each line is the text of a truth value, a number or an array, and one line. -/
  isLine : ∀ m ∈ moments, IsLine m.line ∧ '\n' ∉ m.line.toList
  /-- A line is about to be written when those in front of it are written, and no others. -/
  state : ∀ before m rest, moments = before ++ m :: rest → m.state.sink = .accepting (lines ++ printed before)
  /-- A run that ends has appended its lines. -/
  appends : ∀ r after, run env = some (r, after) →
    after.sink = .accepting (lines ++ printed moments) ∧
      linesText after.sink.lines.toList = linesText lines.toList ++ linesText (moments.map Moment.line)
  /-- It does the same whatever was printed before. -/
  independent : ∀ r after, run env = some (r, after) → ∀ others,
    run (env.withSink (.accepting others)) = some (r, after.withSink (.accepting (others ++ printed moments)))
  /-- If it writes nothing, it does the same when lines are refused. -/
  silent : moments = [] → ∀ r after, run env = some (r, after) → ∀ reason,
    run (env.withSink (.refusing reason)) = some (r, after.withSink (.refusing reason))
  /-- If it writes, it fails when lines are refused, with all tables as they are at the first moment. -/
  refused : ∀ first rest, moments = first :: rest → ∀ reason,
    run (env.withSink (.refusing reason)) =
      some (fail (.output reason), { first.state with active := env.active, sink := .refusing reason })

theorem Outputs.of_records {ε : Type} {fail : RuntimeError → Except ε Float}
    {run : Env → Option (Except ε Float × Env)} {env : Env} {lines : Array String} {moments : List Moment}
    (h : Records fail run env lines moments) : Outputs fail run env lines moments where
  isLine m hm := ⟨h.isLine m hm, (h.isLine m hm).plain⟩
  state before m rest hmoments := h.state hmoments
  appends r after hrun := by
    have hsink := h.sink_after hrun
    refine ⟨hsink, ?_⟩
    rw [hsink, ← linesText_append]
    simp only [Sink.lines, printed, Array.toList_append]
  independent r after hrun others := by
    rw [h.accepted, hrun]
    rfl
  silent hnone r after hrun reason := by
    rw [h.refused, hnone, hrun]
    rfl
  refused first rest hfirst reason := by
    rw [h.refused, hfirst]

/-- **A run can only be refused its output.** Where lines are kept, evaluating a term and running a text append the
lines of their moments and nothing else, and do the same whatever was printed before. Where every line is refused they
do the same if there is none; otherwise they end with that failure, and all tables are as they were when the first line
was to be written. -/
theorem output_can_only_be_refused (fuel : Nat) {env : Env} {lines : Array String}
    (hsink : env.sink = .accepting lines) :
    (∀ term, Outputs .error (eval fuel term) env lines (Eval.moments fuel term env)) ∧
      ∀ source, Outputs failing (run fuel source) env lines (moments fuel source env) := by
  constructor
  · intro term
    exact .of_records (Eval.eval_records fuel term hsink)
  · intro source
    exact .of_records (run_records fuel source hsink)

/-- A function that sets a number, prints and sets it again stops between the two when its line is refused, and the
caller is back in its own scope. -/
theorem output_can_only_be_refused_in_call :
    let body : Term := .block [.assign "x" (.boolean true), .print (.boolean false), .assign "x" (.boolean false)]
    let env := Env.empty.register ⟨"f", [], body⟩
    ∃ state : Env, Eval.moments 5 (.call "f" []) env = [⟨"false", state⟩] ∧
      state.active = some "f" ∧ state.scalar? "x" = some 1 ∧
      eval 5 (.call "f" []) (env.withSink (.refusing "full")) =
        some (.error (.output "full"), { state with active := none, sink := .refusing "full" }) := by
  intro body env
  have hmoments := (output_can_only_be_refused 5 (show env.sink = .accepting #[] from rfl)).1 (.call "f" [])
  let state : Env := { env with
    functions := ⟨[("f", ⟨⟨"f", [], body⟩, ⟨[("x", 1)]⟩, true⟩)]⟩
    active := some "f" }
  have hprints : Eval.moments 5 (.call "f" []) env = [⟨"false", state⟩] := by
    subst state env body
    rfl
  exact ⟨state, hprints, rfl, rfl, hmoments.refused _ _ hprints "full"⟩

end Session
end Abacus
