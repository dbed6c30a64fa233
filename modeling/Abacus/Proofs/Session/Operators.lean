import Abacus.Proofs.Eval.Operators
import Abacus.Proofs.Grammar.ConditionOperators
import Abacus.Proofs.Session.Running
import Abacus.Proofs.Token.Scanning

/-!
# `Session.Operators` — only a closing brace is complained about

A session complains about an operator only if it was written in one of its texts, and the parser keeps an operator
without a meaning in one place: between the factors of a condition. There a text can only have a closing brace. The text
need not be the one that is running: a function of an earlier text keeps its body.

## Contents
- `BraceInCondition`, `WrittenIn` — the operators that texts can bring up;
- `Ran` — the states behind some texts;
- `runFrom_guarded`, `Ran.uses` — a run brings up no other operators;
- `only_braces_are_invalid` — what is complained about, and the other ways to end with exit code 2.
-/

namespace Abacus

open Parse (State nextStatement closeBrace)
open Grammar (InCondition)
open Term (Within)

theorem Term.Uses.imp {P Q : Operator → Prop} {n : Term} (h : n.Uses P) (hPQ : ∀ op, P op → Q op) : n.Uses Q :=
  fun op left right hop => hPQ op (h op left right hop)

theorem Env.Uses.imp {P Q : Operator → Prop} {env : Env} (h : env.Uses P) (hPQ : ∀ op, P op → Q op) : env.Uses Q :=
  fun name frame hget => (h name frame hget).imp hPQ

/-- Registering definitions brings up the operators of their bodies. -/
theorem Env.Uses.registerAll {P : Operator → Prop} {env : Env} (h : env.Uses P) {defs : List Definition}
    (hdefs : ∀ d ∈ defs, d.body.Uses P) : (env.registerAll defs).Uses P := by
  intro name frame hget
  rcases Env.get?_registerAll hget with hmem | hold
  · exact hdefs _ hmem
  · exact h name frame hold

namespace Session

/-! ## Operators of texts -/

/-- In the condition of an `if` or a `while` of the text, a closing brace stands where an operator belongs. -/
def BraceInCondition (text : String) : Prop :=
  ∃ tokens last symbol, lex text = .ok (tokens ++ [last]) ∧ symbol.isOperator closeBrace = true ∧
    InCondition tokens symbol

/-- The operator has a meaning, or it is a closing brace and one of the texts has one in a condition. -/
def WrittenIn (texts : List String) (op : Operator) : Prop :=
  op ∈ Operator.meaningful ∨ op = .unknown '\x7d' ∧ ∃ text ∈ texts, BraceInCondition text

theorem WrittenIn.mono {texts texts' : List String} (h : texts ⊆ texts') {op : Operator} :
    WrittenIn texts op → WrittenIn texts' op
  | .inl hmeaning => .inl hmeaning
  | .inr ⟨hop, text, hmem, hbrace⟩ => .inr ⟨hop, text, h hmem, hbrace⟩

/-- The operators of a statement that is read from a text. -/
theorem statement_uses {text : String} {tokens : List Token} {last : Token} (hlex : lex text = .ok (tokens ++ [last]))
    {known ts n known' defs rest} (hts : ts <:+ tokens) (h : Grammar.Statement known ts n known' defs rest) :
    n.Uses (WrittenIn [text]) := by
  have hlexed : ∀ t ∈ tokens, t.kind = .finish ∨ t.Lexed :=
    fun t ht => lexed_of_tokens .start text.toList hlex t (List.mem_append_left _ ht)
  intro op left right hop
  have hplaced := h.placed hts _ hop
  cases op with
  | unknown c =>
      obtain ⟨rfl, symbol, hsymbol, hin⟩ := hplaced.closeBrace hlexed
      exact .inr ⟨rfl, text, List.mem_singleton.mpr rfl, tokens, last, symbol, hlex, hsymbol, hin⟩
  | _ => exact .inl (by simp [Operator.meaningful])

/-! ## Runs -/

/-- A run brings up the operators of its statements, and complains about no others. -/
theorem runFrom_guarded {P : Operator → Prop} {tokens : List Token}
    (hstatement : ∀ {known ts n known' defs rest}, ts <:+ tokens →
      Grammar.Statement known ts n known' defs rest → n.Uses P)
    {fuel : Nat} {s : State} {env after : Env} {last : Float} {r : Except Error Float} (hs : s.tokens <:+ tokens)
    (hagree : Agree s env) (henv : env.Uses P) (h : runFrom fuel s env last = some (r, after)) :
    after.Uses P ∧ ∀ op, r = .error (.runtime (.invalidOperator op)) → P op ∧ op.family = .unknown := by
  induction hlen : s.tokens.length using Nat.strongRecOn generalizing s env last with
  | ind length ih =>
      rw [runFrom_eq] at h
      split at h
      · cases h
        exact ⟨henv, nofun⟩
      · cases h
        exact ⟨henv, nofun⟩
      · next st u hst =>
        obtain ⟨known, defs, rest, hread, -, hu⟩ := nextStatement_eq_some hst
        have hterm : st.term.Uses P := hstatement hs hread
        have hbegun : (env.registerAll st.definitions).Uses P := by
          refine henv.registerAll fun d hd => ?_
          rw [nextStatement_definitions hagree hst, Term.mem_definitions_iff] at hd
          exact hterm.within (Within.trans (.part (by simp [Term.parts]) .refl) hd)
        have hguarded := Eval.eval_guarded fuel hterm hbegun
        split at h
        · cases h
        · next e mid heval =>
          cases h
          obtain ⟨hafter, hcomplaint⟩ := hguarded heval
          refine ⟨hafter, fun op hop => hcomplaint op ?_⟩
          cases hop
          rfl
        · next value mid heval =>
          have hlt := length_lt_of_nextStatement hst
          have hrest : u.tokens <:+ tokens := by
            rw [hu]
            exact hread.before.suffix.trans hs
          exact ih _ (by omega) hrest (performed_agree hagree hst heval) (hguarded heval).1 h rfl

theorem run_guarded {P : Operator → Prop} {source : String} {env after : Env} {r : Except Error Float}
    (hP : ∀ op, WrittenIn [source] op → P op) (hreachable : Reachable env) (henv : env.Uses P)
    (h : Runs source env r after) :
    after.Uses P ∧ ∀ op, r = .error (.runtime (.invalidOperator op)) → P op ∧ op.family = .unknown := by
  obtain ⟨fuel, hrun⟩ := h
  cases hlex : lex source with
  | error e =>
      rw [run, hlex] at hrun
      cases hrun
      exact ⟨henv, nofun⟩
  | ok tokens =>
      obtain ⟨us, rfl, -⟩ := tokens_append _ _ hlex
      have hagree := agree_ofTokens (us ++ [.finish (Position.start.advance source.toList)]) hreachable.settled.1
        hreachable.settled.2
      rw [run_eq_runFrom hlex] at hrun
      rw [ofTokens_append_finish] at hrun hagree
      exact runFrom_guarded (fun hts hread => (statement_uses hlex hts hread).imp hP) (List.suffix_refl us) hagree henv
        hrun

/-- The states behind some texts, run in order and whatever came of them, from a state in which nothing has run. -/
inductive Ran : List String → Env → Prop where
  | fresh (sink : Sink) : Ran [] (.ofSink sink)
  | run {sources : List String} {env after : Env} {source : String} {r : Except Error Float} :
      Ran sources env → Runs source env r after → Ran (sources ++ [source]) after

theorem Ran.reachable {sources : List String} {env : Env} (h : Ran sources env) : Reachable env := by
  induction h with
  | fresh sink => exact .fresh sink
  | run _ hrun ih => exact .run ih hrun

/-- The functions have the operators of the texts so far. -/
theorem Ran.uses {sources : List String} {env : Env} (h : Ran sources env) : env.Uses (WrittenIn sources) := by
  induction h with
  | fresh sink => exact fun name frame hget => by cases hget
  | run hran hrun ih =>
      refine (run_guarded (fun op => ?_) hran.reachable (ih.imp fun op => ?_) hrun).1
      · exact WrittenIn.mono (List.subset_append_right _ _)
      · exact WrittenIn.mono (List.subset_append_left _ _)

/-- **Only a closing brace in a condition is complained about as an operator.** Where neither the term nor a registered
body has an operator without a meaning, evaluation never complains about one, and it is the same whatever is done in the
places for that. And when texts are run one after the other and one ends with such a complaint, it is about the closing
brace, and that text or one before it has a closing brace where an operator belongs in a condition. Whatever else ends
with exit code 2 is a token that does not fit. -/
theorem only_braces_are_invalid :
    (∀ (term : Term) (env : Env), (∀ c left right, ¬Within (.binary (.unknown c) left right) term) →
      (∀ name frame, env.functions.get? name = some frame →
        ∀ c left right, ¬Within (.binary (.unknown c) left right) frame.definition.body) →
      ∀ fuel, (∀ r after, eval fuel term env = some (r, after) → ∀ op, r ≠ .error (.invalidOperator op)) ∧
        ∀ other, Eval.evalOr other fuel term env = eval fuel term env) ∧
    ∀ (sources : List String) (env : Env) (source : String) (r : Except Error Float) (after : Env),
      Ran sources env → Runs source env r after →
        (∀ op, r = .error (.runtime (.invalidOperator op)) →
          op = .unknown '\x7d' ∧ op.symbol = closeBrace ∧ ∃ text ∈ sources ++ [source], BraceInCondition text) ∧
        ∀ e, r = .error e → e.exitCode = 2 →
          (∃ token, e = .unexpected token) ∨ ∃ op, e = .runtime (.invalidOperator op) := by
  refine ⟨fun term env hterm henv fuel => Eval.eval_without_unknown hterm henv fuel, ?_⟩
  intro sources env source r after hran hrun
  constructor
  · intro op hr
    have henv : env.Uses (WrittenIn (sources ++ [source])) :=
      hran.uses.imp fun op => WrittenIn.mono (List.subset_append_left _ _)
    have hguarded := run_guarded (fun op => WrittenIn.mono (List.subset_append_right _ _)) hran.reachable henv hrun
    obtain ⟨hmeaning | ⟨rfl, hbrace⟩, hfamily⟩ := hguarded.2 op hr
    · have hfamilies : ∀ op ∈ Operator.meaningful, op.family ≠ .unknown := by decide
      exact absurd hfamily (hfamilies op hmeaning)
    · exact ⟨rfl, rfl, hbrace⟩
  · intro e _ hcode
    cases e with
    | refused error => cases hcode
    | unexpected token => exact .inl ⟨token, rfl⟩
    | runtime error =>
        cases error with
        | invalidOperator op => exact .inr ⟨op, rfl⟩
        | _ => cases hcode

/-- `if true } true { true }` is complained about when it is run, and comparing two truth values is not. -/
theorem only_braces_are_invalid_condition :
    let source := "if true \x7d true \x7b true \x7d"
    Runs source .empty (.error (.runtime (.invalidOperator (.unknown '\x7d')))) .empty ∧ BraceInCondition source ∧
      ∀ op after, eval 2 (.binary .eq (.boolean true) (.boolean true)) .empty ≠
        some (.error (.invalidOperator op), after) := by
  intro source
  let tokens : List Token := [⟨.identifier, "if", ⟨1, 1⟩⟩, ⟨.boolean, "true", ⟨1, 4⟩⟩, ⟨.operator, "\x7d", ⟨1, 9⟩⟩,
    ⟨.boolean, "true", ⟨1, 11⟩⟩, ⟨.operator, "\x7b", ⟨1, 16⟩⟩, ⟨.boolean, "true", ⟨1, 18⟩⟩,
    ⟨.operator, "\x7d", ⟨1, 23⟩⟩, .finish ⟨1, 24⟩]
  have hlex : lex source = .ok tokens := by
    rw [lex_eq_tokensWithin]
    subst source tokens
    rfl
  have hrun : Runs source .empty (.error (.runtime (.invalidOperator (.unknown '\x7d')))) .empty := by
    refine ⟨5, ?_⟩
    rw [run_eq_runFrom hlex]
    subst tokens
    rfl
  obtain ⟨hterms, htexts⟩ := only_braces_are_invalid
  obtain ⟨-, -, text, hmem, hbrace⟩ := (htexts [] .empty source _ _ (.fresh _) hrun).1 _ rfl
  refine ⟨hrun, ?_, fun op after heval => ?_⟩
  · rw [List.mem_singleton.mp hmem] at hbrace
    exact hbrace
  · refine (hterms _ .empty ?_ ?_ 2).1 _ after heval op rfl
    · intro c left right h
      cases h with
      | part hpart h =>
          simp only [Term.parts, List.mem_cons, List.not_mem_nil, or_false, or_self] at hpart
          rw [hpart] at h
          cases h with
          | part hpart _ => cases hpart
    · intro name frame hget
      cases hget

end Session
end Abacus
