import Abacus.Proofs.Grammar.Nesting
import Abacus.Proofs.Grammar.StatementReading

/-!
# `Grammar.ProgramReading` — reading the statements of a program

Before the first statement is read, all tokens are checked for a closing parenthesis that closes nothing. The
parentheses of a phrase close each other, so the check passes over it and finds what it finds behind it.

## Contents
- `Statement.strayParen?_eq` — the check of a phrase;
- `parserOf` — the parser in front of the tokens of a text;
- `next_checked`, `next_unchecked`, `next_eq_some` — the next statement.
-/

namespace Abacus

open Parse (State checkParens statement)

/-! ## Parentheses of phrases -/

/-- The check finds behind a statement what it finds in front of it. -/
theorem Grammar.Statement.strayParen?_eq {known ts n known' defs rest}
    (h : Grammar.Statement known ts n known' defs rest) (depth : Nat) :
    strayParen? depth ts = strayParen? depth rest := by
  obtain ⟨front, rfl, hfront⟩ := h.nestedUpTo
  exact hfront.strayParen?_append rest depth

/-! ## The next statement -/

/-- The parser in front of the tokens of a text, with its parentheses checked. -/
def parserOf (ts : List Token) (pos : Position) (known : List String) : State :=
  { tokens := ts, last := .finish pos, known, queued := [], scanned := true, ends := rfl }

/-- Tokens that end the program are all of them. -/
theorem ofTokens_concat (ts : List Token) {last : Token} (ends : last.kind = .finish) (known : List String) :
    State.ofTokens (ts ++ [last]) known =
      { tokens := ts, last, known, queued := [], scanned := false, ends } := by
  unfold State.ofTokens
  split
  · next h => simp at h
  · next last' h =>
    rw [List.getLast?_concat] at h
    cases h
    rw [dif_pos ends]
    simp

theorem ofTokens_append_finish (ts : List Token) (pos : Position) (known : List String) :
    State.ofTokens (ts ++ [.finish pos]) known = { parserOf ts pos known with scanned := false } :=
  ofTokens_concat ts rfl known

/-- The parentheses have been checked. -/
def Parse.State.checked (s : State) : State := { s with scanned := true }

@[simp] theorem Parse.State.checked_tokens (s : State) : s.checked.tokens = s.tokens := rfl

/-- Behind the check, the next statement is read unless the program ends. -/
theorem next_checked {s : State} (h : s.scanned = true) :
    Parse.next s =
      if s.current.is .finish then (.ok none, s)
      else match statement s with
        | (.ok n, u) => (.ok (some n), u)
        | (.error e, u) => (.error e, u) := by
  have hcheck : checkParens s = (.ok (), s) := by simp [checkParens, h]
  unfold Parse.next
  rw [Parse.bind_apply, hcheck]
  simp only [Parse.look_bind]
  by_cases hfinish : s.current.is .finish = true
  · rw [if_pos hfinish, if_pos hfinish]
    rfl
  · rw [if_neg hfinish, if_neg hfinish, Parse.bind_apply]
    cases statement s with
    | mk r u => cases r <;> rfl

/-- The first call checks the parentheses. -/
theorem next_unchecked {s : State} (h : s.scanned = false) :
    Parse.next s = match strayParen? 0 s.tokens with
      | some t => (.error (.ofToken t), s.checked)
      | none => Parse.next s.checked := by
  have hcheck : checkParens s.checked = (.ok (), s.checked) := by simp [checkParens, State.checked]
  unfold Parse.next
  cases hstray : strayParen? 0 s.tokens with
  | some t =>
      have herror : checkParens s = (.error (.ofToken t), s.checked) := by
        simp [checkParens, h, hstray, State.checked]
      simp only [Parse.bind_apply, herror]
  | none =>
      have hok : checkParens s = (.ok (), s.checked) := by
        simp [checkParens, h, hstray, State.checked]
      simp only [Parse.bind_apply, hok, hcheck]

/-- A statement that is read is one of the grammar. -/
theorem next_eq_some {s u : State} {n : Term} (h : Parse.next s = (.ok (some n), u)) :
    ∃ known defs rest, Grammar.Statement s.known s.tokens n known defs rest ∧
      u = s.checked.behind known defs rest := by
  have main : ∀ {s : State}, s.scanned = true → Parse.next s = (.ok (some n), u) →
      ∃ known defs rest, Grammar.Statement s.known s.tokens n known defs rest ∧
        u = s.behind known defs rest := by
    intro s hscan h
    rw [next_checked hscan] at h
    split at h
    · cases h
    · split at h
      · next m v hm =>
        obtain ⟨known, defs, rest, rfl, hstatement⟩ := Grammar.statement_gathers hm
        cases h
        exact ⟨known, defs, rest, hstatement, rfl⟩
      · cases h
  by_cases hscan : s.scanned = true
  · have hchecked : s.checked = s := by
      rw [State.checked, ← hscan]
    rw [hchecked]
    exact main hscan h
  · rw [next_unchecked (by simpa using hscan)] at h
    split at h
    · cases h
    · exact main (s := s.checked) rfl h

section Program

variable {known known' : List String} {ts : List Token} {n : Term} {defs : List Definition}

/-- A program of one statement: it is read, whatever its parentheses. -/
theorem next_of_statement (h : Grammar.Statement known ts n known' defs []) (pos : Position) :
    Parse.next (State.ofTokens (ts ++ [.finish pos]) known) =
      (.ok (some n), (parserOf ts pos known).behind known' defs []) := by
  have hstray : strayParen? 0 ts = none := h.strayParen?_eq 0
  have hread : statement (parserOf ts pos known) = _ := h.read (parserOf ts pos known) rfl
  have hcurrent : (parserOf ts pos known).current.is .finish = false := by
    obtain ⟨t, us, rfl, hbegins⟩ := h.begins
    exact Parse.is_eq_false_iff.mpr (hbegins.kind_ne (by decide))
  have hnext : Parse.next (parserOf ts pos known) = _ := next_checked rfl
  rw [hcurrent, if_neg (by decide), hread] at hnext
  rw [ofTokens_append_finish, next_unchecked rfl]
  simp only [parserOf, hstray]
  exact hnext

/-- At the end of a program there is no statement. -/
theorem next_end {s : State} (hscan : s.scanned = true) (h : s.tokens = []) :
    Parse.next s = (.ok none, s) := by
  have hcurrent : s.current = s.last := by rw [State.current, h]; rfl
  rw [next_checked hscan, hcurrent, if_pos (Parse.is_iff.mpr s.ends)]

end Program

end Abacus
