import Abacus.Proofs.Grammar.ProgramReading
import Abacus.Proofs.Parse.CompletionRules

/-!
# `Parse.FirstMisfit` — a failure is at the first token that cannot fit

Put together, of calls from any cursor into any tokens: a failure names the token at the cursor where the call stopped
(`Orderly.failure`); tokens behind this cursor do not matter (`Orderly.decided`); and the tokens in front of a failure
are the beginning of something that the call accepts (`completed`). So no earlier token could be blamed, and this one
has to be.

## Contents
- `StopsAt` — a call, the cursor where it stops and what it leaves;
- `FirstMisfit` — the three properties;
- `FirstMisfit.of_orderly` — they hold of every action that is orderly and can be completed.
-/

namespace Abacus
namespace Parse

open Grammar (cursor)

variable {α : Type}

/-! ## Calls at a cursor -/

/-- Called at cursor `i` into the tokens of `s`, the action stops at cursor `j` with the result `r` and leaves `u`. -/
structure StopsAt (p : Parse α) (s : State) (i j : Nat) (r : Except Unexpected α) (u : State) : Prop where
  result : p (cursor s i) = (r, u)
  forward : i ≤ j
  inside : j ≤ s.tokens.length
  place : u.ahead = s.ahead.drop j

/-- What a call at cursor `i` promises about the token where it stops. -/
structure FirstMisfit (p : Parse α) (s : State) (i : Nat) : Prop where
  /-- The call ends at a cursor. -/
  stops : ∃ j r u, StopsAt p s i j r u
  /-- A failure has the text and the position of the token at this cursor. -/
  named : ∀ {j e u}, StopsAt p s i j (.error e) u → ∃ t, s.ahead[j]? = some t ∧ e = ⟨t.text, t.pos⟩
  /-- Only the tokens up to this one count. -/
  decided : ∀ {j r u}, StopsAt p s i j r u → ∀ s' : State, s'.known = s.known → s'.queued = s.queued →
    s'.scanned = s.scanned → s'.ahead.take (j + 1) = s.ahead.take (j + 1) →
    ∃ u', StopsAt p s' i j r u' ∧ u'.known = u.known ∧ u'.queued = u.queued
  /-- With other tokens from this one on, the call succeeds. -/
  completed : ∀ {j e u}, StopsAt p s i j (.error e) u →
    ∃ more k a u', StopsAt p (s.withTokens (s.tokens.take j ++ more)) i k (.ok a) u'

/-- What is ahead at a cursor. -/
theorem ahead_cursor {s : State} {i : Nat} (hi : i ≤ s.tokens.length) :
    (cursor s i).ahead = s.ahead.drop i :=
  (List.drop_append_of_le_length hi).symm

theorem StopsAt.tokens_eq {p : Parse α} {s u : State} {i j : Nat} {r : Except Unexpected α}
    (h : StopsAt p s i j r u) : u.tokens = s.tokens.drop j := by
  have hplace : u.ahead = (cursor s j).ahead := h.place.trans (ahead_cursor h.inside).symm
  exact (State.ahead_inj hplace).1

/-- The token where the call stops stands behind `j` others. -/
theorem StopsAt.split {p : Parse α} {s u : State} {i j : Nat} {r : Except Unexpected α}
    (h : StopsAt p s i j r u) :
    ∃ front rest, s.ahead = front ++ u.current :: rest ∧ front.length = j ∧ rest.length = u.tokens.length := by
  obtain ⟨rest, hrest⟩ := List.head?_eq_some_iff.mp u.head?_ahead
  have hlen := congrArg List.length hrest
  have hinside := h.inside
  rw [State.length_ahead, List.length_cons] at hlen
  refine ⟨s.ahead.take j, rest, ?_, ?_, by omega⟩
  · rw [← hrest, h.place, List.take_append_drop]
  · rw [List.length_take, State.length_ahead]
    omega

/-- A list that begins like another one goes on behind the token they share. -/
theorem eq_append_cons_of_take {ts front rest : List Token} {t : Token}
    (h : ts.take (front.length + 1) = (front ++ t :: rest).take (front.length + 1)) :
    ts = front ++ t :: ts.drop (front.length + 1) := by
  calc ts = ts.take (front.length + 1) ++ ts.drop (front.length + 1) := (List.take_append_drop _ _).symm
    _ = (front ++ [t]) ++ ts.drop (front.length + 1) := by rw [h, List.take_length_add_append]; rfl
    _ = front ++ t :: ts.drop (front.length + 1) := List.append_assoc ..

/-! ## Orderly actions -/

namespace Orderly

variable {k i : Nat} {p : Parse α} {s u : State} {r : Except Unexpected α}

/-- An action that never goes back stops at a cursor. -/
theorem stopsAt (h : Orderly k p) (hi : i ≤ s.tokens.length) (hp : p (cursor s i) = (r, u)) :
    ∃ j, StopsAt p s i j r u := by
  have hsuf := h.suffix (cursor s i)
  have hlast := h.last (cursor s i)
  rw [hp] at hsuf hlast
  obtain ⟨front, hfront⟩ := hsuf
  have hfront : front ++ u.tokens = s.tokens.drop i := hfront
  have hlen := congrArg List.length hfront
  rw [List.length_append, List.length_drop] at hlen
  refine ⟨i + front.length, hp, by omega, by omega, ?_⟩
  rw [← List.drop_drop, ← ahead_cursor hi]
  show u.tokens ++ [u.last] = (s.tokens.drop i ++ [s.last]).drop front.length
  rw [← hfront, List.append_assoc, List.drop_left, hlast]
  rfl

end Orderly

theorem FirstMisfit.of_orderly {k : Nat} {Q : Token → Prop} {w : List Token} {p : Parse α} (horderly : Orderly k p)
    (hstart : Starts w Q p) (hresume : ∀ n, Resumes Q n p) {s : State} {i : Nat} (hi : i ≤ s.tokens.length) :
    FirstMisfit p s i where
  stops := by
    obtain ⟨j, hj⟩ := horderly.stopsAt hi (show p (cursor s i) = (_, _) from rfl)
    exact ⟨j, _, _, hj⟩
  named {j e u} h := by
    refine ⟨u.current, ?_, horderly.failure h.result⟩
    rw [← List.head?_drop, ← h.place, u.head?_ahead]
  decided {j r u} h s' hknown hqueued hscanned htake := by
    obtain ⟨front, rest, hs, rfl, hrest⟩ := h.split
    rw [hs] at htake
    have hs' := eq_append_cons_of_take htake
    have hi' : front.length ≤ s'.tokens.length := by
      have hlen := congrArg List.length hs'
      rw [List.length_append, List.length_cons, State.length_ahead] at hlen
      omega
    -- from cursor `i` on, the other tokens are the same up to the one where the call stopped
    have hagree : AgreesUpTo u.tokens.length (s'.ahead.drop (front.length + 1)) (cursor s i) (cursor s' i) := by
      refine ⟨⟨front.drop i, u.current, rest, ?_, hrest, ?_⟩, hknown, hqueued, hscanned⟩
      · rw [ahead_cursor hi, hs, List.drop_append_of_le_length h.forward]
      · rw [ahead_cursor (Nat.le_trans h.forward hi')]
        conv => lhs; rw [hs']
        exact List.drop_append_of_le_length h.forward
    obtain ⟨u', hu', hahead, hknown', hqueued', -⟩ := horderly.decided h.result hagree
    refine ⟨u', ⟨hu', h.forward, hi', ?_⟩, hknown', hqueued'⟩
    rw [hahead]
    conv => rhs; rw [hs']
    exact List.drop_left.symm
  completed {j e u} h := by
    obtain ⟨front, hfront, more, a, u', hu'⟩ := Parse.completed hstart hresume (cursor s i)
    rw [h.result, h.tokens_eq] at hfront
    have hlen : (s.tokens.take j).length = j := List.length_take_of_le h.inside
    -- what was passed are the tokens between the two cursors
    have hpassed : front = (s.tokens.take j).drop i := by
      have hsame : front ++ s.tokens.drop j = (s.tokens.take j).drop i ++ s.tokens.drop j := by
        rw [← List.drop_append_of_le_length (by rw [hlen]; exact h.forward), List.take_append_drop]
        exact hfront.symm
      exact List.append_cancel_right hsame
    have hcursor : cursor (s.withTokens (s.tokens.take j ++ more)) i = (cursor s i).withTokens (front ++ more) := by
      show s.withTokens ((s.tokens.take j ++ more).drop i) = s.withTokens (front ++ more)
      rw [List.drop_append_of_le_length (by rw [hlen]; exact h.forward), hpassed]
    rw [← hcursor] at hu'
    have hi' : i ≤ (s.withTokens (s.tokens.take j ++ more)).tokens.length := by
      have := h.forward
      rw [State.withTokens_tokens, List.length_append, hlen]
      omega
    obtain ⟨k, hk⟩ := horderly.stopsAt hi' hu'
    exact ⟨more, k, a, u', hk⟩

/-! ## The next statement -/

/-- The next statement, where the parentheses have been checked. -/
def nextChecked : Parse (Option Term) := do
  if (← look).is .finish then
    return none
  else
    return some (← statement)

theorem next_eq_nextChecked {s : State} (h : s.scanned = true) : next s = nextChecked s := by
  have hcheck : checkParens s = (.ok (), s) := by simp [checkParens, h]
  exact bind_of_ok hcheck

theorem nextChecked_orderly : Orderly 0 nextChecked := by
  intro S n
  refine .look fun a b hkind _ => ?_
  rw [show b.is .finish = a.is .finish from by simp [Token.is, hkind]]
  split
  · exact .pure _
  · exact (statement_follows.loose.andThen fun n => .pure _).anywhere

theorem nextChecked_starts : Starts [Filler.truth, Filler.semicolon] anyToken nextChecked :=
  .look statement_starts.andPure

theorem nextChecked_resumes (n : Nat) : Resumes anyToken n nextChecked := by
  refine .look fun t => ?_
  split
  · exact .pure _
  · exact .andPure statement_orderly (statement_resumes n)

/-- Behind the check of the parentheses, calls for the next statement are calls of `nextChecked`. -/
theorem stopsAt_next {s u : State} {i j : Nat} {r : Except Unexpected (Option Term)} (h : s.scanned = true) :
    StopsAt next s i j r u ↔ StopsAt nextChecked s i j r u := by
  have hsame : next (cursor s i) = nextChecked (cursor s i) := next_eq_nextChecked h
  exact ⟨fun hs => ⟨hsame ▸ hs.result, hs.forward, hs.inside, hs.place⟩,
    fun hs => ⟨hsame ▸ hs.result, hs.forward, hs.inside, hs.place⟩⟩

theorem FirstMisfit.next {s : State} {i : Nat} (hs : s.scanned = true) (h : FirstMisfit nextChecked s i) :
    FirstMisfit Parse.next s i where
  stops := by
    obtain ⟨j, r, u, hj⟩ := h.stops
    exact ⟨j, r, u, (stopsAt_next hs).mpr hj⟩
  named hj := h.named ((stopsAt_next hs).mp hj)
  decided hj s' hknown hqueued hscanned htake := by
    obtain ⟨u', hu', hrest⟩ := h.decided ((stopsAt_next hs).mp hj) s' hknown hqueued hscanned htake
    exact ⟨u', (stopsAt_next (hscanned.trans hs)).mpr hu', hrest⟩
  completed {j _ _} hj := by
    obtain ⟨more, k, a, u', hk⟩ := h.completed ((stopsAt_next hs).mp hj)
    have hs' : (s.withTokens (s.tokens.take j ++ more)).scanned = true := hs
    exact ⟨more, k, a, u', (stopsAt_next hs').mpr hk⟩

/-- **The parser reports the earliest token that cannot fit, and decides with one token of lookahead.** From any cursor
into any tokens, whatever is known: a statement, an expression, and the next statement of a program whose parentheses
have been checked end at a cursor. A failure is the one of the token there; the tokens behind it make no difference; and
the tokens in front of it can be continued so that the same call succeeds. -/
theorem calls_report_first_misfit (s : State) {i : Nat} (hi : i ≤ s.tokens.length) :
    FirstMisfit statement s i ∧ FirstMisfit expression s i ∧
      (s.scanned = true → FirstMisfit next s i) := by
  refine ⟨?_, ?_, fun hs => ?_⟩
  · exact .of_orderly statement_orderly statement_starts statement_resumes hi
  · exact .of_orderly expression_orderly expression_starts expression_resumes hi
  · exact .next hs (.of_orderly nextChecked_orderly nextChecked_starts nextChecked_resumes hi)

/-- The known name `f` in a condition is read only because a semicolon follows, which then is the misfit; behind `if f`
a call can still be written. -/
theorem calls_report_first_misfit_condition :
    let s := parserOf [⟨.identifier, "if", ⟨1, 1⟩⟩, ⟨.identifier, "f", ⟨1, 4⟩⟩, ⟨.semicolon, ";", ⟨1, 5⟩⟩] ⟨1, 6⟩ ["f"]
    StopsAt next s 0 2 (.error ⟨";", ⟨1, 5⟩⟩) (s.withTokens [⟨.semicolon, ";", ⟨1, 5⟩⟩]) ∧
      ∃ more k a u, StopsAt next (s.withTokens (s.tokens.take 2 ++ more)) 0 k (.ok a) u := by
  intro s
  have hstop : StopsAt next s 0 2 (.error ⟨";", ⟨1, 5⟩⟩) (s.withTokens [⟨.semicolon, ";", ⟨1, 5⟩⟩]) :=
    ⟨rfl, by decide, by decide, rfl⟩
  exact ⟨hstop, ((calls_report_first_misfit s (i := 0) (by decide)).2.2 rfl).completed hstop⟩

end Parse
end Abacus
