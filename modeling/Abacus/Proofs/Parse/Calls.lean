import Abacus.Proofs.Parse.FirstMisfit

/-!
# `Parse.Calls` — any calls on any tokens

A parser can be given tokens that no text has, with `END` anywhere or nowhere, and can be called in any order, also
after a failure. Every call ends, since a rule passes a token before it comes back to itself; and no call passes a
token that ends the program, so the parser stays in front of the first of them.

## Contents
- `nested`, `Terminates`, `RulesTerminate` — recursion without its bound;
- `Call`, `State.afterCalls` — calls one after the other;
- `Kept` — what every call keeps;
- `Reaches`, `cursorIn` — where the parser stands.
-/

namespace Abacus
namespace Parse

variable {α β : Type}

/-! ## Rounds without a bound -/

/-- `n` rounds of `step` inside each other, with `beyond` where one more would begin. -/
def nested (step : (α → Parse β) → α → Parse β) (beyond : α → Parse β) : Nat → α → Parse β
  | 0 => beyond
  | n + 1 => step (nested step beyond n)

/-- The recursion ends by itself: from any state it goes no deeper than the tokens left allow, so what would be done
beyond that makes no difference. -/
def Terminates (step : (α → Parse β) → α → Parse β) : Prop :=
  ∀ (beyond : α → Parse β) (n : Nat) (a : α) (s : State), s.tokens.length < n →
    nested step beyond n a s = recurse step a s

section Rounds

variable {k : Nat} {step : (α → Parse β) → α → Parse β}
  (h : ∀ n, ∀ f g : α → Parse β, (∀ a, Follows .refl anyToken k (n - 1) (f a) (g a)) →
    ∀ a, Follows .refl anyToken k n (step f a) (step g a))

include h

/-- On fewer than `n` tokens, `n` rounds do all that the recursion does. -/
theorem recurse_follows_nested (beyond : α → Parse β) (n : Nat) :
    ∀ a, Follows .refl anyToken k n (recurse step a) (nested step beyond n a) := by
  induction n with
  | zero =>
      intro a
      have hself : Follows .refl anyToken k 0 (recurse step a) (recurse step a) := .recurse (fun l _ => h l) a
      exact ⟨hself.suffix, hself.passes, fun _ _ hlt => absurd hlt (Nat.not_lt_zero _)⟩
  | succ n ih =>
      intro a
      rw [recurse_eq h]
      exact h (n + 1) _ _ ih a

/-- A recursion that passes a token before it comes back to itself ends. -/
theorem terminates_of_follows : Terminates step := by
  intro beyond n a s hlt
  exact ((recurse_follows_nested h beyond n a).outcome rfl trivial hlt).eq.symm

end Rounds

/-- A statement that is read has at least one token. -/
theorem length_lt_of_next {s u : State} {n : Term} (h : next s = (.ok (some n), u)) :
    u.tokens.length < s.tokens.length := by
  obtain ⟨known, defs, rest, hstatement, rfl⟩ := next_eq_some h
  exact hstatement.before.length_lt

/-- A round of `all` goes on behind a statement only. -/
theorem allStep_congr {f g : Unit → Parse (List Term)} {s : State}
    (h : ∀ t : State, t.tokens.length < s.tokens.length → f () t = g () t) :
    allStep f () s = allStep g () s := by
  unfold allStep
  rw [bind_apply, bind_apply]
  split
  · next r t hnext =>
    cases r with
    | none => rfl
    | some head =>
        simp only [bind_apply]
        rw [h t (length_lt_of_next hnext)]
  · rfl

/-- Reading all statements ends: each of them has a token. -/
theorem allStep_terminates : Terminates allStep := by
  have within : ∀ (beyond : Unit → Parse (List Term)) (n : Nat) (bound : List Token) (s : State),
      s.tokens.length < n → s.tokens.length ≤ bound.length →
      nested allStep beyond n () s = recurseWithin allStep bound () s := by
    intro beyond n
    induction n with
    | zero => intro bound s hlt _; exact absurd hlt (Nat.not_lt_zero _)
    | succ n ih =>
        intro bound s hlt hbound
        cases bound with
        | nil =>
            rw [List.length_nil] at hbound
            exact allStep_congr fun t ht => absurd ht (by omega)
        | cons t₀ bound =>
            rw [List.length_cons] at hbound
            exact allStep_congr fun t ht => ih bound t (by omega) (by omega)
  intro beyond n a s hlt
  exact within beyond n s.tokens s hlt (Nat.le_refl _)

/-- Every recursion of the grammar ends. -/
structure RulesTerminate : Prop where
  arguments : ∀ closing : Token.Kind, closing ≠ .finish → Terminates (itemsStep closing expression)
  params : Terminates (itemsStep .rightParen name)
  operations : ∀ level tighter, Terminates (chainStep level (ladder tighter (operand expression)))
  expressions : Terminates fun expression (_ : Unit) => assignment (expression ())
  conditions : Terminates conditionStep
  blocks : Terminates (statementsStep statement)
  statements : Terminates fun statement (_ : Unit) => statementStep (statement ())
  programs : Terminates allStep

theorem rulesTerminate : RulesTerminate where
  arguments _ hc := terminates_of_follows (fun _ _ _ hfg => itemsStep_follows hc expression_follows hfg)
  params := terminates_of_follows (fun _ _ _ hfg => itemsStep_follows (by decide) name_follows hfg)
  operations _ tighter := terminates_of_follows (fun _ _ _ hfg => chainStep_follows (ladder_orderly tighter _ _) hfg)
  expressions := terminates_of_follows (fun _ _ _ hfg _ => assignment_follows (hfg ()))
  conditions := terminates_of_follows (fun _ _ _ hfg => conditionStep_follows hfg)
  blocks := terminates_of_follows (fun _ _ _ hfg => statementsStep_follows statement_follows hfg)
  statements := terminates_of_follows (fun _ _ _ hfg _ => statementStep_follows (hfg ()))
  programs := allStep_terminates

/-! ## Calls -/

/-- What a parser can be asked for. -/
inductive Call where
  | next
  | expression
  | all
  | takeDefinitions
deriving DecidableEq, Repr

/-- The state that a call leaves, whether it succeeds or fails. -/
def Call.after : Call → State → State
  | .next, s => (Parse.next s).2
  | .expression, s => (Parse.expression s).2
  | .all, s => (Parse.all s).2
  | .takeDefinitions, s => (Parse.takeDefinitions s).2

/-- The state behind calls made one after the other. -/
def State.afterCalls (s : State) (calls : List Call) : State := calls.foldl (fun t call => call.after t) s

/-! ## What calls keep -/

/-- A property of states that no call can break: what the rules do keeps it, and so do the check of the parentheses
and taking the queue. -/
structure Kept (I : State → Prop) : Prop extends Maintained I where
  checked : ∀ {s : State}, I s → I s.checked
  taken : ∀ {s : State}, I s → I { s with queued := [] }

namespace Kept

variable {I : State → Prop} (h : Kept I) {s : State}

include h

theorem afterNext (hs : I s) : I (next s).2 := by
  have hscanned : ∀ {t : State}, t.scanned = true → I t → I (next t).2 := by
    intro t hscan ht
    rw [next_eq_nextChecked hscan]
    exact nextChecked_orderly.maintains h.toMaintained ht
  by_cases hscan : s.scanned = true
  · exact hscanned hscan hs
  · rw [next_unchecked (by simpa using hscan)]
    split
    · exact h.checked hs
    · exact hscanned rfl (h.checked hs)

/-- One round of reading all statements. -/
theorem afterRound {f : Unit → Parse (List Term)} (hf : ∀ {t : State}, I t → I (f () t).2) (hs : I s) :
    I (allStep f () s).2 := by
  have hnext := h.afterNext hs
  unfold allStep
  rw [bind_apply]
  split
  · next r t ht =>
    rw [ht] at hnext
    cases r with
    | none => exact hnext
    | some head =>
        have htail := hf hnext
        simp only [bind_apply]
        split
        · next tail u hu => rw [hu] at htail; exact htail
        · next e u hu => rw [hu] at htail; exact htail
  · next e t ht => rw [ht] at hnext; exact hnext

/-- Reading everything is reading statements one by one, and each of these keeps the invariant. -/
theorem afterAll (hs : I s) : I (all s).2 :=
  recurseWithin_induction (P := fun f => ∀ {t : State}, I t → I (f () t).2) (fun ht => ht)
    (fun _ hf => h.afterRound hf) s.tokens hs

/-- Each call to the parser keeps what its statements keep, whether it fails or not. -/
theorem after (call : Call) (hs : I s) : I (call.after s) := by
  cases call with
  | next => exact h.afterNext hs
  | expression => exact expression_orderly.maintains h.toMaintained hs
  | all => exact h.afterAll hs
  | takeDefinitions => exact h.taken hs

theorem afterCalls (calls : List Call) (hs : I s) : I (s.afterCalls calls) := by
  induction calls generalizing s with
  | nil => exact hs
  | cons call calls ih => exact ih (h.after call hs)

end Kept

/-! ## Where the parser stands -/

/-- From `start`, tokens that do not end the program have been passed to reach `s`. -/
def Reaches (start s : State) : Prop :=
  ∃ front, start.ahead = front ++ s.ahead ∧ ∀ t ∈ front, t.kind ≠ .finish

theorem reaches_kept (start : State) : Kept (Reaches start) where
  next {s} hs hkind := by
    obtain ⟨front, hfront, hpassed⟩ := hs
    refine ⟨front ++ [s.current], ?_, ?_⟩
    · rw [hfront, State.ahead_eq_cons hkind, List.append_assoc]
      rfl
    · intro t ht
      rcases List.mem_append.mp ht with ht | ht
      · exact hpassed t ht
      · rw [List.mem_singleton.mp ht]
        exact hkind
  learn hs _ := hs
  enqueue hs _ := hs
  checked hs := hs
  taken hs := hs

theorem reaches_refl (s : State) : Reaches s s := ⟨[], rfl, by simp⟩

/-- The parser has passed the parentheses' check and stands at a token that ends the program. -/
def AtEnd (s : State) : Prop := s.scanned = true ∧ s.current.kind = .finish

theorem atEnd_kept : Kept AtEnd where
  next hs hkind := absurd hs.2 hkind
  learn hs _ := hs
  enqueue hs _ := hs
  checked hs := ⟨rfl, hs.2⟩
  taken hs := hs

/-- At the end there is nothing to read, as often as one asks. -/
theorem AtEnd.next_eq {s : State} (h : AtEnd s) : next s = (.ok none, s) := by
  rw [next_checked h.1, if_pos (is_iff.mpr h.2)]

/-- How many of the tokens of `start` have been passed to reach `s`. -/
def cursorIn (start s : State) : Nat := start.ahead.length - s.ahead.length

/-- What is true of a parser made in the state `start`, wherever its calls have taken it. -/
structure CursorSafe (start s : State) : Prop where
  /-- There is a token at the cursor. -/
  valid : cursorIn start s < start.ahead.length
  /-- What is left are the tokens from the cursor on. -/
  ahead : s.ahead = start.ahead.drop (cursorIn start s)
  /-- No token in front of the cursor ends the program. -/
  unpassed : cursorIn start s ≤ start.ahead.findIdx (Token.is .finish)
  /-- No call moves the cursor back. -/
  forward : ∀ call : Call, cursorIn start s ≤ cursorIn start (call.after s)
  /-- A statement that is read moves it on. -/
  moved : ∀ {n u}, next s = (.ok (some n), u) → cursorIn start s < cursorIn start u
  /-- From an end on, no call finds a statement. -/
  ended : AtEnd s → ∀ calls, next (s.afterCalls calls) = (.ok none, s.afterCalls calls)

theorem cursorIn_eq {start s : State} {front : List Token} (h : start.ahead = front ++ s.ahead) :
    cursorIn start s = front.length := by
  rw [cursorIn, h, List.length_append, Nat.add_sub_cancel]

theorem Reaches.cursorIn_le {start s t : State} (h : Reaches start s) (ht : Reaches s t) :
    cursorIn start s ≤ cursorIn start t := by
  obtain ⟨front, hfront, -⟩ := h
  obtain ⟨front', hfront', -⟩ := ht
  have hall : start.ahead = (front ++ front') ++ t.ahead := by rw [hfront, hfront', List.append_assoc]
  rw [cursorIn_eq hfront, cursorIn_eq hall, List.length_append]
  omega

/-- The cursor moves along the tokens, and never behind their end. -/
theorem Reaches.cursorSafe {start s : State} (h : Reaches start s) : CursorSafe start s := by
  have ⟨front, hfront, hpassed⟩ := h
  have hcursor := cursorIn_eq hfront
  have hlen := congrArg List.length hfront
  rw [List.length_append, State.length_ahead, State.length_ahead] at hlen
  refine ⟨?_, ?_, ?_, fun call => ?_, fun hnext => ?_, fun hend calls => ?_⟩
  · rw [hcursor, State.length_ahead]
    omega
  · rw [hcursor, hfront, List.drop_left]
  · have hnone : front.findIdx (Token.is .finish) = front.length :=
      List.findIdx_eq_length_of_false fun t ht => is_eq_false_iff.mpr (hpassed t ht)
    rw [hcursor, hfront, List.findIdx_append, if_neg (by omega)]
    exact Nat.le_add_left _ _
  · exact h.cursorIn_le ((reaches_kept s).after call (reaches_refl s))
  · have hlt := length_lt_of_next hnext
    simp only [cursorIn, State.length_ahead]
    omega
  · exact (atEnd_kept.afterCalls calls hend).next_eq

/-- The tokens of a new parser are the given ones; if none of them is the last token of a program, `END` follows. -/
theorem ahead_ofTokens (tokens : List Token) (known : List String) :
    ((∃ last ∈ tokens.getLast?, last.kind = .finish) ∧ (State.ofTokens tokens known).ahead = tokens) ∨
      ((∀ last ∈ tokens.getLast?, last.kind ≠ .finish) ∧
        ∃ pos, (State.ofTokens tokens known).ahead = tokens ++ [.finish pos]) := by
  unfold State.ofTokens
  split
  · next hlast =>
    rw [List.getLast?_eq_none_iff] at hlast
    subst hlast
    exact .inr ⟨by simp, _, rfl⟩
  · next last hlast =>
    split
    · next hends =>
      obtain ⟨front, rfl⟩ := List.getLast?_eq_some_iff.mp hlast
      refine .inl ⟨⟨last, hlast, hends⟩, ?_⟩
      rw [State.ahead, List.dropLast_concat]
    · next hends =>
      refine .inr ⟨?_, _, rfl⟩
      rintro t ht
      rw [hlast] at ht
      cases ht
      exact hends

/-- **The parser is safe and ends on any tokens and in any order of calls.** Every recursion ends. The tokens are the
given ones, with `END` behind them if they do not end in it. Wherever calls have taken the parser, the failed ones too:
its cursor is a valid one, not behind the first token that ends the program; no call moves it back; a statement that is
read moves it on; and from an end on, behind the check of the parentheses, no further call finds a statement. -/
theorem calls_safe (tokens : List Token) (known : List String) :
    RulesTerminate ∧
    (((∃ last ∈ tokens.getLast?, last.kind = .finish) ∧ (State.ofTokens tokens known).ahead = tokens) ∨
      ((∀ last ∈ tokens.getLast?, last.kind ≠ .finish) ∧
        ∃ pos, (State.ofTokens tokens known).ahead = tokens ++ [.finish pos])) ∧
    ∀ calls : List Call,
      CursorSafe (State.ofTokens tokens known) ((State.ofTokens tokens known).afterCalls calls) := by
  refine ⟨rulesTerminate, ahead_ofTokens tokens known, fun calls => ?_⟩
  exact ((reaches_kept _).afterCalls calls (reaches_refl _)).cursorSafe

/-- Tokens with an `END` inside, which nothing passes: the failed call for an expression and the calls behind it all
stay at the second token, and what follows is never read. -/
theorem calls_safe_inner_end :
    let start := State.ofTokens [⟨.boolean, "true", ⟨1, 1⟩⟩, .finish ⟨1, 5⟩, ⟨.boolean, "true", ⟨1, 6⟩⟩] []
    let s := start.afterCalls [.next, .expression, .all]
    AtEnd s ∧ cursorIn start s = 1 ∧
      ∀ calls, next (s.afterCalls calls) = (.ok none, s.afterCalls calls) := by
  intro start s
  have hs : s = start.next.checked := rfl
  have hend : AtEnd s := by
    rw [hs]
    exact ⟨rfl, rfl⟩
  exact ⟨hend, by rw [hs]; rfl, ((calls_safe _ []).2.2 [.next, .expression, .all]).ended hend⟩

end Parse
end Abacus
