import Abacus.Proofs.Parse.Rules

/-!
# `Parse.Lookahead` — an action sees no further than the token it stops at

A rule that stops at a token has looked at the tokens in front of it and at that token, and at nothing else.
Other tokens behind it make no difference: not to the result, not to where the rule stops, and not to what it has
learnt or queued. If it fails, the token it stopped at is the one it names.

## Contents
- `Orderly` — actions that keep to the tokens, and what they maintain;
- `State.ahead` — all tokens still in front of the parser;
- `AgreesUpTo`, `agreeing` — states that agree up to a token, as a simulation;
- `Orderly.failure`, `Orderly.decided` — one token of lookahead.
-/

namespace Abacus
namespace Parse

variable {α : Type}

/-! ## Orderly actions -/

/-- Outcomes that correspond have states that do. -/
theorem Simulation.Matches.states {S : Simulation} {x y : Except Unexpected α × State} (h : S.Matches x y) :
    S.done x.2.tokens ∨ S.rel x.2 y.2 := by
  cases h with
  | done hd => exact .inl hd
  | ok hr => exact .inr hr
  | error hr => exact .inr hr

/-- The action does the same on states that no simulation tells apart, and passes at least `k` tokens when it
succeeds. -/
def Orderly (k : Nat) (p : Parse α) : Prop := ∀ (S : Simulation) (n : Nat), Follows S anyToken k n p p

/-- A property of states that passing a token, learning a name and queueing a definition keep. The token that ends
the program is not passed. -/
structure Maintained (I : State → Prop) : Prop where
  next : ∀ {s : State}, I s → s.current.kind ≠ .finish → I s.next
  learn : ∀ {s : State}, I s → ∀ name, I { s with known := name :: s.known }
  enqueue : ∀ {s : State}, I s → ∀ definition, I { s with queued := s.queued ++ [definition] }

/-- Equal states that have a property. -/
def Maintained.simulation {I : State → Prop} (h : Maintained I) : Simulation where
  rel s t := s = t ∧ I s
  done _ := False
  done_suffix hd _ := hd
  kind hr := by rw [hr.1]
  text hr := by rw [hr.1]
  known hr _ := by rw [hr.1]
  next hr hkind := .inr ⟨by rw [hr.1], h.next hr.2 hkind⟩
  learn hr name := ⟨by rw [hr.1], h.learn hr.2 name⟩
  enqueue hr definition := ⟨by rw [hr.1], h.enqueue hr.2 definition⟩
  shorter hr hr' hlt := by rw [← hr.1, ← hr'.1]; exact hlt

namespace Orderly

variable {k : Nat} {p : Parse α} {s t : State}

/-- It never goes back. -/
theorem suffix (h : Orderly k p) (s : State) : (p s).2.tokens <:+ s.tokens :=
  (h .refl 0).suffix s

theorem passes (h : Orderly k p) {a : α} (hs : p s = (.ok a, t)) : t.tokens.length + k ≤ s.tokens.length :=
  (h .refl 0).passes trivial hs

theorem maintains (h : Orderly k p) {I : State → Prop} (hI : Maintained I) (hs : I s) : I (p s).2 := by
  have hmatch := (h hI.simulation (s.tokens.length + 1)).outcome ⟨rfl, hs⟩ trivial (Nat.lt_succ_self _)
  rcases hmatch.states with hd | hr
  · exact absurd hd id
  · exact hr.2

/-- The token that ends the program stays where it is. -/
theorem last (h : Orderly k p) (s : State) : (p s).2.last = s.last :=
  h.maintains (I := fun u => u.last = s.last) ⟨fun hu _ => hu, fun hu _ => hu, fun hu _ => hu⟩ rfl

/-- **A failure is at the token where the action stopped.** -/
theorem failure (h : Orderly k p) {e : Unexpected} (hs : p s = (.error e, t)) : e = .ofToken t.current := by
  have hmatch : Simulation.refl.Matches (.error e, t) (p s) := by
    rw [← hs]
    exact (h .refl (s.tokens.length + 1)).outcome rfl trivial (Nat.lt_succ_self _)
  generalize p s = y at hmatch
  cases hmatch with
  | done hd => exact absurd hd id
  | error hr => rfl

end Orderly

/-! ## Tokens ahead -/

/-- The tokens from the current one on, with the one that ends the program. -/
def State.ahead (s : State) : List Token := s.tokens ++ [s.last]

@[simp] theorem State.length_ahead (s : State) : s.ahead.length = s.tokens.length + 1 := by
  simp [ahead]

/-- The current token is the first one ahead. -/
theorem State.head?_ahead (s : State) : s.ahead.head? = some s.current := by
  unfold ahead current
  cases s.tokens <;> rfl

theorem State.current_of_ahead {s : State} {t : Token} {ts : List Token} (h : s.ahead = t :: ts) :
    s.current = t := by
  have hhead := s.head?_ahead
  rw [h] at hhead
  exact (Option.some.inj hhead).symm

/-- Passing a token leaves those behind it. -/
theorem State.ahead_eq_cons {s : State} (h : s.current.kind ≠ .finish) :
    s.ahead = s.current :: s.next.ahead := by
  show s.tokens ++ [s.last] = s.current :: (s.next.tokens ++ [s.last])
  rw [State.tokens_eq_cons h]
  rfl

/-- What is ahead says which tokens are left, and which one is the last. -/
theorem State.ahead_inj {s t : State} (h : s.ahead = t.ahead) : s.tokens = t.tokens ∧ s.last = t.last := by
  obtain ⟨htokens, hlast⟩ := List.append_inj' h rfl
  exact ⟨htokens, List.singleton_inj.mp hlast⟩

/-! ## States that agree up to a token -/

/-- The tokens of the two states are the same up to some token, behind which the first one has `m` tokens and the
second one has those in `behind`. Nothing but tokens tells them apart. -/
structure AgreesUpTo (m : Nat) (behind : List Token) (s t : State) : Prop where
  ahead : ∃ front token rest, s.ahead = front ++ token :: rest ∧ rest.length = m ∧
    t.ahead = front ++ token :: behind
  known : t.known = s.known
  queued : t.queued = s.queued
  scanned : t.scanned = s.scanned

theorem AgreesUpTo.current {m : Nat} {behind : List Token} {s t : State} (h : AgreesUpTo m behind s t) :
    t.current = s.current := by
  obtain ⟨front, token, rest, hs, -, ht⟩ := h.ahead
  cases front with
  | nil => rw [State.current_of_ahead hs, State.current_of_ahead ht]
  | cons first front => rw [State.current_of_ahead hs, State.current_of_ahead ht]

/-- A state that stands at the token has only this one in common with the other state. -/
theorem AgreesUpTo.ahead_of_length {m : Nat} {behind : List Token} {s t : State}
    (h : AgreesUpTo m behind s t) (hm : s.tokens.length = m) : t.ahead = s.current :: behind := by
  obtain ⟨front, token, rest, hs, hrest, ht⟩ := h.ahead
  have hlen := congrArg List.length hs
  simp only [State.length_ahead, List.length_append, List.length_cons] at hlen
  have hfront : front = [] := List.length_eq_zero_iff.mp (by omega)
  subst hfront
  rw [ht, State.current_of_ahead hs]
  rfl

/-- Until the first state passes the token, no action can tell the two apart. -/
def agreeing (m : Nat) (behind : List Token) : Simulation where
  rel := AgreesUpTo m behind
  done ts := ts.length < m
  done_suffix h hsuf := Nat.lt_of_le_of_lt hsuf.length_le h
  kind h := by rw [h.current]
  text h := by rw [h.current]
  known h name := by rw [h.known]
  next {s t} h hkind := by
    obtain ⟨front, token, rest, hs, hrest, ht⟩ := h.ahead
    have hs' := State.ahead_eq_cons hkind
    have ht' := State.ahead_eq_cons (s := t) (by rw [h.current]; exact hkind)
    cases front with
    | nil =>
        -- the token itself is passed
        have hlen := congrArg List.length (hs'.symm.trans hs)
        simp only [List.length_cons, List.nil_append, State.length_ahead] at hlen
        exact .inl (by omega)
    | cons first front =>
        rw [hs'] at hs
        rw [ht'] at ht
        exact .inr ⟨⟨front, token, rest, (List.cons.inj hs).2, hrest, (List.cons.inj ht).2⟩,
          h.known, h.queued, h.scanned⟩
  learn h name := ⟨h.ahead, by simp only [h.known], h.queued, h.scanned⟩
  enqueue h d := ⟨h.ahead, h.known, by simp only [h.queued], h.scanned⟩
  shorter {s t s' t'} h h' hlt := by
    obtain ⟨front, token, rest, hs, hrest, ht⟩ := h.ahead
    obtain ⟨front', token', rest', hs', hrest', ht'⟩ := h'.ahead
    have hs := congrArg List.length hs
    have ht := congrArg List.length ht
    have hs' := congrArg List.length hs'
    have ht' := congrArg List.length ht'
    simp only [State.length_ahead, List.length_append, List.length_cons] at hs ht hs' ht'
    omega

namespace Orderly

variable {k : Nat} {p : Parse α} {s t : State}

/-- **One token of lookahead.** A state that agrees up to the token where the action stopped is taken to one that
stands at this token too, with the same result. -/
theorem decided (h : Orderly k p) {r : Except Unexpected α} (hs : p s = (r, t)) {behind : List Token}
    {s' : State} (hagree : AgreesUpTo t.tokens.length behind s s') :
    ∃ t', p s' = (r, t') ∧ t'.ahead = t.current :: behind ∧ t'.known = t.known ∧ t'.queued = t.queued ∧
      t'.scanned = t.scanned := by
  have hmatch := (h (agreeing t.tokens.length behind) (s.tokens.length + 1)).outcome hagree trivial
    (Nat.lt_succ_self _)
  rw [hs] at hmatch
  generalize p s' = y at hmatch ⊢
  cases hmatch with
  | done hd => exact absurd hd (Nat.lt_irrefl _)
  | ok hr => exact ⟨_, rfl, hr.ahead_of_length rfl, hr.known, hr.queued, hr.scanned⟩
  | @error _ t' hr =>
      refine ⟨t', ?_, hr.ahead_of_length rfl, hr.known, hr.queued, hr.scanned⟩
      rw [hr.current]

/-- The same, with other tokens behind the one where the action stopped. -/
theorem withTokens (h : Orderly k p) {r : Except Unexpected α} (hs : p s = (r, t)) {front : List Token}
    (hfront : s.tokens = front ++ t.tokens) (behind : List Token) :
    p (s.withTokens (front ++ t.current :: behind)) = (r, t.withTokens (t.current :: behind)) := by
  have hlast : t.last = s.last := by
    have hlast := h.last s
    rw [hs] at hlast
    exact hlast
  have hahead : s.ahead = front ++ t.ahead := by
    rw [State.ahead, State.ahead, hfront, hlast, List.append_assoc]
  obtain ⟨rest, hrest⟩ := List.head?_eq_some_iff.mp t.head?_ahead
  have hlen : rest.length = t.tokens.length := by
    have := congrArg List.length hrest
    simp only [State.length_ahead, List.length_cons] at this
    omega
  have hagree : AgreesUpTo t.tokens.length (behind ++ [s.last]) s
      (s.withTokens (front ++ t.current :: behind)) := by
    refine ⟨⟨front, t.current, rest, by rw [hahead, hrest], hlen, ?_⟩, rfl, rfl, rfl⟩
    show (front ++ t.current :: behind) ++ [s.last] = _
    rw [List.append_assoc, List.cons_append]
  obtain ⟨t', ht', hahead', hknown, hqueued, hscanned⟩ := h.decided hs hagree
  have hsame : t'.ahead = (t.withTokens (t.current :: behind)).ahead := by
    show t'.ahead = t.current :: (behind ++ [t.last])
    rw [hahead', hlast]
  obtain ⟨htokens, hlast'⟩ := State.ahead_inj hsame
  rw [ht']
  cases t'
  cases t
  cases htokens
  cases hlast'
  cases hknown
  cases hqueued
  cases hscanned
  rfl

end Orderly

end Parse
end Abacus
