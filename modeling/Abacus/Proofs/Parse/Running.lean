import Abacus.Parse.Basic

/-!
# `Parse.Running` — what an action does to a state

The equations by which a sequence of actions is run: forwards, on tokens that are known, and backwards, from
the fact that it succeeded.

## Contents
- `bind_apply`, `bind_eq_ok`, `accept_apply`, `expect_apply` — any state;
- `State.withTokens` — the states that an expression can lead to;
- `WordTest` — the tests that the rules put to tokens;
- `accept_ite_yes`, `accept_ite_no`, `expect_bind` — forwards;
- `expect_eq_ok`, `accept_bind_eq_ok` — backwards.
-/

namespace Abacus
namespace Parse

variable {α β : Type}

/-! ## Running a sequence -/

/-- A failure of the first action is one of the sequence, and leaves its state. -/
theorem bind_apply (p : Parse α) (f : α → Parse β) (s : State) :
    (p >>= f) s = match p s with
      | (.ok a, t) => f a t
      | (.error e, t) => (.error e, t) := rfl

theorem pure_apply (a : α) (s : State) : (pure a : Parse α) s = (.ok a, s) := rfl

theorem look_bind (f : Token → Parse β) (s : State) : (look >>= f) s = f s.current s := rfl

theorem advance_bind (f : Unit → Parse β) (s : State) : (advance >>= f) s = f () s.next := rfl

/-- Behind a success the second action goes on. -/
theorem bind_of_ok {p : Parse α} {f : α → Parse β} {s t : State} {a : α} (h : p s = (.ok a, t)) :
    (p >>= f) s = f a t := by
  rw [bind_apply, h]

/-- A sequence succeeds when both of its parts do. -/
theorem bind_eq_ok {p : Parse α} {f : α → Parse β} {s u : State} {b : β} :
    (p >>= f) s = (.ok b, u) ↔ ∃ a t, p s = (.ok a, t) ∧ f a t = (.ok b, u) := by
  rw [bind_apply]
  constructor
  · intro h
    split at h
    · next a t hp => exact ⟨a, t, hp, h⟩
    · cases h
  · rintro ⟨a, t, hp, hf⟩
    rw [hp]
    exact hf

/-- Accepting a token never fails; whether it was passed is the result. -/
theorem accept_apply (test : Token → Bool) (s : State) :
    accept test s = if test s.current then (.ok true, s.next) else (.ok false, s) := by
  unfold accept
  rw [bind_apply]
  simp only [look]
  split <;> rfl

/-- Expecting a token fails at the token in front, which is then not passed. -/
theorem expect_apply (test : Token → Bool) (s : State) :
    expect test s =
      if test s.current then (.ok s.current, s.next) else (.error (.ofToken s.current), s) := by
  unfold expect
  rw [bind_apply]
  simp only [look]
  split <;> rfl

/-! ## Tokens -/

/-- The state with other tokens still to be read. -/
def State.withTokens (s : State) (tokens : List Token) : State := { s with tokens }

section WithTokens

variable (s : State) (t : Token) (ts us : List Token)

@[simp] theorem State.withTokens_tokens : (s.withTokens ts).tokens = ts := rfl
@[simp] theorem State.withTokens_known : (s.withTokens ts).known = s.known := rfl
@[simp] theorem State.withTokens_queued : (s.withTokens ts).queued = s.queued := rfl
@[simp] theorem State.withTokens_last : (s.withTokens ts).last = s.last := rfl
@[simp] theorem State.withTokens_withTokens : (s.withTokens ts).withTokens us = s.withTokens us := rfl
@[simp] theorem State.withTokens_self : s.withTokens s.tokens = s := rfl
@[simp] theorem State.current_cons : (s.withTokens (t :: ts)).current = t := rfl
@[simp] theorem State.next_cons : (s.withTokens (t :: ts)).next = s.withTokens ts := rfl

end WithTokens

/-- Passing the first of the tokens leaves the others. -/
theorem State.next_eq {s : State} {t : Token} {ts : List Token} (h : s.tokens = t :: ts) :
    s.next = s.withTokens ts := by
  rw [State.next, State.withTokens, h, List.tail_cons]

/-- The first of the tokens is the current one. -/
theorem State.current_eq {s : State} {t : Token} {ts : List Token} (h : s.tokens = t :: ts) :
    s.current = t := by
  rw [State.current, h, List.headD_cons]

/-- The first token still to be read is the current one. -/
theorem State.current_of_mem {s : State} {t : Token} (h : t ∈ s.tokens.head?) : s.current = t := by
  cases hts : s.tokens with
  | nil => rw [hts] at h; cases h
  | cons t' ts => rw [hts] at h; cases h; exact State.current_eq hts

/-- Only the last token is current when none is left in front of it. -/
theorem State.tokens_ne_nil {s : State} (h : s.current.kind ≠ .finish) : s.tokens ≠ [] := by
  intro hnil
  apply h
  rw [State.current, hnil]
  exact s.ends

/-- A current token that does not end the program is the first of those still to be read. -/
theorem State.tokens_eq_cons {s : State} (h : s.current.kind ≠ .finish) :
    s.tokens = s.current :: s.next.tokens := by
  have hne := State.tokens_ne_nil h
  cases hts : s.tokens with
  | nil => exact absurd hts hne
  | cons t ts => rw [State.current_eq hts, State.next_eq hts, State.withTokens_tokens]

/-- Passing a token leaves one less, unless the program has ended. -/
theorem State.length_next {s : State} (h : s.current.kind ≠ .finish) :
    s.next.tokens.length + 1 = s.tokens.length := by
  have hne := State.tokens_ne_nil h
  cases hts : s.tokens with
  | nil => exact absurd hts hne
  | cons t ts => simp [State.next, hts]

theorem State.next_suffix (s : State) : s.next.tokens <:+ s.tokens := List.tail_suffix _

theorem is_iff {kind : Token.Kind} {t : Token} : t.is kind = true ↔ t.kind = kind := by
  simp [Token.is]

theorem is_eq_false_iff {kind : Token.Kind} {t : Token} : t.is kind = false ↔ t.kind ≠ kind := by
  simp [Token.is]

/-- A token of one kind is not of another. -/
theorem is_eq_false {kind kind' : Token.Kind} {t : Token} (h : t.kind = kind')
    (hne : kind' ≠ kind) : t.is kind = false := by
  rw [is_eq_false_iff, h]
  exact hne

/-- A test that looks at the kind and the text of a token and refuses the one that ends the program. -/
structure WordTest (test : Token → Bool) : Prop where
  congr : ∀ {a b : Token}, a.kind = b.kind → a.text = b.text → test a = test b
  refuses : ∀ {t : Token}, test t = true → t.kind ≠ .finish

/-- Every kind but that of `END` is such a test. -/
theorem WordTest.is (kind : Token.Kind) (h : kind ≠ .finish) : WordTest (Token.is kind) where
  congr := by intro a b hk _; simp [Token.is, hk]
  refuses := by intro t ht; simp only [Token.is, decide_eq_true_eq] at ht; rw [ht]; exact h

/-- The token `END` is no operator. -/
theorem WordTest.isOperator (symbol : String) : WordTest (Token.isOperator symbol) where
  congr := by intro a b hk ht; simp [Token.isOperator, hk, ht]
  refuses := by
    intro t ht
    simp only [Token.isOperator, Bool.and_eq_true, decide_eq_true_eq] at ht
    simp [ht.1]

theorem WordTest.isWord (word : String) : WordTest (Token.isWord word) where
  congr := by intro a b hk ht; simp [Token.isWord, hk, ht]
  refuses := by
    intro t ht
    simp only [Token.isWord, Bool.and_eq_true, decide_eq_true_eq] at ht
    simp [ht.1]

theorem WordTest.isName : WordTest Token.isName where
  congr := by intro a b hk ht; simp [Token.isName, hk, ht]
  refuses := by
    intro t ht
    simp only [Token.isName, Bool.and_eq_true, decide_eq_true_eq] at ht
    simp [ht.1]

/-- A test that no next token passes is not passed at the end of the program either. -/
theorem WordTest.current {test : Token → Bool} (ht : WordTest test) {s : State}
    (h : ∀ t ∈ s.tokens.head?, test t = false) : test s.current = false := by
  cases hts : s.tokens with
  | nil =>
      rw [Bool.eq_false_iff]
      intro hc
      exact State.tokens_ne_nil (ht.refuses hc) hts
  | cons t ts =>
      rw [State.current_eq hts]
      exact h t (by rw [hts]; rfl)

/-- The current token is not of a kind that no next token has. -/
theorem State.is_current_eq_false {kind : Token.Kind} {s : State} (h : ∀ t ∈ s.tokens.head?, t.kind ≠ kind)
    (hne : kind ≠ .finish) : Token.is kind s.current = false :=
  (WordTest.is kind hne).current fun t ht => is_eq_false_iff.mpr (h t ht)

/-! ## Forwards -/

section Forwards

variable {test : Token → Bool} {s : State} {t : Token} {ts : List Token}

/-- A token that passes the test is taken, and the first way to go on. -/
theorem accept_ite_yes {p q : Parse β} (h : test t = true) :
    (accept test >>= fun passed => if passed = true then p else q) (s.withTokens (t :: ts)) =
      p (s.withTokens ts) := by
  rw [bind_apply, accept_apply, State.current_cons, if_pos h, State.next_cons]
  rfl

/-- A token that does not pass the test stays where it is. -/
theorem accept_ite_current {p q : Parse β} (h : test s.current = false) :
    (accept test >>= fun passed => if passed = true then p else q) s = q s := by
  rw [bind_apply, accept_apply, if_neg (by simp [h])]
  rfl

/-- The same, for a token that stands in front of others. -/
theorem accept_ite_no {p q : Parse β} (h : test t = false) :
    (accept test >>= fun passed => if passed = true then p else q) (s.withTokens (t :: ts)) =
      q (s.withTokens (t :: ts)) :=
  accept_ite_current h

/-- A known name is asked for by membership; the tokens do not matter. -/
theorem isKnown_ite_yes {p q : Parse β} {x : String} (h : x ∈ s.known) :
    (isKnown x >>= fun known => if known = true then p else q) (s.withTokens ts) = p (s.withTokens ts) := by
  rw [bind_apply, isKnown, State.withTokens_known, List.contains_iff_mem.mpr h]
  rfl

theorem isKnown_ite_no {p q : Parse β} {x : String} (h : x ∉ s.known) :
    (isKnown x >>= fun known => if known = true then p else q) (s.withTokens ts) = q (s.withTokens ts) := by
  have hc : s.known.contains x = false := by simpa using h
  rw [bind_apply, isKnown, State.withTokens_known, hc]
  rfl

/-- A token that is expected is passed and handed on. -/
theorem expect_bind {f : Token → Parse β} (h : test t = true) :
    (expect test >>= f) (s.withTokens (t :: ts)) = f t (s.withTokens ts) := by
  rw [bind_apply, expect_apply, State.current_cons, if_pos h, State.next_cons]

/-- A test of the next token decides, and the token stays. -/
theorem look_ite_yes {p q : Parse β} (h : test t = true) :
    (look >>= fun token => if test token = true then p else q) (s.withTokens (t :: ts)) =
      p (s.withTokens (t :: ts)) := by
  rw [look_bind, State.current_cons, if_pos h]

theorem name_cons (h : t.isName = true) :
    name (s.withTokens (t :: ts)) = (.ok t.text, s.withTokens ts) :=
  expect_bind h

end Forwards

/-! ## Backwards -/

section Backwards

variable {test : Token → Bool} {s u : State}

/-- Where a token was expected and found, it stood in front and passed the test. -/
theorem expect_eq_ok (ht : WordTest test) {t : Token} (h : expect test s = (.ok t, u)) :
    test t = true ∧ ∃ ts, s.tokens = t :: ts ∧ u = s.withTokens ts := by
  rw [expect_apply] at h
  by_cases hc : test s.current = true
  · rw [if_pos hc] at h
    injection h with hr hu
    injection hr with hr
    subst hr
    have hts := State.tokens_eq_cons (ht.refuses hc)
    exact ⟨hc, _, hts, hu.symm.trans (State.next_eq hts)⟩
  · rw [if_neg hc] at h
    cases h

/-- Either a token was passed that passes the test, or the current one does not. -/
theorem accept_bind_eq_ok (ht : WordTest test) {f : Bool → Parse β} {b : β}
    (h : (accept test >>= f) s = (.ok b, u)) :
    (∃ t ts, s.tokens = t :: ts ∧ test t = true ∧ f true (s.withTokens ts) = (.ok b, u)) ∨
      (test s.current = false ∧ f false s = (.ok b, u)) := by
  rw [bind_apply, accept_apply] at h
  by_cases hc : test s.current = true
  · rw [if_pos hc] at h
    have hts := State.tokens_eq_cons (ht.refuses hc)
    rw [State.next_eq hts] at h
    exact .inl ⟨_, _, hts, hc, h⟩
  · rw [if_neg hc] at h
    exact .inr ⟨by simpa using hc, h⟩

/-- A name that was read stood in front, and only its text is kept. -/
theorem name_eq_ok {x : String} (h : name s = (.ok x, u)) :
    ∃ t ts, s.tokens = t :: ts ∧ t.isName = true ∧ x = t.text ∧ u = s.withTokens ts := by
  obtain ⟨t, v, ht, hv⟩ := bind_eq_ok.mp h
  obtain ⟨hname, ts, hts, rfl⟩ := expect_eq_ok .isName ht
  cases hv
  exact ⟨t, ts, hts, hname, rfl, rfl⟩

/-- **Round by round.** What holds of a round that fails, and of a round if it holds of the rounds inside it, holds of
rounds inside each other, however many there are. -/
theorem recurseWithin_induction {step : (α → Parse β) → α → Parse β} {P : (α → Parse β) → Prop}
    (fails : P fun _ => unexpected) (round : ∀ f, P f → P (step f)) (bound : List Token) :
    P (recurseWithin step bound) := by
  induction bound with
  | nil => exact round _ fails
  | cons t bound ih => exact round _ ih

/-- What a round of a recursion that succeeds is known to do, given that the rounds inside it do it too. -/
theorem recurse_eq_ok {step : (α → Parse β) → α → Parse β} {Q : α → State → β → State → Prop}
    (h : ∀ f : α → Parse β, (∀ {a s b u}, f a s = (.ok b, u) → Q a s b u) →
      ∀ {a s b u}, step f a s = (.ok b, u) → Q a s b u)
    {a : α} {b : β} (hs : recurse step a s = (.ok b, u)) : Q a s b u := by
  exact recurseWithin_induction (P := fun f => ∀ {a s b u}, f a s = (.ok b, u) → Q a s b u)
    (fun hs => by cases hs) h s.tokens hs

end Backwards

end Parse
end Abacus
