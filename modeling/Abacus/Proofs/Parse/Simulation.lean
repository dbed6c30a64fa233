import Abacus.Proofs.Parse.Running

/-!
# `Parse.Simulation` — two runs of the parser side by side

An action looks at the kind and the text of the current token and at the names known to be functions, and at
nothing else. So two states that agree on these, and go on agreeing when both pass a token, are taken to
states that agree again. `Simulation` says what agreeing is; `Follows` says that one action on the first
state does what another does on the second.

`Follows` is closed under every way the grammar builds actions, **recursion included**: the tokens still to
be read bound the recursion, and `Follows` counts them. Compared with itself under equality an action shows
that its recursion is never cut short, which gives the equation `recurse_eq`.

## Contents
- `Simulation`, `Matches`, `Follows`;
- the closure rules, with `Follows.recurse` last;
- `recurse_eq` — recursion unfolds.
-/

namespace Abacus
namespace Parse

variable {α β : Type}

/-! ## Simulations -/

/-- A relation between states that no action can tell apart.

The first state may run out of the tokens on which the two agree. From there on (`done`) nothing is said
about the second one. -/
structure Simulation where
  rel : State → State → Prop
  done : List Token → Prop
  done_suffix : ∀ {ts us : List Token}, done ts → us <:+ ts → done us
  kind : ∀ {s t : State}, rel s t → s.current.kind = t.current.kind
  text : ∀ {s t : State}, rel s t → s.current.text = t.current.text
  known : ∀ {s t : State}, rel s t → ∀ name, s.known.contains name = t.known.contains name
  next : ∀ {s t : State}, rel s t → s.current.kind ≠ .finish → done s.next.tokens ∨ rel s.next t.next
  learn : ∀ {s t : State}, rel s t → ∀ name,
    rel { s with known := name :: s.known } { t with known := name :: t.known }
  enqueue : ∀ {s t : State}, rel s t → ∀ definition,
    rel { s with queued := s.queued ++ [definition] } { t with queued := t.queued ++ [definition] }
  shorter : ∀ {s t s' t' : State}, rel s t → rel s' t' →
    s'.tokens.length < s.tokens.length → t'.tokens.length < t.tokens.length

/-- Equal states. -/
def Simulation.refl : Simulation where
  rel s t := s = t
  done _ := False
  done_suffix h _ := h
  kind h := by rw [h]
  text h := by rw [h]
  known h _ := by rw [h]
  next h _ := .inr (by rw [h])
  learn h _ := by rw [h]
  enqueue h _ := by rw [h]
  shorter h h' hlt := by rw [← h, ← h']; exact hlt

/-- Outcomes that correspond: equal values, or failures at the tokens where the two runs stand. -/
inductive Simulation.Matches (S : Simulation) :
    Except Unexpected α × State → Except Unexpected α × State → Prop where
  | done {r : Except Unexpected α} {s : State} {y : Except Unexpected α × State} :
      S.done s.tokens → S.Matches (r, s) y
  | ok {a : α} {s t : State} : S.rel s t → S.Matches (.ok a, s) (.ok a, t)
  | error {s t : State} :
      S.rel s t → S.Matches (.error (.ofToken s.current), s) (.error (.ofToken t.current), t)

theorem Simulation.Matches.eq {x y : Except Unexpected α × State} (h : Simulation.refl.Matches x y) :
    x = y := by
  cases h with
  | done hd => exact absurd hd id
  | ok hr => cases hr; rfl
  | error hr => cases hr; rfl

/-- `p` does what `q` does, from related states where the current token satisfies `P` and fewer than `n`
tokens are left. It never goes back, and it passes at least `k` tokens when it succeeds. -/
structure Follows (S : Simulation) (P : Token → Prop) (k n : Nat) (p q : Parse α) : Prop where
  suffix : ∀ s, (p s).2.tokens <:+ s.tokens
  passes : ∀ {s t a}, P s.current → p s = (.ok a, t) → t.tokens.length + k ≤ s.tokens.length
  outcome : ∀ {s t}, S.rel s t → P s.current → s.tokens.length < n → S.Matches (p s) (q t)

/-- No condition on the current token. -/
def anyToken (_ : Token) : Prop := True

namespace Follows

variable {S : Simulation} {P Q : Token → Prop} {k n : Nat}

/-! ## Rules: weakening -/

/-- A rule may be used with fewer tokens, fewer tokens passed, and more known of the current token. -/
theorem mono {j m : Nat} {p q : Parse α} (h : Follows S Q k n p q) (hP : ∀ t, P t → Q t) (hk : j ≤ k)
    (hn : m ≤ n) : Follows S P j m p q where
  suffix := h.suffix
  passes hp hs := by
    have := h.passes (hP _ hp) hs
    omega
  outcome hr hp hlt := h.outcome hr (hP _ hp) (by omega)

theorem lower {m : Nat} {p q : Parse α} (h : Follows S P k n p q) (hn : m ≤ n) : Follows S P k m p q :=
  h.mono (fun _ hp => hp) (Nat.le_refl k) hn

/-- Forgets that tokens are passed. -/
theorem loose {p q : Parse α} (h : Follows S P k n p q) : Follows S P 0 n p q :=
  h.mono (fun _ hp => hp) (Nat.zero_le k) (Nat.le_refl n)

/-- Forgets what is known of the current token. -/
theorem anywhere {p q : Parse α} (h : Follows S anyToken k n p q) : Follows S P k n p q :=
  h.mono (fun _ _ => trivial) (Nat.le_refl k) (Nat.le_refl n)

/-! ## Rules: single actions -/

protected theorem pure (a : α) : Follows S P 0 n (pure a : Parse α) (pure a) where
  suffix _ := List.suffix_refl _
  passes _ hs := by
    cases hs
    exact Nat.le_refl _
  outcome hr _ _ := .ok hr

protected theorem unexpected : Follows S P k n (unexpected : Parse α) unexpected where
  suffix _ := List.suffix_refl _
  passes _ hs := nomatch hs
  outcome hr _ _ := .error hr

/-- Looking at the current token: what comes next may use its kind and its text, and knows it. -/
theorem look {f g : Token → Parse β}
    (h : ∀ a b, a.kind = b.kind → a.text = b.text → Follows S (fun t => P t ∧ t = a) k n (f a) (g b)) :
    Follows S P k n (Parse.look >>= f) (Parse.look >>= g) where
  suffix s := (h s.current s.current rfl rfl).suffix s
  passes {s _ _} hp hs := (h s.current s.current rfl rfl).passes ⟨hp, rfl⟩ hs
  outcome {s t} hr hp hlt := (h s.current t.current (S.kind hr) (S.text hr)).outcome hr ⟨hp, rfl⟩ hlt

/-- Passing a token that does not end the program. -/
theorem advance {f g : Unit → Parse β} (hP : ∀ t, P t → t.kind ≠ .finish)
    (h : Follows S anyToken k (n - 1) (f ()) (g ())) :
    Follows S P (k + 1) n (Parse.advance >>= f) (Parse.advance >>= g) where
  suffix s := (h.suffix s.next).trans s.next_suffix
  passes {s t a} hp hs := by
    have hlen := State.length_next (hP _ hp)
    have hrest : t.tokens.length + k ≤ s.next.tokens.length := h.passes trivial hs
    omega
  outcome {s t} hr hp hlt := by
    have hlen := State.length_next (hP _ hp)
    -- the token that is passed may have been the last one to compare
    rcases S.next hr (hP _ hp) with hd | hr'
    · exact .done (S.done_suffix hd (h.suffix s.next))
    · exact h.outcome hr' trivial (by omega)

/-- Asking whether a name is known. -/
theorem isKnown {f g : Bool → Parse β} (name : String) (h : ∀ b, Follows S P k n (f b) (g b)) :
    Follows S P k n (Parse.isKnown name >>= f) (Parse.isKnown name >>= g) where
  suffix s := (h (s.known.contains name)).suffix s
  passes {s _ _} hp hs := (h (s.known.contains name)).passes hp hs
  outcome {s t} hr hp hlt := by
    show S.Matches (f (s.known.contains name) s) (g (t.known.contains name) t)
    rw [← S.known hr name]
    exact (h _).outcome hr hp hlt

theorem learn (name : String) : Follows S anyToken 0 n (Parse.learn name) (Parse.learn name) where
  suffix _ := List.suffix_refl _
  passes _ hs := by
    cases hs
    exact Nat.le_refl _
  outcome hr _ _ := .ok (S.learn hr name)

theorem enqueue (definition : Definition) :
    Follows S anyToken 0 n (Parse.enqueue definition) (Parse.enqueue definition) where
  suffix _ := List.suffix_refl _
  passes _ hs := by
    cases hs
    exact Nat.le_refl _
  outcome hr _ _ := .ok (S.enqueue hr definition)

/-! ## Rules: sequences -/

theorem bind {j : Nat} {p q : Parse α} {f g : α → Parse β} (hp : Follows S P k n p q)
    (hf : ∀ a, Follows S anyToken j (n - k) (f a) (g a)) :
    Follows S P (k + j) n (p >>= f) (q >>= g) where
  suffix s := by
    have hs := hp.suffix s
    rw [bind_apply]
    split
    · next a t h => rw [h] at hs; exact ((hf a).suffix t).trans hs
    · next e t h => rw [h] at hs; exact hs
  passes {s u b} hP hs := by
    obtain ⟨a, t, ht, hu⟩ := bind_eq_ok.mp hs
    have h1 := hp.passes hP ht
    have h2 := (hf a).passes trivial hu
    omega
  outcome {s t} hr hP hlt := by
    have hm := hp.outcome hr hP hlt
    have hpass : ∀ {a u}, p s = (.ok a, u) → u.tokens.length + k ≤ s.tokens.length :=
      fun h => hp.passes hP h
    rw [bind_apply, bind_apply]
    revert hpass
    generalize p s = x at hm
    generalize q t = y at hm
    intro hpass
    cases hm with
    | @done r s₁ _ hd =>
        -- nothing brings the tokens back
        cases r with
        | ok a => exact .done (S.done_suffix hd ((hf a).suffix s₁))
        | error e => exact .done hd
    | @ok a s₁ t₁ hr₁ =>
        have := hpass rfl
        exact (hf a).outcome hr₁ trivial (by omega)
    | error hr₁ => exact .error hr₁

/-- A sequence whose first part passes as much as is wanted. -/
theorem seq {p q : Parse α} {f g : α → Parse β} (hp : Follows S P k n p q)
    (hf : ∀ a, Follows S anyToken 0 (n - k) (f a) (g a)) : Follows S P k n (p >>= f) (q >>= g) :=
  hp.bind hf

/-- A sequence whose first part need not pass anything. -/
theorem andThen {p q : Parse α} {f g : α → Parse β} (hp : Follows S P 0 n p q)
    (hf : ∀ a, Follows S anyToken k n (f a) (g a)) : Follows S P k n (p >>= f) (q >>= g) :=
  (hp.bind hf).mono (fun _ h => h) (by omega) (Nat.le_refl n)

/-- Passing a token that passes a test; what comes next may use its text. -/
theorem expect {test : Token → Bool} (ht : WordTest test) {f g : Token → Parse β}
    (h : ∀ a b, a.text = b.text → Follows S anyToken k (n - 1) (f a) (g b)) :
    Follows S P (k + 1) n (Parse.expect test >>= f) (Parse.expect test >>= g) where
  suffix s := by
    rw [bind_apply, expect_apply]
    by_cases hs : test s.current = true
    · rw [if_pos hs]
      exact ((h s.current s.current rfl).suffix s.next).trans s.next_suffix
    · simp only [if_neg hs]
      exact List.suffix_refl _
  passes {s t b} _ hs := by
    rw [bind_apply, expect_apply] at hs
    by_cases hc : test s.current = true
    · rw [if_pos hc] at hs
      have hlen := State.length_next (ht.refuses hc)
      have hrest : t.tokens.length + k ≤ s.next.tokens.length :=
        (h s.current s.current rfl).passes trivial hs
      omega
    · rw [if_neg hc] at hs
      cases hs
  outcome {s t} hr _ hlt := by
    rw [bind_apply, bind_apply, expect_apply, expect_apply,
      ← ht.congr (S.kind hr) (S.text hr)]
    by_cases hc : test s.current = true
    · rw [if_pos hc, if_pos hc]
      have hlen := State.length_next (ht.refuses hc)
      have hrest := h s.current t.current (S.text hr)
      rcases S.next hr (ht.refuses hc) with hd | hr'
      · exact .done (S.done_suffix hd (hrest.suffix s.next))
      · exact hrest.outcome hr' trivial (by omega)
    · rw [if_neg hc, if_neg hc]
      exact .error hr

/-- Passing a token if it passes a test: one token less is left where it did. -/
theorem accept {test : Token → Bool} (ht : WordTest test) {f g : Bool → Parse β}
    (hyes : Follows S anyToken k (n - 1) (f true) (g true)) (hno : Follows S P k n (f false) (g false)) :
    Follows S P k n (Parse.accept test >>= f) (Parse.accept test >>= g) where
  suffix s := by
    rw [bind_apply, accept_apply]
    by_cases hs : test s.current = true
    · rw [if_pos hs]
      exact (hyes.suffix s.next).trans s.next_suffix
    · rw [if_neg hs]
      exact hno.suffix s
  passes {s t b} hp hs := by
    rw [bind_apply, accept_apply] at hs
    by_cases hc : test s.current = true
    · rw [if_pos hc] at hs
      have hlen := State.length_next (ht.refuses hc)
      have hrest : t.tokens.length + k ≤ s.next.tokens.length := hyes.passes trivial hs
      omega
    · rw [if_neg hc] at hs
      exact hno.passes hp hs
  outcome {s t} hr hp hlt := by
    rw [bind_apply, bind_apply, accept_apply, accept_apply,
      ← ht.congr (S.kind hr) (S.text hr)]
    by_cases hc : test s.current = true
    · rw [if_pos hc, if_pos hc]
      have hlen := State.length_next (ht.refuses hc)
      rcases S.next hr (ht.refuses hc) with hd | hr'
      · exact .done (S.done_suffix hd (hyes.suffix s.next))
      · exact hyes.outcome hr' trivial (by omega)
    · rw [if_neg hc, if_neg hc]
      exact hno.outcome hr hp hlt

/-! ## Rules: recursion -/

section Recursion

variable {N : Nat} {step step' : (α → Parse β) → α → Parse β}
  (h : ∀ l, l ≤ N → ∀ f g : α → Parse β, (∀ a, Follows S anyToken k (l - 1) (f a) (g a)) →
    ∀ a, Follows S anyToken k l (step f a) (step' g a))

include h

/-- Rounds inside each other never go back, however many there are. -/
theorem recurseWithin_zero (bound : List Token) :
    ∀ a, Follows S anyToken k 0 (recurseWithin step bound a) (recurseWithin step bound a) := by
  -- with no tokens to compare, the rule for `step` only speaks of its first action
  have first : ∀ f : α → Parse β, (∀ a, Follows S anyToken k 0 (f a) (f a)) →
      ∀ a, Follows S anyToken k 0 (step f a) (step f a) := by
    intro f hf a
    have hstep := h 0 (Nat.zero_le N) f f hf a
    exact ⟨hstep.suffix, hstep.passes, fun _ _ hlt => absurd hlt (Nat.not_lt_zero _)⟩
  exact recurseWithin_induction (P := fun f => ∀ a, Follows S anyToken k 0 (f a) (f a)) (fun _ => .unexpected)
    first bound

/-- With enough rounds on both sides, recursion follows recursion. -/
theorem recurseWithin_outcome (bound : List Token) :
    ∀ (bound' : List Token) (a : α) {s t : State}, S.rel s t → s.tokens.length < N →
      s.tokens.length ≤ bound.length → t.tokens.length ≤ bound'.length →
      S.Matches (recurseWithin step bound a s) (recurseWithin step' bound' a t) := by
  -- one round, once the rounds inside it are known to match on fewer tokens
  have round : ∀ (f g : α → Parse β) {s t : State}, S.rel s t → s.tokens.length < N →
      (∀ a, Follows S anyToken k s.tokens.length (f a) (g a)) → ∀ a,
      S.Matches (step f a s) (step' g a t) := by
    intro f g s t hr hlt hfg a
    exact (h (s.tokens.length + 1) hlt f g hfg a).outcome hr trivial (Nat.lt_succ_self _)
  induction bound with
  | nil =>
      -- no tokens are left, so no round inside this one is compared
      intro bound' a s t hr hlt hb hb'
      have hzero : s.tokens.length = 0 := by simpa using hb
      have hinner : ∀ g : α → Parse β, ∀ a,
          Follows S anyToken k s.tokens.length (Parse.unexpected : Parse β) (g a) := by
        intro g a
        rw [hzero]
        exact ⟨fun _ => List.suffix_refl _, fun _ hs => (nomatch hs),
          fun _ _ hlt => absurd hlt (Nat.not_lt_zero _)⟩
      cases bound' with
      | nil => exact round _ _ hr hlt (hinner _) a
      | cons _ _ => exact round _ _ hr hlt (hinner _) a
  | cons t₀ bound ih =>
      intro bound' a s t hr hlt hb hb'
      have hzero := recurseWithin_zero h bound
      cases bound' with
      | nil =>
          -- the second state has no token left to pass
          refine round _ _ hr hlt (fun a => ?_) a
          refine ⟨(hzero a).suffix, (hzero a).passes, fun hr' _ hlt' => ?_⟩
          have := S.shorter hr hr' hlt'
          simp only [List.length_nil] at hb'
          omega
      | cons t₁ bound' =>
          refine round _ _ hr hlt (fun a => ?_) a
          refine ⟨(hzero a).suffix, (hzero a).passes, fun hr' _ hlt' => ?_⟩
          have := S.shorter hr hr' hlt'
          simp only [List.length_cons] at hb hb'
          exact ih bound' a hr' (by omega) (by omega) (by omega)

/-- Recursion follows recursion when a round does, given that it does with fewer tokens inside. -/
theorem recurse (a : α) : Follows S anyToken k N (Parse.recurse step a) (Parse.recurse step' a) where
  suffix s := (recurseWithin_zero h s.tokens a).suffix s
  passes {s _ _} _ hs := (recurseWithin_zero h s.tokens a).passes trivial hs
  outcome {s t} hr _ hlt :=
    recurseWithin_outcome h s.tokens t.tokens a hr hlt (Nat.le_refl _) (Nat.le_refl _)

end Recursion

end Follows

/-! ## Recursion unfolds -/

/-- An action that is described in terms of itself, and passes a token before it comes back to itself, is
what its description says. -/
theorem recurse_eq {k : Nat} {step : (α → Parse β) → α → Parse β}
    (h : ∀ n, ∀ f g : α → Parse β, (∀ a, Follows .refl anyToken k (n - 1) (f a) (g a)) →
      ∀ a, Follows .refl anyToken k n (step f a) (step g a)) (a : α) :
    recurse step a = step (recurse step) a := by
  have hwithin : ∀ (bound bound' : List Token) (a : α) (s : State), s.tokens.length ≤ bound.length →
      s.tokens.length ≤ bound'.length →
      recurseWithin step bound a s = recurseWithin step bound' a s := by
    intro bound bound' a s hb hb'
    exact (Follows.recurseWithin_outcome (N := s.tokens.length + 1) (S := .refl) (fun l _ => h l)
      bound bound' a rfl (Nat.lt_succ_self _) hb hb').eq
  funext s
  calc recurse step a s
      = recurseWithin step (s.last :: s.tokens) a s := hwithin _ _ a s (Nat.le_refl _) (Nat.le_succ _)
    _ = step (recurseWithin step s.tokens) a s := rfl
    _ = step (recurse step) a s := by
      have hinner : ∀ a, Follows .refl anyToken k (s.tokens.length + 1 - 1)
          (recurseWithin step s.tokens a) (recurse step a) := by
        intro a
        have hzero := Follows.recurseWithin_zero (N := 0) (S := .refl) (fun l _ => h l) s.tokens a
        refine ⟨hzero.suffix, hzero.passes, ?_⟩
        intro u v hr _ hlt
        cases hr
        rw [recurse, hwithin s.tokens u.tokens a u (by omega) (Nat.le_refl _)]
        exact (Follows.recurseWithin_outcome (N := u.tokens.length + 1) (S := .refl) (fun l _ => h l)
          u.tokens u.tokens a rfl (Nat.lt_succ_self _) (Nat.le_refl _) (Nat.le_refl _))
      exact ((h _ _ _ hinner a).outcome rfl trivial (Nat.lt_succ_self _)).eq

end Parse
end Abacus
