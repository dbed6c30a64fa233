import Abacus.Proofs.Parse.Lookahead

/-!
# `Parse.Completion` — what has been read can be completed

Where a rule stops, the tokens it has passed are the beginning of something it accepts, whether it succeeded or
failed there. So a failure is never late: no token in front of it could be blamed.

Two properties of an action say so. `Starts` gives tokens from which it succeeds in every state; `Resumes` completes
the tokens it has passed, if there are any. Both name the tokens that may follow (`Next`), since what comes behind a
phrase may belong to it. **The lookahead is the difficulty**: an action may have succeeded only because of the token
behind it, and with another one there it has to be completed anew. So `Resumes` speaks of success and failure alike.

## Contents
- `Next` — a condition on the token that follows;
- `Starts`, `Resumes` — the two properties, each with one rule for every way the grammar builds actions.
-/

namespace Abacus
namespace Parse

variable {α β : Type}

/-! ## What may follow -/

/-- The first of the tokens, if there is one, satisfies `Q`. -/
def Next (Q : Token → Prop) (ts : List Token) : Prop := ∀ t ∈ ts.head?, Q t

theorem Next.nil {Q : Token → Prop} : Next Q [] := nofun

/-- Of the tokens that follow only the first one counts. -/
theorem Next.cons {Q : Token → Prop} {t : Token} (h : Q t) (ts : List Token) : Next Q (t :: ts) := by
  intro t' ht'
  cases ht'
  exact h

/-- A weaker condition allows more. -/
theorem Next.imp {Q Q' : Token → Prop} {ts : List Token} (hQ : ∀ t, Q t → Q' t) (h : Next Q ts) :
    Next Q' ts :=
  fun t ht => hQ t (h t ht)

/-- Where anything may follow, everything does. -/
theorem Next.any {ts : List Token} : Next anyToken ts := fun _ _ => trivial

/-! ## Beginning -/

/-- From the tokens in `w` the action succeeds in every state and leaves `rest`, if `Q` holds of what comes
next. -/
def Starts (w : List Token) (Q : Token → Prop) (p : Parse α) : Prop :=
  ∀ (s : State) {rest : List Token}, Next Q rest →
    ∃ a u, p (s.withTokens (w ++ rest)) = (.ok a, u) ∧ u.tokens = rest

namespace Starts

variable {Q Q' : Token → Prop} {t : Token} {w v : List Token} {test : Token → Bool}

protected theorem pure (a : α) : Starts [] Q (pure a : Parse α) :=
  fun s rest _ => ⟨a, s.withTokens rest, rfl, rfl⟩

/-- The first action leaves the tokens that the second one begins with, so these have to be allowed behind it. -/
theorem bind {p : Parse α} {f : α → Parse β} (hp : Starts w Q' p)
    (hnext : ∀ {rest}, Next Q rest → Next Q' (v ++ rest)) (hf : ∀ a, Starts v Q (f a)) :
    Starts (w ++ v) Q (p >>= f) := by
  intro s rest hrest
  obtain ⟨a, u, hu, hus⟩ := hp s (hnext hrest)
  obtain ⟨b, v, hv, hvs⟩ := hf a u hrest
  rw [← hus, State.withTokens_self] at hv
  refine ⟨b, v, ?_, hvs⟩
  rw [List.append_assoc, bind_of_ok hu, hv]

/-- A last step that passes nothing. -/
theorem andPure {p : Parse α} {f : α → β} (hp : Starts w Q p) :
    Starts w Q (p >>= fun a => pure (f a)) := by
  have h := hp.bind (v := []) (fun hrest => hrest) (fun a => Starts.pure (Q := Q) (f a))
  rwa [List.append_nil] at h

/-- A token that is passed unseen may be any. -/
theorem advance {f : Unit → Parse β} (h : Starts w Q (f ())) :
    Starts (t :: w) Q (Parse.advance >>= f) :=
  fun s _ hrest => h s hrest

theorem expect {f : Token → Parse β} (ht : test t = true) (h : Starts w Q (f t)) :
    Starts (t :: w) Q (Parse.expect test >>= f) := by
  intro s rest hrest
  rw [List.cons_append, expect_bind ht]
  exact h s hrest

theorem look {f : Token → Parse β} (h : Starts (t :: w) Q (f t)) :
    Starts (t :: w) Q (Parse.look >>= f) :=
  fun s _ hrest => h s hrest

theorem accept_yes {p q : Parse β} (ht : test t = true) (h : Starts w Q p) :
    Starts (t :: w) Q (Parse.accept test >>= fun passed => if passed = true then p else q) := by
  intro s rest hrest
  rw [List.cons_append, accept_ite_yes ht]
  exact h s hrest

/-- A token that is not accepted is left to what comes instead. -/
theorem accept_no {p q : Parse β} (ht : test t = false) (h : Starts (t :: w) Q q) :
    Starts (t :: w) Q (Parse.accept test >>= fun passed => if passed = true then p else q) := by
  intro s rest hrest
  rw [List.cons_append, accept_ite_no ht]
  exact h s hrest

theorem learn {name : String} {f : Unit → Parse β} (h : Starts w Q (f ())) :
    Starts w Q (Parse.learn name >>= f) :=
  fun s _ hrest => h { s with known := name :: s.known } hrest

end Starts

/-! ## Going on -/

/-- The tokens that the action has passed when it stops can be completed: if there are any, there are tokens behind
which it succeeds and leaves `rest`, for every `rest` that `Q` allows. -/
def Completable (Q : Token → Prop) (p : Parse α) (s : State) : Prop :=
  ∃ front, s.tokens = front ++ (p s).2.tokens ∧ (front ≠ [] → ∀ {rest}, Next Q rest →
    ∃ more a u, p (s.withTokens (front ++ (more ++ rest))) = (.ok a, u) ∧ u.tokens = rest)

/-- What the action passes can be completed, from every state with at most `n` tokens. -/
def Resumes (Q : Token → Prop) (n : Nat) (p : Parse α) : Prop :=
  ∀ s : State, s.tokens.length ≤ n → Completable Q p s

/-- Where nothing is passed, there is nothing to complete. -/
theorem Completable.idle {Q : Token → Prop} {p : Parse α} {s : State} (h : (p s).2.tokens = s.tokens) :
    Completable Q p s :=
  ⟨[], h.symm, fun hne => absurd rfl hne⟩

/-- Behind a token that is passed, the rest is begun or completed. -/
theorem Completable.pass {Q : Token → Prop} {w : List Token} {p q : Parse α} {s : State} {t : Token}
    {ts : List Token} (hts : s.tokens = t :: ts)
    (hp : ∀ us, p (s.withTokens (t :: us)) = q (s.withTokens us))
    (hstart : Starts w Q q) (h : Completable Q q (s.withTokens ts)) : Completable Q p s := by
  have hps : p s = q (s.withTokens ts) := by
    have hpts := hp ts
    rwa [← hts, State.withTokens_self] at hpts
  obtain ⟨front, hfront, hmore⟩ := h
  rw [State.withTokens_tokens] at hfront
  refine ⟨t :: front, ?_, fun _ => ?_⟩
  · rw [hps, hts, List.cons_append, ← hfront]
  · intro rest hrest
    by_cases hne : front = []
    · obtain ⟨a, u, hu, hus⟩ := hstart s hrest
      subst hne
      exact ⟨w, a, u, (hp _).trans hu, hus⟩
    · obtain ⟨more, a, u, hu, hus⟩ := hmore hne hrest
      exact ⟨more, a, u, (hp _).trans hu, hus⟩

namespace Resumes

variable {Q Q' : Token → Prop} {n : Nat} {w : List Token} {test : Token → Bool}

theorem lower {m : Nat} {p : Parse α} (h : Resumes Q n p) (hm : m ≤ n) : Resumes Q m p :=
  fun s hle => h s (by omega)

/-- If less may follow, less is asked for. -/
theorem imp {p : Parse α} (h : Resumes Q n p) (hQ : ∀ t, Q' t → Q t) : Resumes Q' n p := by
  intro s hle
  obtain ⟨front, hfront, hmore⟩ := h s hle
  exact ⟨front, hfront, fun hne _ hrest => hmore hne (hrest.imp hQ)⟩

/-- Nothing is passed at the end of the program. -/
theorem zero {k : Nat} {p : Parse α} (h : Orderly k p) : Resumes Q 0 p := by
  intro s hle
  have hnil : s.tokens = [] := List.length_eq_zero_iff.mp (Nat.le_zero.mp hle)
  have hsuf := h.suffix s
  rw [hnil] at hsuf
  exact .idle (by rw [List.suffix_nil.mp hsuf, hnil])

protected theorem pure (a : α) : Resumes Q n (pure a : Parse α) := fun _ _ => .idle rfl

protected theorem unexpected : Resumes Q n (unexpected : Parse α) := fun _ _ => .idle rfl

/-- Where something was passed, the current token is the same in the completion. -/
theorem look {f : Token → Parse β} (h : ∀ t, Resumes Q n (f t)) : Resumes Q n (Parse.look >>= f) := by
  intro s hle
  obtain ⟨front, hfront, hmore⟩ := h s.current s hle
  refine ⟨front, hfront, fun hne => ?_⟩
  intro rest hrest
  obtain ⟨more, a, u, hu, hus⟩ := hmore hne hrest
  obtain ⟨t, front, rfl⟩ := List.exists_cons_of_ne_nil hne
  rw [State.current_eq hfront] at hu
  exact ⟨more, a, u, hu, hus⟩

theorem isKnown {name : String} {f : Bool → Parse β} (h : ∀ known, Resumes Q n (f known)) :
    Resumes Q n (Parse.isKnown name >>= f) :=
  fun s hle => h (s.known.contains name) s hle

theorem learn {name : String} {f : Unit → Parse β} (h : Resumes Q n (f ())) :
    Resumes Q n (Parse.learn name >>= f) :=
  fun s hle => h { s with known := name :: s.known } hle

/-- Behind a token that is passed the rest has to begin somehow: the completion may have to supply all of it. -/
theorem advance {f : Unit → Parse β} (hstart : Starts w Q (f ())) (h : Resumes Q (n - 1) (f ())) :
    Resumes Q n (Parse.advance >>= f) := by
  intro s hle
  cases hts : s.tokens with
  | nil =>
      -- at the end the token stays, and nothing is passed
      have hnext : s.next = s := by
        rw [State.next, hts, List.tail_nil, ← hts]
      have hrun : (Parse.advance >>= f) s = f () s := by
        rw [advance_bind, hnext]
      obtain ⟨front, hfront, -⟩ := h s (by rw [hts]; exact Nat.zero_le _)
      rw [hts] at hfront
      have hnil := (List.append_eq_nil_iff.mp hfront.symm).2
      exact .idle (by rw [hrun, hnil, hts])
  | cons t ts =>
      rw [hts, List.length_cons] at hle
      exact .pass hts (fun _ => rfl) hstart (h _ (by rw [State.withTokens_tokens]; omega))

/-- A token that is refused is not passed, and one that is accepted has the rest begun or completed behind it. -/
theorem expect (htest : WordTest test) {f : Token → Parse β} (hstart : ∀ t, Starts w Q (f t))
    (h : ∀ t, Resumes Q (n - 1) (f t)) : Resumes Q n (Parse.expect test >>= f) := by
  intro s hle
  by_cases hc : test s.current = true
  · have hts := State.tokens_eq_cons (htest.refuses hc)
    rw [hts, List.length_cons] at hle
    exact .pass hts (fun _ => expect_bind hc) (hstart _) (h _ _ (by rw [State.withTokens_tokens]; omega))
  · refine .idle ?_
    rw [bind_apply, expect_apply, if_neg hc]

/-- If the token is not accepted nothing has been passed yet, and the completion is that of the other way to go on. -/
theorem accept (htest : WordTest test) {p q : Parse β} (hstart : Starts w Q p) (hyes : Resumes Q (n - 1) p)
    (hno : Resumes Q n q) :
    Resumes Q n (Parse.accept test >>= fun passed => if passed = true then p else q) := by
  intro s hle
  by_cases hc : test s.current = true
  · have hts := State.tokens_eq_cons (htest.refuses hc)
    rw [hts, List.length_cons] at hle
    exact .pass hts (fun _ => accept_ite_yes hc) hstart (hyes _ (by rw [State.withTokens_tokens]; omega))
  · have hc : test s.current = false := by simpa using hc
    obtain ⟨front, hfront, hmore⟩ := hno s hle
    refine ⟨front, by rw [accept_ite_current hc]; exact hfront, fun hne => ?_⟩
    intro rest hrest
    obtain ⟨more, a, u, hu, hus⟩ := hmore hne hrest
    -- the completion begins with the token that was not accepted
    obtain ⟨t, front, rfl⟩ := List.exists_cons_of_ne_nil hne
    rw [State.current_eq hfront] at hc
    exact ⟨more, a, u, (accept_ite_no hc).trans hu, hus⟩

/-- A sequence. If it stops in its second part without passing anything there, the first part is completed anew, with
what the second part begins with behind it. -/
theorem bind {k : Nat} {p : Parse α} {f : α → Parse β} (horderly : Orderly k p) (hp : Resumes Q' n p)
    (hnext : ∀ {rest}, Next Q rest → Next Q' (w ++ rest)) (hstart : ∀ a, Starts w Q (f a))
    (hf : ∀ a, Resumes Q (n - k) (f a)) : Resumes Q n (p >>= f) := by
  intro s hle
  obtain ⟨front, hfront, hmore⟩ := hp s hle
  have anew : front ≠ [] → ∀ {rest}, Next Q rest →
      ∃ more b u, (p >>= f) (s.withTokens (front ++ (more ++ rest))) = (.ok b, u) ∧ u.tokens = rest := by
    intro hne rest hrest
    obtain ⟨more, a, u, hu, hus⟩ := hmore hne (hnext hrest)
    obtain ⟨b, v, hv, hvs⟩ := hstart a u hrest
    rw [← hus, State.withTokens_self] at hv
    refine ⟨more ++ w, b, v, ?_, hvs⟩
    rw [List.append_assoc more, bind_of_ok hu, hv]
  cases hx : p s with
  | mk r t =>
      rw [hx] at hfront
      cases r with
      | error e => exact ⟨front, by rw [bind_apply, hx]; exact hfront, anew⟩
      | ok a =>
          have hpass := horderly.passes hx
          obtain ⟨front', hfront', hmore'⟩ := hf a t (by omega)
          rw [Completable, bind_of_ok hx]
          by_cases hne' : front' = []
          · subst hne'
            exact ⟨front, by rw [hfront, hfront']; rfl, anew⟩
          · -- something was passed behind the first part, which does not see what comes behind that
            refine ⟨front ++ front', by rw [hfront, hfront', List.append_assoc], fun _ => ?_⟩
            intro rest hrest
            obtain ⟨more, b, u, hu, hus⟩ := hmore' hne' hrest
            obtain ⟨first, behind, rfl⟩ := List.exists_cons_of_ne_nil hne'
            have hsame := horderly.withTokens hx hfront (behind ++ (more ++ rest))
            rw [State.current_eq hfront'] at hsame
            refine ⟨more, b, u, ?_, hus⟩
            rw [List.append_assoc front, List.cons_append, bind_of_ok hsame]
            exact hu

/-- A sequence whose second part passes nothing. -/
theorem andPure {k : Nat} {p : Parse α} {f : α → β} (horderly : Orderly k p) (hp : Resumes Q n p) :
    Resumes Q n (p >>= fun a => pure (f a)) :=
  .bind horderly hp (w := []) (fun hrest => hrest) (fun a => .pure (f a)) (fun a => .pure (f a))

end Resumes

end Parse
end Abacus
