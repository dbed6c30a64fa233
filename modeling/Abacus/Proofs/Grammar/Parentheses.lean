import Abacus.Proofs.Grammar.Nesting

/-!
# `Grammar.Parentheses` — which parentheses close which

The check before the first statement counts the parentheses that are open. What it finds can be said without
counting: a closing parenthesis **closes** the opening one that stands before it with balanced tokens in between, and it
is **stray** if there is none. The check finds the first stray parenthesis, and finds nothing if there is none.

## Contents
- `Balanced`, `Stray`, `HasStray`, `FirstStray` — parentheses that close each other, and those that close nothing;
- `openParens`, `hasOpen_iff` — counting the open ones;
- `strayParen?_append_eq`, `strayParen?_append` — the check of two pieces;
- `strayParen?_eq_none_iff`, `strayParen?_eq_some_iff` — what the check finds.
-/

namespace Abacus

/-! ## Parentheses that close each other -/

/-- Every parenthesis among these tokens closes another one of them or is closed by one. -/
inductive Balanced : List Token → Prop where
  | nil : Balanced []
  | token {t : Token} : t.kind ≠ .leftParen → t.kind ≠ .rightParen → Balanced [t]
  | parens {opening closing : Token} {inside : List Token} :
      opening.kind = .leftParen → Balanced inside → closing.kind = .rightParen →
        Balanced (opening :: (inside ++ [closing]))
  | append {ts us : List Token} : Balanced ts → Balanced us → Balanced (ts ++ us)

/-- A closing parenthesis right behind these tokens would close one of them. -/
def HasOpen (ts : List Token) : Prop :=
  ∃ before opening inside, ts = before ++ opening :: inside ∧ opening.kind = .leftParen ∧ Balanced inside

/-- The token behind `front` is a closing parenthesis that closes nothing. -/
def Stray (front : List Token) (t : Token) : Prop := t.kind = .rightParen ∧ ¬HasOpen front

/-- One of the tokens is a stray parenthesis. -/
def HasStray (ts : List Token) : Prop := ∃ front t rest, ts = front ++ t :: rest ∧ Stray front t

/-- The first stray parenthesis is `t`. -/
def FirstStray (ts : List Token) (t : Token) : Prop :=
  ∃ front rest, ts = front ++ t :: rest ∧ Stray front t ∧ ¬HasStray front

/-! ## Counting -/

/-- How many parentheses are open behind a token, if `depth` are before it. -/
def depthBehind (depth : Nat) (t : Token) : Nat :=
  match t.kind with
  | .leftParen => depth + 1
  | .rightParen => depth - 1
  | _ => depth

/-- How many parentheses are open behind the tokens, if `depth` are before them. -/
def openParens (depth : Nat) (ts : List Token) : Nat := ts.foldl depthBehind depth

section Counting

variable {t : Token} {ts us : List Token} {depth : Nat}

theorem depthBehind_left (h : t.kind = .leftParen) : depthBehind depth t = depth + 1 := by
  simp only [depthBehind, h]

theorem depthBehind_right (h : t.kind = .rightParen) : depthBehind depth t = depth - 1 := by
  simp only [depthBehind, h]

theorem depthBehind_other (hleft : t.kind ≠ .leftParen) (hright : t.kind ≠ .rightParen) :
    depthBehind depth t = depth := by
  unfold depthBehind
  split
  · next h => exact absurd h hleft
  · next h => exact absurd h hright
  · rfl

theorem depthBehind_mono {more : Nat} (h : depth ≤ more) : depthBehind depth t ≤ depthBehind more t := by
  unfold depthBehind
  split <;> omega

@[simp] theorem openParens_nil : openParens depth [] = depth := rfl

@[simp] theorem openParens_cons : openParens depth (t :: ts) = openParens (depthBehind depth t) ts := rfl

theorem openParens_append : openParens depth (ts ++ us) = openParens (openParens depth ts) us :=
  List.foldl_append

/-- Balanced tokens leave what is open as it is. -/
theorem Balanced.openParens_eq (h : Balanced ts) (depth : Nat) : openParens depth ts = depth := by
  induction h generalizing depth with
  | nil => rfl
  | token hleft hright => exact depthBehind_other hleft hright
  | parens hleft _ hright ih =>
      rw [openParens_cons, depthBehind_left hleft, openParens_append, ih]
      exact depthBehind_right hright
  | append _ _ ih ih' => rw [openParens_append, ih, ih']

/-- The innermost of the parentheses that are open. -/
theorem exists_opening {n : Nat} (h : openParens 0 ts = n + 1) :
    ∃ before opening inside, ts = before ++ opening :: inside ∧ opening.kind = .leftParen ∧
      Balanced inside ∧ openParens 0 before = n := by
  -- from the last token backwards; what it closes is found by induction, and what encloses both by another one
  induction hlen : ts.length using Nat.strongRecOn generalizing ts n with
  | ind length ih =>
      rcases List.eq_nil_or_concat ts with rfl | ⟨us, t, rfl⟩
      · cases h
      · rw [List.concat_eq_append] at h hlen ⊢
        rw [openParens_append, openParens_cons, openParens_nil] at h
        rw [List.length_append, List.length_singleton] at hlen
        by_cases hleft : t.kind = .leftParen
        · rw [depthBehind_left hleft] at h
          exact ⟨us, t, [], rfl, hleft, .nil, Nat.succ.inj h⟩
        by_cases hright : t.kind = .rightParen
        · rw [depthBehind_right hright] at h
          have hopen : openParens 0 us = n + 1 + 1 := by omega
          obtain ⟨vs, o, inside, rfl, ho, hinside, hvs⟩ := ih us.length (by omega) hopen rfl
          rw [List.length_append, List.length_cons] at hlen
          obtain ⟨before, opening, others, rfl, hopening, hothers, hbefore⟩ := ih vs.length (by omega) hvs rfl
          refine ⟨before, opening, others ++ o :: (inside ++ [t]), by simp, hopening, ?_, hbefore⟩
          exact hothers.append (.parens ho hinside hright)
        · rw [depthBehind_other hleft hright] at h
          obtain ⟨before, opening, inside, rfl, hopening, hinside, hbefore⟩ := ih us.length (by omega) h rfl
          exact ⟨before, opening, inside ++ [t], by simp, hopening, hinside.append (.token hleft hright), hbefore⟩

/-- **Counting tells whether a parenthesis is open.** -/
theorem hasOpen_iff : HasOpen ts ↔ openParens 0 ts ≠ 0 := by
  constructor
  · rintro ⟨before, opening, inside, rfl, hopening, hinside⟩
    rw [openParens_append, openParens_cons, depthBehind_left hopening, hinside.openParens_eq]
    exact Nat.succ_ne_zero _
  · intro h
    obtain ⟨n, hn⟩ := Nat.exists_eq_succ_of_ne_zero h
    obtain ⟨before, opening, inside, hts, hopening, hinside, -⟩ := exists_opening hn
    exact ⟨before, opening, inside, hts, hopening, hinside⟩

theorem stray_iff : Stray ts t ↔ t.kind = .rightParen ∧ openParens 0 ts = 0 := by
  rw [Stray, hasOpen_iff, Decidable.not_not]

/-! ## What the check finds -/

theorem strayParen?_cons :
    strayParen? depth (t :: ts) =
      if t.kind = .rightParen ∧ depth = 0 then some t else strayParen? (depthBehind depth t) ts := by
  by_cases hleft : t.kind = .leftParen
  · rw [strayParen?_left hleft, depthBehind_left hleft, if_neg (by simp [hleft])]
  by_cases hright : t.kind = .rightParen
  · cases depth with
    | zero =>
        rw [if_pos ⟨hright, rfl⟩]
        simp only [strayParen?, hright]
    | succ n =>
        rw [strayParen?_right hright, depthBehind_right hright, if_neg (by simp)]
        rfl
  · rw [strayParen?_other hleft hright, depthBehind_other hleft hright, if_neg fun h => hright h.1]

/-- The check of two pieces, where those that the first one leaves open may be closed by the second one. -/
theorem strayParen?_append_eq :
    strayParen? depth (ts ++ us) = (strayParen? depth ts).or (strayParen? (openParens depth ts) us) := by
  induction ts generalizing depth with
  | nil => rfl
  | cons t ts ih =>
      rw [List.cons_append, strayParen?_cons, strayParen?_cons]
      by_cases hstray : t.kind = .rightParen ∧ depth = 0
      · rw [if_pos hstray, if_pos hstray]
        rfl
      · rw [if_neg hstray, if_neg hstray, ih]
        rfl

/-- More open parentheses close more. -/
theorem strayParen?_mono {more : Nat} (hle : depth ≤ more) (h : strayParen? depth ts = none) :
    strayParen? more ts = none := by
  induction ts generalizing depth more with
  | nil => rfl
  | cons t ts ih =>
      rw [strayParen?_cons] at h ⊢
      by_cases hstray : t.kind = .rightParen ∧ depth = 0
      · rw [if_pos hstray] at h
        cases h
      · rw [if_neg hstray] at h
        have hmore : ¬(t.kind = .rightParen ∧ more = 0) := fun hmore => hstray ⟨hmore.1, by omega⟩
        rw [if_neg hmore]
        exact ih (depthBehind_mono hle) h

/-- The check finds nothing in two pieces together that it does not find in one of them. -/
theorem strayParen?_append (hts : strayParen? depth ts = none) (hus : strayParen? 0 us = none) :
    strayParen? depth (ts ++ us) = none := by
  rw [strayParen?_append_eq, hts, Option.none_or]
  exact strayParen?_mono (Nat.zero_le _) hus

/-- Where the check finds nothing, it finds nothing in the front part. -/
theorem strayParen?_front (h : strayParen? depth (ts ++ us) = none) : strayParen? depth ts = none := by
  rw [strayParen?_append_eq, Option.or_eq_none_iff] at h
  exact h.1

/-- What is found is a closing parenthesis where nothing is open. -/
theorem strayParen?_eq_some (h : strayParen? depth ts = some t) :
    ∃ front rest, ts = front ++ t :: rest ∧ strayParen? depth front = none ∧
      t.kind = .rightParen ∧ openParens depth front = 0 := by
  induction ts generalizing depth with
  | nil => cases h
  | cons u ts ih =>
      rw [strayParen?_cons] at h
      by_cases hstray : u.kind = .rightParen ∧ depth = 0
      · rw [if_pos hstray] at h
        cases h
        exact ⟨[], ts, rfl, rfl, hstray⟩
      · rw [if_neg hstray] at h
        obtain ⟨front, rest, rfl, hnone, hclosing⟩ := ih h
        refine ⟨u :: front, rest, rfl, ?_, hclosing⟩
        rw [strayParen?_cons, if_neg hstray]
        exact hnone

theorem strayParen?_eq_none_iff : strayParen? 0 ts = none ↔ ¬HasStray ts := by
  constructor
  · rintro h ⟨front, t, rest, rfl, hstray⟩
    have hfound := stray_iff.mp hstray
    rw [strayParen?_append_eq, Option.or_eq_none_iff, strayParen?_cons, hfound.2, if_pos ⟨hfound.1, rfl⟩] at h
    cases h.2
  · intro h
    cases hfound : strayParen? 0 ts with
    | none => rfl
    | some t =>
        obtain ⟨front, rest, hts, -, hclosing⟩ := strayParen?_eq_some hfound
        exact absurd ⟨front, t, rest, hts, stray_iff.mpr hclosing⟩ h

theorem strayParen?_eq_some_iff : strayParen? 0 ts = some t ↔ FirstStray ts t := by
  constructor
  · intro h
    obtain ⟨front, rest, hts, hnone, hclosing⟩ := strayParen?_eq_some h
    exact ⟨front, rest, hts, stray_iff.mpr hclosing, strayParen?_eq_none_iff.mp hnone⟩
  · rintro ⟨front, rest, rfl, hstray, hfirst⟩
    have hfound := stray_iff.mp hstray
    rw [strayParen?_append_eq, strayParen?_eq_none_iff.mpr hfirst, Option.none_or, strayParen?_cons, hfound.2]
    exact if_pos ⟨hfound.1, rfl⟩

end Counting
end Abacus
