import Abacus.Proofs.Grammar.ProgramReading

/-!
# `Grammar.KnownNames` — a known function can only be in the way

The parser asks in one place whether a name is known to be a function: behind a name that is not called. A name that is
known has to be followed by a semicolon there, and a name that is not known need not be. In front of a semicolon both
are read as the same term. So what is read with some functions known is read **the same with fewer of them known**, and
the other way round a function that is known can only be a reason to fail.

Both readings learn the same names on the way, so one of them stays ahead of the other.

## Contents
- `Expression.anti`, `Statement.anti` — phrases with fewer functions known;
- `State.withKnown`, `Indifferent` — actions that do the same with fewer functions known;
- `knowing_less_reads_alike` — expressions, statements and programs.
-/

namespace Abacus

open Parse (State)

/-! ## Phrases -/

namespace Grammar

section Fewer

variable {known fewer : List String}

mutual

/-- A phrase is one with fewer functions known, and its tree is the same. -/
theorem Expression.anti {ts n rest} (hsub : fewer ⊆ known) : Expression known ts n rest → Expression fewer ts n rest
  | .operation h => .operation (h.anti hsub)
  | .assign h hequals h' => .assign (h.anti hsub) hequals (h'.anti hsub)
  | .store h hequals h' => .store (h.anti hsub) hequals (h'.anti hsub)

theorem Operation.anti {L ts n rest} (hsub : fewer ⊆ known) : Operation known L ts n rest → Operation fewer L ts n rest
  | .operand h => .operand (h.anti hsub)
  | .tighter h => .tighter (h.anti hsub)
  | .binary h hsym hmem h' => .binary (h.anti hsub) hsym hmem (h'.anti hsub)

/-- The one rule that asks what is known is that for a bare name, and a function and a variable are the same term. -/
theorem Operand.anti {ts n rest} (hsub : fewer ⊆ known) : Operand known ts n rest → Operand fewer ts n rest
  | .number h hread => .number h hread
  | .boolean h => .boolean h
  | .call hname hopen h => .call hname hopen (h.anti hsub)
  | .lookup hname hknown hopen h hclose => .lookup hname (mt (@hsub _) hknown) hopen (h.anti hsub) hclose
  | .variable hname hknown => .variable hname (mt (@hsub _) hknown)
  | @Operand.function _ t _ _ hname _ hsemi => by
      -- in front of a semicolon, a function and a variable are read alike
      by_cases hknown : t.text ∈ fewer
      · exact .function hname hknown hsemi
      · exact .variable hname hknown
  | .group hopen h hclose => .group hopen (h.anti hsub) hclose
  | .array hopen h => .array hopen (h.anti hsub)

theorem Arguments.anti {closing ts args rest} (hsub : fewer ⊆ known) :
    Arguments known closing ts args rest → Arguments fewer closing ts args rest
  | .empty h => .empty h
  | .items h => .items (h.anti hsub)

theorem Items.anti {closing ts args rest} (hsub : fewer ⊆ known) :
    Items known closing ts args rest → Items fewer closing ts args rest
  | .last h hclose => .last (h.anti hsub) hclose
  | .cons h hcomma h' => .cons (h.anti hsub) hcomma (h'.anti hsub)

end

theorem Condition.anti {ts n rest} (hsub : fewer ⊆ known) : Condition known ts n rest → Condition fewer ts n rest
  | .factor h => .factor (h.anti hsub)
  | .join h hjoins hop h' => .join (h.anti hsub) hjoins hop (h'.anti hsub)

theorem Alone.anti {ts n rest} (hsub : fewer ⊆ known) : Alone known ts n rest → Alone fewer ts n rest
  | .array hopen h => .array hopen (h.anti hsub)
  | .expression hfirst h hends => .expression hfirst (h.anti hsub) hends

end Fewer

mutual

/-- A statement is one with fewer functions known, with the same tree and the same definitions. -/
theorem Statement.anti {known known' fewer : List String} {ts rest : List Token} {n : Term}
    {defs : List Definition} (hsub : fewer ⊆ known) :
    Statement known ts n known' defs rest → ∃ fewer' ⊆ known', Statement fewer ts n fewer' defs rest
  | .ended h hsemi => ⟨fewer, hsub, .ended (h.anti hsub) hsemi⟩
  | .bare h hassign hnot => ⟨fewer, hsub, .bare (h.anti hsub) hassign hnot⟩
  | .branch hword hc h hnot => by
      obtain ⟨fewer', hsub', hbody⟩ := h.anti hsub
      exact ⟨fewer', hsub', .branch hword (hc.anti hsub) hbody hnot⟩
  | .branches hword hc h hother h' => by
      obtain ⟨fewer₁, hsub₁, hbody⟩ := h.anti hsub
      obtain ⟨fewer₂, hsub₂, hotherwise⟩ := h'.anti hsub₁
      exact ⟨fewer₂, hsub₂, .branches hword (hc.anti hsub) hbody hother hotherwise⟩
  | .loop hword hc h => by
      obtain ⟨fewer', hsub', hbody⟩ := h.anti hsub
      exact ⟨fewer', hsub', .loop hword (hc.anti hsub) hbody⟩
  | .print hword h hsemi => ⟨fewer, hsub, .print hword (h.anti hsub) hsemi⟩
  | .define hword hname hopen hparams h => by
      -- the name of the function is known in its body either way
      obtain ⟨fewer', hsub', hbody⟩ := h.anti (List.cons_subset_cons _ hsub)
      exact ⟨fewer', hsub', .define hword hname hopen hparams hbody⟩
  | .giveBack hword hsemi => ⟨fewer, hsub, .giveBack hword hsemi⟩
  | .giveBackValue hword h hsemi => ⟨fewer, hsub, .giveBackValue hword (h.anti hsub) hsemi⟩

theorem ElseClause.anti {known known' fewer : List String} {ts rest : List Token} {n : Term}
    {defs : List Definition} (hsub : fewer ⊆ known) :
    ElseClause known ts n known' defs rest → ∃ fewer' ⊆ known', ElseClause fewer ts n fewer' defs rest
  | .nested hword h => by
      obtain ⟨fewer', hsub', hnested⟩ := h.anti hsub
      exact ⟨fewer', hsub', .nested hword hnested⟩
  | .block h => by
      obtain ⟨fewer', hsub', hbody⟩ := h.anti hsub
      exact ⟨fewer', hsub', .block hbody⟩

/-- What the smaller set has learnt by the end of a block is still among what the larger one has. -/
theorem Block.anti {known known' fewer : List String} {ts rest : List Token} {n : Term}
    {defs : List Definition} (hsub : fewer ⊆ known) :
    Block known ts n known' defs rest → ∃ fewer' ⊆ known', Block fewer ts n fewer' defs rest
  | .braces hopen h => by
      obtain ⟨fewer', hsub', hinside⟩ := h.anti hsub
      exact ⟨fewer', hsub', .braces hopen hinside⟩

/-- Statement by statement, the smaller set grows along with the larger one. -/
theorem Statements.anti {known known' fewer : List String} {ts rest : List Token} {ns : List Term}
    {defs : List Definition} (hsub : fewer ⊆ known) :
    Statements known ts ns known' defs rest → ∃ fewer' ⊆ known', Statements fewer ts ns fewer' defs rest
  | .last h hclose => by
      obtain ⟨fewer', hsub', hhead⟩ := h.anti hsub
      exact ⟨fewer', hsub', .last hhead hclose⟩
  | .cons h h' => by
      obtain ⟨fewer₁, hsub₁, hhead⟩ := h.anti hsub
      obtain ⟨fewer₂, hsub₂, htail⟩ := h'.anti hsub₁
      exact ⟨fewer₂, hsub₂, .cons hhead htail⟩

end

end Grammar

/-! ## Actions -/

namespace Parse

variable {α β : Type}

/-- The state in which other functions are known. -/
def State.withKnown (s : State) (known : List String) : State := { s with known }

/-- A new parser knows the functions it is given. -/
theorem withKnown_ofTokens (tokens : List Token) (known fewer : List String) :
    (State.ofTokens tokens known).withKnown fewer = State.ofTokens tokens fewer := by
  unfold State.ofTokens
  split
  · rfl
  · split <;> rfl

/-- Where the action succeeds, it succeeds with fewer functions known: it gives the same value, and all it leaves is the
same except that fewer functions are known. -/
def Indifferent (p : Parse α) : Prop :=
  ∀ ⦃s u : State⦄ ⦃a : α⦄ ⦃fewer : List String⦄, fewer ⊆ s.known → p s = (.ok a, u) →
    ∃ fewer' ⊆ u.known, p (s.withKnown fewer) = (.ok a, u.withKnown fewer')

namespace Indifferent

protected theorem pure (a : α) : Indifferent (pure a : Parse α) := by
  intro s u b fewer hsub h
  cases h
  exact ⟨fewer, hsub, rfl⟩

/-- The names that are left of the smaller set are handed from the first action to the second one. -/
protected theorem bind {p : Parse α} {f : α → Parse β} (hp : Indifferent p) (hf : ∀ a, Indifferent (f a)) :
    Indifferent (p >>= f) := by
  intro s u b fewer hsub h
  obtain ⟨a, t, hfirst, hsecond⟩ := bind_eq_ok.mp h
  obtain ⟨mid, hmid, hfirst'⟩ := hp hsub hfirst
  obtain ⟨fewer', hsub', hsecond'⟩ := hf a hmid hsecond
  exact ⟨fewer', hsub', bind_eq_ok.mpr ⟨a, _, hfirst', hsecond'⟩⟩

theorem look : Indifferent look := by
  intro s u t fewer hsub h
  cases h
  exact ⟨fewer, hsub, rfl⟩

/-- Parentheses are counted without asking for names. -/
theorem checkParens : Indifferent checkParens := by
  intro s u a fewer hsub h
  unfold Parse.checkParens at h ⊢
  split at h
  · next hscan =>
    cases h
    exact ⟨fewer, hsub, if_pos hscan⟩
  · next hscan =>
    cases hstray : strayParen? 0 s.tokens with
    | some t =>
        rw [hstray] at h
        cases h
    | none =>
        rw [hstray] at h
        cases h
        refine ⟨fewer, hsub, ?_⟩
        have hsame : strayParen? 0 (s.withKnown fewer).tokens = none := hstray
        rw [if_neg (show ¬(s.withKnown fewer).scanned = true from hscan), hsame]
        rfl

/-- What an expression reads is a phrase, and so the lemma on phrases applies to it. -/
theorem expression : Indifferent expression := by
  intro s u n fewer hsub h
  obtain ⟨rest, rfl, hphrase, hends⟩ := Grammar.expression_eq_ok_iff.mp h
  exact ⟨fewer, hsub, Grammar.expression_eq_ok_iff.mpr ⟨rest, rfl, hphrase.anti hsub, hends⟩⟩

theorem statement : Indifferent statement := by
  intro s u n fewer hsub h
  obtain ⟨known, defs, rest, rfl, hphrase⟩ := Grammar.statement_gathers h
  obtain ⟨fewer', hsub', hphrase'⟩ := hphrase.anti hsub
  exact ⟨fewer', hsub', hphrase'.read (s.withKnown fewer) rfl⟩

/-- Unless the program has ended, a statement is read, after the check if it is the first one. -/
theorem next : Indifferent next := by
  refine .bind checkParens fun _ => .bind look fun t => ?_
  split
  · exact .pure none
  · exact .bind statement fun n => .pure (some n)

/-- One round of reading all statements. -/
theorem allStep {more : Unit → Parse (List Term)} (hmore : Indifferent (more ())) :
    Indifferent (allStep more ()) := by
  refine .bind next fun r => ?_
  cases r with
  | none => exact .pure []
  | some head => exact .bind hmore fun tail => .pure (head :: tail)

/-- One statement after another: what is left of the smaller set is never more than what is known. -/
theorem all : Indifferent all := by
  have within (bound : List Token) : Indifferent (recurseWithin Parse.allStep bound ()) :=
    recurseWithin_induction (P := fun f => Indifferent (f ())) (fun _ _ _ _ _ h => by cases h)
      (fun _ hf => allStep hf) bound
  -- the bound is the number of tokens, whatever is known
  intro s u ns fewer hsub h
  exact within s.tokens hsub h

end Indifferent

/-- **Knowing more functions can only reject.** What the parser reads with some functions known, it reads with fewer of
them known: an expression, a statement or all statements that are left. It gives the same trees, stops at the same
token, and has queued the same definitions; besides the functions that are known, the states it leaves are the same. -/
theorem knowing_less_reads_alike (s : State) {fewer more : List String} (hsub : fewer ⊆ more) :
    (∀ r u, next (s.withKnown more) = (.ok r, u) →
      ∃ left ⊆ u.known, next (s.withKnown fewer) = (.ok r, u.withKnown left)) ∧
    (∀ n u, expression (s.withKnown more) = (.ok n, u) →
      ∃ left ⊆ u.known, expression (s.withKnown fewer) = (.ok n, u.withKnown left)) ∧
    ∀ ns u, all (s.withKnown more) = (.ok ns, u) →
      ∃ left ⊆ u.known, all (s.withKnown fewer) = (.ok ns, u.withKnown left) :=
  ⟨fun _ _ => Indifferent.next hsub, fun _ _ => Indifferent.expression hsub, fun _ _ => Indifferent.all hsub⟩

/-- `def g() { f; } f;` with `f` known and without it: the bare name is a function in one reading and a variable in the
other, and the trees are the same. -/
theorem knowing_less_reads_alike_bare_name :
    let tokens : List Token :=
      [⟨.identifier, "def", ⟨1, 1⟩⟩, ⟨.identifier, "g", ⟨1, 5⟩⟩, ⟨.leftParen, "(", ⟨1, 6⟩⟩, ⟨.rightParen, ")", ⟨1, 7⟩⟩,
        ⟨.operator, "\x7b", ⟨1, 9⟩⟩, ⟨.identifier, "f", ⟨1, 11⟩⟩, ⟨.semicolon, ";", ⟨1, 12⟩⟩,
        ⟨.operator, "\x7d", ⟨1, 14⟩⟩, ⟨.identifier, "f", ⟨1, 16⟩⟩, ⟨.semicolon, ";", ⟨1, 17⟩⟩, .finish ⟨1, 18⟩]
    let body : Term := .braced (.block [.var "f"])
    ∃ u, all (State.ofTokens tokens []) = (.ok [.define "g" [] body, .var "f"], u) ∧ u.queued = [⟨"g", [], body⟩] ∧
      u.tokens = [] := by
  intro tokens body
  have hmore : all ((State.ofTokens tokens []).withKnown ["f"]) =
      (.ok [.define "g" [] body, .var "f"],
        (State.ofTokens tokens []).checked.behind ["g", "f"] [⟨"g", [], body⟩] []) := by
    subst tokens body
    rfl
  obtain ⟨left, -, hfewer⟩ :=
    (knowing_less_reads_alike (State.ofTokens tokens []) (List.nil_subset ["f"])).2.2 _ _ hmore
  rw [withKnown_ofTokens] at hfewer
  exact ⟨_, hfewer, rfl, rfl⟩

end Parse
end Abacus
