import Abacus.Parse.Program
import Abacus.Proofs.Grammar.Statement
import Abacus.Proofs.Parse.Running

/-!
# `Grammar.Nesting` — the brackets of a phrase close each other

A phrase never leaves a parenthesis or a square bracket open, and never closes one that it did not open; and the two
kinds do not cross. This is said by kind of token: braces are operators, and keep an order of their own that the
grammar of blocks takes care of.

The check that is made before the first statement only counts parentheses, so it passes over well-nested tokens and
finds what it finds behind them.

## Contents
- `Closes`, `WellNested` — brackets that close each other;
- `NestedUpTo` — what stands in front of given tokens is well nested;
- `Statement.nestedUpTo` — every phrase is, one lemma a rule;
- `WellNested.strayParen?_append` — what the check makes of well-nested tokens.
-/

namespace Abacus

/-! ## Brackets that close each other -/

/-- Tells whether tokens of this kind are parentheses or square brackets. -/
def Token.Kind.isBracket (kind : Token.Kind) : Bool :=
  kind = .leftParen || kind = .rightParen || kind = .leftBracket || kind = .rightBracket

/-- A bracket of the second kind closes one of the first. -/
inductive Closes : Token.Kind → Token.Kind → Prop where
  | parens : Closes .leftParen .rightParen
  | brackets : Closes .leftBracket .rightBracket

/-- Every bracket among these tokens closes another one of them or is closed by one, and what stands between the two
is well nested again. -/
inductive WellNested : List Token → Prop where
  | nil : WellNested []
  | token {t : Token} : t.kind.isBracket = false → WellNested [t]
  | enclosed {opening closing : Token} {inside : List Token} :
      Closes opening.kind closing.kind → WellNested inside →
        WellNested (opening :: (inside ++ [closing]))
  | append {ts us : List Token} : WellNested ts → WellNested us → WellNested (ts ++ us)

/-! ## Phrases -/

namespace Grammar

open Parse (joinsFactors closeBrace)

/-- `ts` is followed by `rest`, and what stands in front of `rest` is well nested. -/
def NestedUpTo (ts rest : List Token) : Prop := ∃ front, ts = front ++ rest ∧ WellNested front

namespace NestedUpTo

variable {t : Token} {ts mid rest : List Token}

/-- Well-nested tokens, one behind the other. -/
theorem trans (h : NestedUpTo ts mid) (h' : NestedUpTo mid rest) : NestedUpTo ts rest := by
  obtain ⟨front, rfl, hfront⟩ := h
  obtain ⟨front', rfl, hfront'⟩ := h'
  exact ⟨front ++ front', (List.append_assoc ..).symm, hfront.append hfront'⟩

/-- A token that is no bracket. -/
theorem token {kind : Token.Kind} (h : t.kind = kind) (hkind : kind.isBracket = false) (rest : List Token) :
    NestedUpTo (t :: rest) rest :=
  ⟨[t], rfl, .token (h ▸ hkind)⟩

/-- A token that is no bracket in front of a phrase. -/
theorem cons {kind : Token.Kind} (h : t.kind = kind) (hkind : kind.isBracket = false)
    (hts : NestedUpTo ts rest) : NestedUpTo (t :: ts) rest :=
  (token h hkind ts).trans hts

/-- A phrase between brackets. -/
theorem enclosed {opening closing : Token} {left right : Token.Kind} (hopen : opening.kind = left)
    (hclose : closing.kind = right) (hcloses : Closes left right) (h : NestedUpTo ts (closing :: rest)) :
    NestedUpTo (opening :: ts) rest := by
  obtain ⟨inside, rfl, hinside⟩ := h
  refine ⟨opening :: (inside ++ [closing]), by simp, .enclosed ?_ hinside⟩
  rw [hopen, hclose]
  exact hcloses

end NestedUpTo

section Expressions

variable {known : List String}

mutual

/-- The brackets of an expression close each other. -/
theorem Expression.nestedUpTo {ts n rest} : Expression known ts n rest → NestedUpTo ts rest
  | .operation h => h.nestedUpTo
  | .assign h hequals h' => h.nestedUpTo.trans (.cons hequals rfl h'.nestedUpTo)
  | .store h hequals h' => h.nestedUpTo.trans (.cons hequals rfl h'.nestedUpTo)

theorem Operation.nestedUpTo {L ts n rest} : Operation known L ts n rest → NestedUpTo ts rest
  | .operand h => h.nestedUpTo
  | .tighter h => h.nestedUpTo
  | .binary h hsymbol _ h' => h.nestedUpTo.trans (.cons (Token.isOperator_kind hsymbol) rfl h'.nestedUpTo)

/-- The operands are where brackets are opened, and each rule closes what it has opened. -/
theorem Operand.nestedUpTo {ts n rest} : Operand known ts n rest → NestedUpTo ts rest
  | .number h _ => .token h rfl _
  | .boolean h => .token h rfl _
  | .call hname hopen h => by
      obtain ⟨closing, hclosing, hargs⟩ := h.nestedUpTo
      exact .cons (Token.isName_kind hname) rfl (.enclosed hopen hclosing .parens hargs)
  | .lookup hname _ hopen h hclose =>
      .cons (Token.isName_kind hname) rfl (.enclosed hopen hclose .brackets h.nestedUpTo)
  | .variable hname _ => .token (Token.isName_kind hname) rfl _
  | .function hname _ _ => .token (Token.isName_kind hname) rfl _
  | .group hopen h hclose => .enclosed hopen hclose .parens h.nestedUpTo
  | .array hopen h => by
      obtain ⟨closing, hclosing, hargs⟩ := h.nestedUpTo
      exact .enclosed hopen hclosing .brackets hargs

/-- A list is well nested up to the bracket that closes it. -/
theorem Arguments.nestedUpTo {closing ts args rest} : Arguments known closing ts args rest →
    ∃ t : Token, t.kind = closing ∧ NestedUpTo ts (t :: rest)
  | .empty h => ⟨_, h, [], rfl, .nil⟩
  | .items h => h.nestedUpTo

/-- The items are well nested up to the bracket that closes the list, which belongs to the rule around it. -/
theorem Items.nestedUpTo {closing ts args rest} : Items known closing ts args rest →
    ∃ t : Token, t.kind = closing ∧ NestedUpTo ts (t :: rest)
  | .last h ht => ⟨_, ht, h.nestedUpTo⟩
  | .cons h hcomma h' => by
      obtain ⟨t, ht, hrest⟩ := h'.nestedUpTo
      exact ⟨t, ht, h.nestedUpTo.trans (.cons hcomma rfl hrest)⟩

end

end Expressions

/-- The same for names, which contain no brackets at all. -/
theorem Names.nestedUpTo {ts names rest} : Names ts names rest →
    ∃ t : Token, t.kind = .rightParen ∧ NestedUpTo ts (t :: rest)
  | .last hname hclose => ⟨_, hclose, .token (Token.isName_kind hname) rfl _⟩
  | .cons hname hcomma h => by
      obtain ⟨t, ht, hrest⟩ := h.nestedUpTo
      exact ⟨t, ht, .cons (Token.isName_kind hname) rfl (.cons hcomma rfl hrest)⟩

theorem Params.nestedUpTo {ts params rest} : Params ts params rest →
    ∃ t : Token, t.kind = .rightParen ∧ NestedUpTo ts (t :: rest)
  | .empty h => ⟨_, h, [], rfl, .nil⟩
  | .names h => h.nestedUpTo

/-- The operators between factors are no brackets, not even a closing brace. -/
theorem Condition.nestedUpTo {known ts n rest} : Condition known ts n rest → NestedUpTo ts rest
  | .factor h => h.nestedUpTo
  | .join h hjoins _ h' =>
      h.nestedUpTo.trans (.cons (Parse.is_iff.mp (Bool.and_eq_true_iff.mp hjoins).1) rfl h'.nestedUpTo)

theorem Alone.nestedUpTo {known ts n rest} : Alone known ts n rest → NestedUpTo ts rest
  | .array hopen h => by
      obtain ⟨closing, hclosing, hargs⟩ := h.nestedUpTo
      exact .enclosed hopen hclosing .brackets hargs
  | .expression _ h _ => h.nestedUpTo

mutual

/-- **The brackets of a statement close each other.** -/
theorem Statement.nestedUpTo {known ts n known' defs rest} :
    Statement known ts n known' defs rest → NestedUpTo ts rest
  | .ended h hsemi => h.nestedUpTo.trans (.token hsemi rfl _)
  | .bare h _ _ => h.nestedUpTo
  | .branch hword hc h _ => .cons (Token.isWord_kind hword) rfl (hc.nestedUpTo.trans h.nestedUpTo)
  | .branches hword hc h hother h' =>
      .cons (Token.isWord_kind hword) rfl (hc.nestedUpTo.trans
        (h.nestedUpTo.trans (.cons (Token.isWord_kind hother) rfl h'.nestedUpTo)))
  | .loop hword hc h => .cons (Token.isWord_kind hword) rfl (hc.nestedUpTo.trans h.nestedUpTo)
  | .print hword h hsemi =>
      .cons (Token.isWord_kind hword) rfl (h.nestedUpTo.trans (.token hsemi rfl _))
  | .define hword hname hopen hp h => by
      obtain ⟨closing, hclosing, hparams⟩ := hp.nestedUpTo
      have hhead := NestedUpTo.enclosed hopen hclosing .parens hparams
      exact .cons (Token.isWord_kind hword) rfl (.cons (Token.isName_kind hname) rfl (hhead.trans h.nestedUpTo))
  | .giveBack hword hsemi => .cons (Token.isWord_kind hword) rfl (.token hsemi rfl _)
  | .giveBackValue hword h hsemi =>
      .cons (Token.isWord_kind hword) rfl (h.nestedUpTo.trans (.token hsemi rfl _))

theorem ElseClause.nestedUpTo {known ts n known' defs rest} :
    ElseClause known ts n known' defs rest → NestedUpTo ts rest
  | .nested _ h => h.nestedUpTo
  | .block h => h.nestedUpTo

/-- The braces of a block count as operators here. -/
theorem Block.nestedUpTo {known ts n known' defs rest} : Block known ts n known' defs rest → NestedUpTo ts rest
  | .braces hopen h => .cons (Token.isOperator_kind hopen) rfl h.nestedUpTo

/-- One statement behind the other, and the brace behind them. -/
theorem Statements.nestedUpTo {known ts ns known' defs rest} :
    Statements known ts ns known' defs rest → NestedUpTo ts rest
  | .last h hclose => h.nestedUpTo.trans (.token (Token.isOperator_kind hclose) rfl _)
  | .cons h h' => h.nestedUpTo.trans h'.nestedUpTo

end

end Grammar

/-! ## What the check makes of them -/

section Check

variable {t : Token} {ts : List Token}

/-- An opening parenthesis is one more to close. -/
theorem strayParen?_left (h : t.kind = .leftParen) (depth : Nat) :
    strayParen? depth (t :: ts) = strayParen? (depth + 1) ts := by
  simp only [strayParen?, h]

theorem strayParen?_right (h : t.kind = .rightParen) (depth : Nat) :
    strayParen? (depth + 1) (t :: ts) = strayParen? depth ts := by
  simp only [strayParen?, h]

/-- Only parentheses are counted. -/
theorem strayParen?_other (hleft : t.kind ≠ .leftParen) (hright : t.kind ≠ .rightParen) (depth : Nat) :
    strayParen? depth (t :: ts) = strayParen? depth ts := by
  conv => lhs; unfold strayParen?
  split
  · next h => exact absurd h hleft
  · next h => exact absurd h hright
  · next h => exact absurd h hright
  · rfl

theorem strayParen?_of_kind {kind : Token.Kind} (h : t.kind = kind) (hleft : kind ≠ .leftParen)
    (hright : kind ≠ .rightParen) (depth : Nat) : strayParen? depth (t :: ts) = strayParen? depth ts :=
  strayParen?_other (h ▸ hleft) (h ▸ hright) depth

/-- **The check passes over well-nested tokens**, whatever is open in front of them. -/
theorem WellNested.strayParen?_append (h : WellNested ts) (us : List Token) (depth : Nat) :
    strayParen? depth (ts ++ us) = strayParen? depth us := by
  induction h generalizing us depth with
  | nil => rfl
  | @token t hkind =>
      refine strayParen?_other ?_ ?_ depth
      · intro hleft
        rw [hleft] at hkind
        cases hkind
      · intro hright
        rw [hright] at hkind
        cases hkind
  | @enclosed opening closing inside hcloses _ ih =>
      rw [List.cons_append, List.append_assoc, List.singleton_append]
      generalize hleft : opening.kind = left at hcloses
      generalize hright : closing.kind = right at hcloses
      cases hcloses with
      | parens => rw [strayParen?_left hleft, ih, strayParen?_right hright]
      | brackets =>
          rw [strayParen?_of_kind hleft (by decide) (by decide), ih,
            strayParen?_of_kind hright (by decide) (by decide)]
  | append _ _ ih ih' => rw [List.append_assoc, ih, ih']

/-- Well-nested tokens have no stray parenthesis among them. -/
theorem WellNested.strayParen?_eq_none (h : WellNested ts) : strayParen? 0 ts = none := by
  have hcheck := h.strayParen?_append [] 0
  rw [List.append_nil] at hcheck
  exact hcheck

end Check
end Abacus
