import Abacus.Proofs.Grammar.TreeShape

/-!
# `Grammar.ConditionOperators` — where an operator without a meaning is read

Only the rule for conditions takes any symbol for an operator. So an operator without a meaning that stands somewhere in
the tree of a statement was read **between two factors of the condition of an `if` or a `while`**, and in a text the
only symbol that can be read there without having a meaning is a closing brace.

## Contents
- `InCondition` — a token that joins factors of a condition;
- `Placed`, `Statement.placed` — operators that have a meaning or are read there;
- `Token.Lexed.closeBrace` — the symbol of such an operator.
-/

namespace Abacus

open Parse (factorLevel joinsFactors closeBrace)
open Term (Everywhere everywhere_iff)

namespace Grammar

/-- Somewhere in the tokens, `symbol` joins two factors of the condition of an `if` or a `while`: factors that are
joined already stand in front of it, a factor behind it, and the condition does not end before that. -/
inductive InCondition (tokens : List Token) (symbol : Token) : Prop where
  | join {known : List String} {word : Token} {ts mid rest after : List Token} {left right condition : Term} :
      (word.isWord "if" = true ∨ word.isWord "while" = true) → word :: ts <:+ tokens →
      Condition known ts left (symbol :: mid) → joinsFactors symbol = true →
      Operation known [factorLevel] mid right rest → Condition known ts condition after → after <:+ rest →
      InCondition tokens symbol

theorem InCondition.joins {tokens : List Token} {symbol : Token} :
    InCondition tokens symbol → joinsFactors symbol = true
  | .join _ _ _ h _ _ _ => h

/-- The operator is one of the tokens. -/
theorem InCondition.mem {tokens : List Token} {symbol : Token} : InCondition tokens symbol → symbol ∈ tokens
  | .join _ hsuffix h _ _ _ _ =>
      hsuffix.subset (List.mem_cons_of_mem _ (h.before.suffix.subset (List.mem_cons_self ..)))

/-- The operator of a term has a meaning, or is read in a condition. -/
def Placed (tokens : List Token) : Term → Prop
  | .binary op _ _ => op ∈ Operator.meaningful ∨ ∃ symbol, InCondition tokens symbol ∧ op = .ofText symbol.text
  | _ => True

section Placed

variable {tokens : List Token}

/-- Where every operator has a meaning, there is none to be placed. -/
theorem placed_of_meaning {n : Term} (h : n.Everywhere Term.HasMeaning) : n.Everywhere (Placed tokens) := by
  refine h.imp fun t ht => ?_
  cases t with
  | binary op left right => exact .inl ht
  | _ => trivial

/-- A term without an operator of its own. -/
theorem placed_of_parts {n : Term} (hhead : ∀ op left right, n ≠ .binary op left right)
    (hparts : ∀ p ∈ n.parts, p.Everywhere (Placed tokens)) : n.Everywhere (Placed tokens) := by
  refine everywhere_iff.mpr ⟨?_, hparts⟩
  cases n with
  | binary op left right => exact absurd rfl (hhead op left right)
  | _ => trivial

/-- The operators of a condition, as far as it has been read. -/
theorem Condition.placed_upto {known word ts condition after}
    (hword : word.isWord "if" = true ∨ word.isWord "while" = true)
    (hsuffix : word :: ts <:+ tokens) (hwhole : Condition known ts condition after) {n rest} :
    Condition known ts n rest → after <:+ rest → n.Everywhere (Placed tokens)
  | .factor h, _ => placed_of_meaning h.hasMeaning
  | .join h hjoins _ h', hafter => by
      have hleft := Condition.placed_upto hword hsuffix hwhole h
        (hafter.trans (h'.before.suffix.trans (List.suffix_cons _ _)))
      refine everywhere_iff.mpr ⟨.inr ⟨_, .join hword hsuffix h hjoins h' hwhole hafter, rfl⟩, ?_⟩
      simpa [Term.parts] using ⟨hleft, placed_of_meaning h'.hasMeaning⟩

/-- The operators between factors are the ones that are found in the condition of a statement. -/
theorem Condition.placed {known word ts condition after} (hword : word.isWord "if" = true ∨ word.isWord "while" = true)
    (hsuffix : word :: ts <:+ tokens) (h : Condition known ts condition after) : condition.Everywhere (Placed tokens) :=
  Condition.placed_upto hword hsuffix h h (List.suffix_refl _)

/-- An expression that stands alone contains no condition. -/
theorem Alone.placed {known ts n rest} (h : Alone known ts n rest) : n.Everywhere (Placed tokens) :=
  placed_of_meaning ((h.worded (List.Subset.refl _)).imp fun _ ht => ht.2)

mutual

/-- **The operators of a statement have a meaning, or are read in a condition.** -/
theorem Statement.placed {known ts n known' defs rest} (hts : ts <:+ tokens) :
    Statement known ts n known' defs rest → n.Everywhere (Placed tokens)
  | .ended h _ => h.placed
  | .bare h _ _ => h.placed
  | .branch hword hc h _ => by
      have hcondition := hc.placed (.inl hword) hts
      have hbody := h.placed (((Before.cons _ _).trans hc.before).suffix.trans hts)
      refine placed_of_parts (by simp) ?_
      simpa [Term.parts] using ⟨hcondition, hbody⟩
  | .branches hword hc h _ h' => by
      have hcondition := hc.placed (.inl hword) hts
      have hmid := ((Before.cons _ _).trans hc.before).suffix.trans hts
      have hotherwise := h'.placed ((h.before.trans (.cons _ _)).suffix.trans hmid)
      refine placed_of_parts (by simp) ?_
      simpa [Term.parts] using ⟨hcondition, h.placed hmid, hotherwise⟩
  | .loop hword hc h => by
      have hcondition := hc.placed (.inr hword) hts
      have hbody := h.placed (((Before.cons _ _).trans hc.before).suffix.trans hts)
      refine placed_of_parts (by simp) ?_
      simpa [Term.parts] using ⟨hcondition, hbody⟩
  | .print _ h _ => by
      refine placed_of_parts (by simp) ?_
      simpa [Term.parts] using placed_of_meaning h.hasMeaning
  | .define _ _ _ hp h => by
      have hbody := h.placed (((Before.cons _ _).trans ((Before.cons _ _).trans ((Before.cons _ _).trans
        hp.before))).suffix.trans hts)
      refine placed_of_parts (by simp) ?_
      simpa [Term.parts] using hbody
  | .giveBack _ _ => placed_of_parts (by simp) (by simp [Term.parts])
  | .giveBackValue _ h _ => by
      refine placed_of_parts (by simp) ?_
      simpa [Term.parts] using placed_of_meaning h.hasMeaning

theorem ElseClause.placed {known ts n known' defs rest} (hts : ts <:+ tokens) :
    ElseClause known ts n known' defs rest → n.Everywhere (Placed tokens)
  | .nested _ h => by
      refine placed_of_parts (by simp) ?_
      simpa [Term.parts] using h.placed hts
  | .block h => by
      refine placed_of_parts (by simp) ?_
      simpa [Term.parts] using h.placed hts

theorem Block.placed {known ts n known' defs rest} (hts : ts <:+ tokens) :
    Block known ts n known' defs rest → n.Everywhere (Placed tokens)
  | .braces _ h => by
      have hinside : (Term.block _).Everywhere (Placed tokens) :=
        placed_of_parts (by simp) (h.placed ((Before.cons _ _).suffix.trans hts))
      refine placed_of_parts (by simp) ?_
      simpa [Term.parts] using hinside

/-- Blocks have their tokens among those of the text, so conditions inside are found there, too. -/
theorem Statements.placed {known ts ns known' defs rest} (hts : ts <:+ tokens) :
    Statements known ts ns known' defs rest → ∀ n ∈ ns, n.Everywhere (Placed tokens)
  | .last h _ => by simpa using h.placed hts
  | .cons h h' => List.forall_mem_cons.mpr ⟨h.placed hts, h'.placed (h.before.suffix.trans hts)⟩

end

end Placed

end Grammar

/-! ## The symbol -/

/-- The symbol that is read as a closing brace is one. -/
theorem Token.Lexed.closeBrace {t : Token} (h : t.Lexed) (hkind : t.kind = .operator)
    (hop : Operator.ofText t.text = .unknown '\x7d') : t.isOperator closeBrace = true := by
  obtain ⟨hpattern, -⟩ := h
  rw [hkind] at hpattern
  generalize htext : t.text.toList = text at hpattern
  cases hpattern with
  | symbol hmem =>
      have hall : ∀ entry ∈ symbols, Operator.ofText (.ofList entry.1) = .unknown '\x7d' →
          String.ofList entry.1 = Parse.closeBrace := by
        decide +kernel
      have hword : t.text = .ofList text := by rw [← htext, String.ofList_toList]
      rw [hword] at hop
      have hbrace : t.text = Parse.closeBrace := hword.trans (hall _ hmem hop)
      simp [Token.isOperator, hkind, hbrace]

/-- In a text, an operator without a meaning is a closing brace in a condition. -/
theorem Grammar.Placed.closeBrace {tokens : List Token} {c : Char} {left right : Term}
    (hlexed : ∀ t ∈ tokens, t.kind = .finish ∨ t.Lexed) (h : Placed tokens (.binary (.unknown c) left right)) :
    c = '\x7d' ∧ ∃ symbol, symbol.isOperator closeBrace = true ∧ InCondition tokens symbol := by
  rcases h with hmeaning | ⟨symbol, hin, hop⟩
  · simp [Operator.meaningful] at hmeaning
  · have hoperator : symbol.kind = .operator := by
      have hjoins := hin.joins
      simp only [joinsFactors, Token.is, Bool.and_eq_true, decide_eq_true_eq] at hjoins
      exact hjoins.1
    have hsymbol : symbol.Lexed := by
      refine (hlexed symbol hin.mem).resolve_left fun hfinish => ?_
      rw [hoperator] at hfinish
      cases hfinish
    have hmem := hsymbol.operator hin.joins
    rw [← hop] at hmem
    have hc : c = '\x7d' := by simpa [Operator.meaningful] using hmem
    rw [hc] at hop
    exact ⟨hc, symbol, hsymbol.closeBrace hoperator hop.symm, hin⟩

end Abacus
