import Abacus.Parse.Program
import Abacus.Proofs.Parse.Simulation

/-!
# `Parse.Rules` — every rule of the grammar keeps to the tokens

One lemma a rule: it does the same on two states that a simulation relates. The rules for what stands inside
brackets or blocks take the action for it as an argument, so their lemmas do too: the argument is only
needed on fewer tokens, since a bracket or a word is passed first.

Applied to equality the lemmas give the equations of the recursive rules, in which no bound is left:
`items_eq`, `chainRest_eq`, `expression_eq`, `conditionRest_eq`, `statements_eq`, `statement_eq`.
-/

namespace Abacus
namespace Parse

variable {α : Type} {S : Simulation} {k n : Nat}

/-! ## Names and lists -/

/-- A name looks at the kind of one token and takes its text, which related states share. -/
theorem name_follows : Follows S anyToken 1 n name name := by
  unfold name
  refine .expect .isName fun a b htext => ?_
  rw [htext]
  exact .pure _

/-- One round of a list reads an item, so fewer tokens are left for the rounds behind it. -/
theorem itemsStep_follows {closing : Token.Kind} (hc : closing ≠ .finish) {p q : Parse α}
    {f g : Unit → Parse (List α)} (hp : Follows S anyToken k n p q)
    (hfg : ∀ u, Follows S anyToken k (n - 1) (f u) (g u)) (u : Unit) :
    Follows S anyToken k n (itemsStep closing p f u) (itemsStep closing q g u) := by
  unfold itemsStep
  refine hp.seq fun head => ?_
  refine .accept (.is _ (by decide)) ?_ ?_
  · exact ((hfg ()).lower (by omega)).loose.andThen fun tail => .pure _
  · exact (Follows.expect (k := 0) (.is _ hc) fun _ _ _ => .pure _).loose

/-- A list closed by a token that is no `END`: its recursion is bounded by the tokens that are left. -/
theorem items_follows {closing : Token.Kind} (hc : closing ≠ .finish) {p q : Parse α}
    (hp : Follows S anyToken k n p q) :
    Follows S anyToken k n (items closing p) (items closing q) :=
  .recurse (fun _ hl _ _ hfg => itemsStep_follows hc (hp.lower hl) hfg) ()

/-- A list that may be empty. Where it is, only the closing token is passed. -/
theorem commaList_follows {closing : Token.Kind} (hc : closing ≠ .finish) {p q : Parse α}
    (hp : Follows S anyToken k n p q) :
    Follows S anyToken 0 n (commaList closing p) (commaList closing q) :=
  .accept (.is _ hc) (.pure _) (items_follows hc hp).loose

/-! ## Operands -/

/-- A number passes the token in front, which the caller knows not to be `END`. -/
theorem number_follows {P : Token → Prop} (hP : ∀ t, P t → t.kind ≠ .finish) :
    Follows S P 1 n number number := by
  unfold number
  refine .look fun a b _ htext => ?_
  rw [← htext]
  split
  · exact .advance (fun t ht => hP t ht.1) (.pure _)
  · exact .unexpected

/-- The elements of an array stand behind its bracket, so what reads them is only asked about fewer tokens. -/
theorem array_follows {p q : Parse Term} (hp : Follows S anyToken 0 (n - 1) p q) :
    Follows S anyToken 1 n (array p) (array q) :=
  .expect (.is _ (by decide)) fun _ _ _ => (commaList_follows (by decide) hp).andThen fun _ => .pure _

/-- A name is a call, an element or a variable; which of them depends on the next token, and on whether the name is
known. -/
theorem named_follows {p q : Parse Term} (hp : Follows S anyToken 0 (n - 1) p q) :
    Follows S anyToken 1 n (named p) (named q) := by
  unfold named
  refine name_follows.seq fun name => ?_
  refine .accept (.is _ (by decide)) ?_ ?_
  · exact (commaList_follows (by decide) (hp.lower (by omega))).andThen fun args => .pure _
  · refine .isKnown name fun known => ?_
    split
    · refine .look fun a b hkind _ => ?_
      rw [show b.is .semicolon = a.is .semicolon from by simp [Token.is, hkind]]
      split
      · exact (Follows.pure _)
      · exact .unexpected
    · refine .accept (.is _ (by decide)) ?_ (.pure _)
      refine (hp.lower (by omega)).andThen fun index => ?_
      exact (Follows.expect (k := 0) (.is _ (by decide)) fun _ _ _ => .pure _).loose

/-- An operand is chosen by the kind of the current token. None of the kinds that are passed here is `END`. -/
theorem operand_follows {p q : Parse Term} (hp : Follows S anyToken 0 (n - 1) p q) :
    Follows S anyToken 1 n (operand p) (operand q) := by
  unfold operand
  refine .look fun a b hkind htext => ?_
  rw [← hkind, ← htext]
  have hnot : ∀ kind, a.kind = kind → kind ≠ .finish →
      ∀ t, anyToken t ∧ t = a → t.kind ≠ .finish := by
    intro kind ha hne t ht
    rw [ht.2, ha]
    exact hne
  split
  · next h => exact number_follows (hnot _ h (by decide))
  · next h => exact .advance (hnot _ h (by decide)) (.pure _)
  · exact (named_follows hp).anywhere
  · next h =>
    refine .advance (hnot _ h (by decide)) ?_
    refine hp.andThen fun inner => ?_
    exact (Follows.expect (k := 0) (.is _ (by decide)) fun _ _ _ => .pure _).loose
  · exact (array_follows hp).anywhere
  · exact .unexpected

/-! ## Operators -/

/-- A token that stands for an operator does not end the program. -/
theorem kind_of_operatorOf? {t : Token} {op : Operator} (h : operatorOf? t = some op) :
    t.kind = .operator := by
  unfold operatorOf? at h
  split at h
  · assumption
  · cases h

/-- A round passes an operator and reads what is on its right. -/
theorem chainStep_follows {level : List Operator} {p q : Parse Term} {f g : Term → Parse Term}
    (hp : Follows S anyToken 1 n p q) (hfg : ∀ a, Follows S anyToken 0 (n - 1) (f a) (g a))
    (left : Term) :
    Follows S anyToken 0 n (chainStep level p f left) (chainStep level q g left) := by
  unfold chainStep
  refine .look fun a b hkind htext => ?_
  rw [show operatorOf? b = operatorOf? a from by simp [operatorOf?, hkind, htext]]
  split
  · next op h =>
    have hop : operatorOf? a = some op := (Option.filter_eq_some_iff.mp h).1
    refine (Follows.advance (k := 0) (fun t ht => ?_) ?_).loose
    · rw [ht.2, kind_of_operatorOf? hop]
      decide
    · exact (hp.lower (by omega)).loose.andThen fun right => hfg _
  · exact .pure _

/-- The operators of one level, one behind the other. -/
theorem chainRest_follows {level : List Operator} {p q : Parse Term}
    (hp : Follows S anyToken 1 n p q) (left : Term) :
    Follows S anyToken 0 n (chainRest level p left) (chainRest level q left) :=
  .recurse (fun _ hl _ _ hfg => chainStep_follows (hp.lower hl) hfg) left

theorem chain_follows {level : List Operator} {p q : Parse Term} (hp : Follows S anyToken 1 n p q) :
    Follows S anyToken 1 n (chain level p) (chain level q) :=
  hp.seq fun first => chainRest_follows (hp.lower (by omega)) first

/-- The ladder is a chain of chains: induction on its levels, the loosest in front. -/
theorem ladder_follows {p q : Parse Term} (hp : Follows S anyToken 1 n p q) :
    ∀ levels, Follows S anyToken 1 n (ladder levels p) (ladder levels q) := by
  intro levels
  induction levels with
  | nil => exact hp
  | cons level tighter ih => exact chain_follows ih

/-! ## Expressions and conditions -/

/-- What may stand on the left of an assignment is the same term on both sides, so the same case applies to both. -/
theorem assignTo_follows {p q : Parse Term} (hp : Follows S anyToken 1 (n - 1) p q) (target : Term) :
    Follows S anyToken 0 n (assignTo p target) (assignTo q target) := by
  unfold assignTo
  refine .look fun a b hkind _ => ?_
  rw [show b.is .assignment = a.is .assignment from by simp [Token.is, hkind]]
  split
  · next h =>
    have hnot : ∀ t, anyToken t ∧ t = a → t.kind ≠ .finish := by
      intro t ht
      rw [ht.2]
      exact (WordTest.is _ (by decide)).refuses h
    split
    · refine (Follows.advance (k := 0) hnot ?_).loose
      exact (hp.lower (by omega)).loose.andThen fun value => .pure _
    · refine (Follows.advance (k := 0) hnot ?_).loose
      exact (hp.lower (by omega)).loose.andThen fun value => .pure _
    · exact .unexpected
  · exact .pure _

/-- What is inside an operand and what is assigned both stand behind a token, where fewer are left. -/
theorem assignment_follows {p q : Parse Term} (hp : Follows S anyToken 1 (n - 1) p q) :
    Follows S anyToken 1 n (assignment p) (assignment q) :=
  (ladder_follows (operand_follows hp.loose) levels).seq fun target =>
    assignTo_follows (hp.lower (by omega)) target

/-- The rule that everything inside brackets comes back to. The bound on the tokens closes its recursion. -/
theorem expression_follows : Follows S anyToken 1 n expression expression :=
  .recurse (fun _ _ _ _ hfg _ => assignment_follows (hfg ())) ()

theorem factor_follows : Follows S anyToken 1 n factor factor :=
  chain_follows (operand_follows expression_follows.loose)

/-- A round of a condition is one of a chain, except that a closing brace counts as an operator, too. -/
theorem conditionStep_follows {f g : Term → Parse Term}
    (hfg : ∀ a, Follows S anyToken 0 (n - 1) (f a) (g a)) (left : Term) :
    Follows S anyToken 0 n (conditionStep f left) (conditionStep g left) := by
  unfold conditionStep
  refine .look fun a b hkind htext => ?_
  rw [show joinsFactors b = joinsFactors a from by
    simp [joinsFactors, Token.is, Token.isOperator, hkind, htext], ← htext]
  split
  · next h =>
    refine (Follows.advance (k := 0) (fun t ht => ?_) ?_).loose
    · rw [ht.2]
      exact (WordTest.is .operator (by decide)).refuses (Bool.and_eq_true_iff.mp h).1
    · exact factor_follows.loose.andThen fun right => hfg _
  · exact .pure _

theorem conditionRest_follows (left : Term) :
    Follows S anyToken 0 n (conditionRest left) (conditionRest left) :=
  .recurse (fun _ _ _ _ hfg => conditionStep_follows hfg) left

theorem condition_follows : Follows S anyToken 1 n condition condition :=
  factor_follows.seq fun first => conditionRest_follows first

/-! ## Statements -/

theorem semicolon_follows : Follows S anyToken 1 n semicolon semicolon :=
  .expect (.is _ (by decide)) fun _ _ _ => .pure _

theorem optionalSemicolon_follows : Follows S anyToken 0 n optionalSemicolon optionalSemicolon :=
  .accept (.is _ (by decide)) (.pure _) (.pure _)

/-- A round reads a statement, and goes on unless the brace of the block comes next. -/
theorem statementsStep_follows {p q : Parse Term} {f g : Unit → Parse (List Term)}
    (hp : Follows S anyToken 1 n p q) (hfg : ∀ u, Follows S anyToken 1 (n - 1) (f u) (g u)) (u : Unit) :
    Follows S anyToken 1 n (statementsStep p f u) (statementsStep q g u) := by
  unfold statementsStep
  refine hp.seq fun head => ?_
  refine .accept (.isOperator _) (.pure _) ?_
  exact (hfg ()).loose.andThen fun tail => .pure _

theorem statements_follows {p q : Parse Term} (hp : Follows S anyToken 1 n p q) :
    Follows S anyToken 1 n (statements p) (statements q) :=
  .recurse (fun _ hl _ _ hfg => statementsStep_follows (hp.lower hl) hfg) ()

/-- The brace is passed before any statement is read. -/
theorem block_follows {p q : Parse Term} (hp : Follows S anyToken 1 (n - 1) p q) :
    Follows S anyToken 1 n (block p) (block q) :=
  .expect (.isOperator _) fun _ _ _ => (statements_follows hp).loose.andThen fun _ => .pure _

/-- Whether the word `if` follows decides, and related states have the same words in front. -/
theorem elseClause_follows {p q : Parse Term} (hp : Follows S anyToken 1 n p q) :
    Follows S anyToken 1 n (elseClause p) (elseClause q) := by
  unfold elseClause
  refine .look fun a b hkind htext => ?_
  rw [(WordTest.isWord "if").congr hkind htext]
  split
  · exact (hp.seq fun nested => .pure _).anywhere
  · exact ((block_follows (hp.lower (by omega))).seq fun body => .pure _).anywhere

section Words

variable {P : Token → Prop} {p q : Parse Term}

/-- The word in front is not `END`, which is all that is used of it. -/
theorem ifStatement_follows (hP : ∀ t, P t → t.kind ≠ .finish)
    (hp : Follows S anyToken 1 (n - 1) p q) :
    Follows S P 1 n (ifStatement p) (ifStatement q) := by
  unfold ifStatement
  refine .advance hP ?_
  refine condition_follows.loose.andThen fun condition => ?_
  refine (block_follows (hp.lower (by omega))).loose.andThen fun body => ?_
  refine .accept (.isWord _) ?_ (.pure _)
  exact (elseClause_follows (hp.lower (by omega))).loose.andThen fun otherwise => .pure _

theorem whileStatement_follows (hP : ∀ t, P t → t.kind ≠ .finish)
    (hp : Follows S anyToken 1 (n - 1) p q) :
    Follows S P 1 n (whileStatement p) (whileStatement q) := by
  unfold whileStatement
  refine .advance hP ?_
  refine condition_follows.loose.andThen fun condition => ?_
  exact (block_follows (hp.lower (by omega))).loose.andThen fun body => .pure _

theorem printStatement_follows (hP : ∀ t, P t → t.kind ≠ .finish) :
    Follows S P 1 n printStatement printStatement := by
  unfold printStatement
  refine .advance hP ?_
  refine expression_follows.loose.andThen fun value => ?_
  exact semicolon_follows.loose.andThen fun _ => .pure _

theorem returnStatement_follows (hP : ∀ t, P t → t.kind ≠ .finish) :
    Follows S P 1 n returnStatement returnStatement := by
  unfold returnStatement
  refine .advance hP ?_
  refine .accept (.is _ (by decide)) (.pure _) ?_
  refine expression_follows.loose.andThen fun value => ?_
  exact semicolon_follows.loose.andThen fun _ => .pure _

/-- The name is learnt in front of the body, on both sides alike; the definition is queued behind it. -/
theorem definition_follows (hP : ∀ t, P t → t.kind ≠ .finish)
    (hp : Follows S anyToken 1 (n - 1) p q) :
    Follows S P 1 n (definition p) (definition q) := by
  unfold definition
  refine .advance hP ?_
  refine name_follows.loose.andThen fun name => ?_
  refine (Follows.learn name).andThen fun _ => ?_
  refine (Follows.expect (k := 0) (.is _ (by decide)) fun _ _ _ => ?_).loose
  refine (commaList_follows (by decide) name_follows).andThen fun params => ?_
  refine (block_follows (hp.lower (by omega))).loose.andThen fun body => ?_
  exact (Follows.enqueue _).andThen fun _ => .pure _

end Words

theorem arrayStatement_follows : Follows S anyToken 1 n arrayStatement arrayStatement :=
  (array_follows expression_follows.loose).seq fun _ =>
    optionalSemicolon_follows.andThen fun _ => .pure _

/-- Whether a semicolon is needed behind an expression depends on its term, which is the same on both sides. -/
theorem expressionStatement_follows :
    Follows S anyToken 1 n expressionStatement expressionStatement := by
  unfold expressionStatement
  refine expression_follows.seq fun term => ?_
  split
  · exact semicolon_follows.loose.andThen fun _ => .pure _
  · exact optionalSemicolon_follows.andThen fun _ => .pure _

/-- The kind of a statement is decided by its first word, and each kind but the last passes it. -/
theorem statementStep_follows {p q : Parse Term} (hp : Follows S anyToken 1 (n - 1) p q) :
    Follows S anyToken 1 n (statementStep p) (statementStep q) := by
  unfold statementStep
  refine .look fun a b hkind htext => ?_
  rw [show b.is .leftBracket = a.is .leftBracket from by simp [Token.is, hkind]]
  simp only [← fun w => (WordTest.isWord w).congr hkind htext]
  have hnot : ∀ {w}, a.isWord w = true → ∀ t, anyToken t ∧ t = a → t.kind ≠ .finish := by
    intro w hw t ht
    rw [ht.2]
    exact (WordTest.isWord w).refuses hw
  split
  · exact arrayStatement_follows.anywhere
  · split
    · next h => exact ifStatement_follows (hnot h) hp
    · split
      · next h => exact whileStatement_follows (hnot h) hp
      · split
        · next h => exact printStatement_follows (hnot h)
        · split
          · next h => exact definition_follows (hnot h) hp
          · split
            · next h => exact returnStatement_follows (hnot h)
            · exact expressionStatement_follows.anywhere

/-- The second rule that is used inside itself. Again the bound on the tokens closes the recursion. -/
theorem statement_follows : Follows S anyToken 1 n statement statement :=
  .recurse (fun _ _ _ _ hfg _ => statementStep_follows (hfg ())) ()

/-! ## The equations of the recursive rules -/

/-- What a rule does on any number of tokens, it does. -/
theorem items_eq {closing : Token.Kind} (hc : closing ≠ .finish) {p : Parse α}
    (hp : ∀ n, Follows .refl anyToken k n p p) :
    items closing p = itemsStep closing p (fun _ => items closing p) () :=
  recurse_eq (fun n _ _ hfg => itemsStep_follows hc (hp n) hfg) ()

theorem chainRest_eq {level : List Operator} {p : Parse Term}
    (hp : ∀ n, Follows .refl anyToken 1 n p p) (left : Term) :
    chainRest level p left = chainStep level p (chainRest level p) left :=
  recurse_eq (fun n _ _ hfg => chainStep_follows (hp n) hfg) left

/-- An expression is an assignment with expressions inside. -/
theorem expression_eq : expression = assignment expression :=
  recurse_eq (fun _ _ _ hfg _ => assignment_follows (hfg ())) ()

theorem conditionRest_eq (left : Term) : conditionRest left = conditionStep conditionRest left :=
  recurse_eq (fun _ _ _ hfg => conditionStep_follows hfg) left

theorem statements_eq {p : Parse Term} (hp : ∀ n, Follows .refl anyToken 1 n p p) :
    statements p = statementsStep p (fun _ => statements p) () :=
  recurse_eq (fun n _ _ hfg => statementsStep_follows (hp n) hfg) ()

/-- A statement is one step with statements inside. -/
theorem statement_eq : statement = statementStep statement :=
  recurse_eq (fun _ _ _ hfg _ => statementStep_follows (hfg ())) ()

end Parse
end Abacus
