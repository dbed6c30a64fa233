import Abacus.Proofs.Grammar.StatementReading
import Abacus.Proofs.Parse.Completion

/-!
# `Parse.CompletionRules` — every rule of the grammar can be completed

One pair of lemmas a rule: tokens it accepts, whatever is known (`_starts`), and the completion of what it has
passed (`_resumes`). An expression is begun with `true`; a name that has been passed is completed to a call, which
does whether it is known to be a function or not; a statement that could go on is ended with a semicolon, or with an
`else` of its own.

As in `Parse.Rules`, the lemmas for rules inside brackets and blocks take the recursive rule on fewer tokens as a
hypothesis, and the recursions are closed by induction on the number of tokens.
-/

namespace Abacus
namespace Parse

open Grammar

variable {α : Type} {n : Nat}

/-! ## Tokens to complete with -/

namespace Filler

/-- An operand, whatever is known: an expression can always be `true`. -/
def truth : Token := ⟨.boolean, "true", .start⟩
/-- A name that is no keyword. -/
def letter : Token := ⟨.identifier, "x", .start⟩
/-- What makes a name a call. It also opens the parameters of a definition. -/
def openParen : Token := ⟨.leftParen, "(", .start⟩
/-- The end of the arguments of a call, of the parameters of a definition, and of an expression in parentheses. -/
def closeParen : Token := ⟨.rightParen, ")", .start⟩
/-- The end of an array and of an index. -/
def closeBracket : Token := ⟨.rightBracket, "]", .start⟩
/-- The end of a statement. -/
def semicolon : Token := ⟨.semicolon, ";", .start⟩
/-- The beginning of a block. It also ends a condition, which goes on behind any other operator. -/
def openBrace : Token := ⟨.operator, Parse.openBrace, .start⟩
/-- The end of a block. -/
def closeBrace : Token := ⟨.operator, Parse.closeBrace, .start⟩
/-- The word that gives a branch an `else` of its own. -/
def otherwise : Token := ⟨.identifier, "else", .start⟩

end Filler

open Filler

/-- A block of one statement. -/
def fillerBlock : List Token := [Filler.openBrace, truth, Filler.semicolon, Filler.closeBrace]

/-! ## Tokens that may follow -/

/-- The token is no operator of these levels. -/
def NotOf (L : List (List Operator)) (t : Token) : Prop :=
  ∀ level ∈ L, ∀ op ∈ level, t.isOperator op.symbol = false

/-- The token does not make an expression go on. -/
def Separator (t : Token) : Prop := NotOf levels t ∧ t.kind ≠ .assignment

/-- A token of another kind is no operator of any level. -/
theorem NotOf.of_kind {L : List (List Operator)} {t : Token} (h : t.kind ≠ .operator) : NotOf L t := by
  intro level _ op _
  simp [Token.isOperator, h]

theorem Separator.of_kind {t : Token} (h : t.kind ≠ .operator) (h' : t.kind ≠ .assignment) : Separator t :=
  ⟨.of_kind h, h'⟩

/-- The levels inside a level ask for less. -/
theorem NotOf.tail {level : List Operator} {tighter : List (List Operator)} {t : Token}
    (h : NotOf (level :: tighter) t) : NotOf tighter t :=
  fun level' hlevel' => h level' (List.mem_cons_of_mem _ hlevel')

/-! ## Names and lists -/

theorem name_orderly : Orderly 1 name := fun _ _ => name_follows

/-- Any name will do. -/
theorem name_starts : Starts [letter] anyToken name := .expect (by decide) (.pure _)

/-- A name is one token, so a name that was passed is complete. -/
theorem name_resumes : Resumes anyToken n name :=
  .expect .isName (w := []) (fun _ => .pure _) (fun _ => .pure _)

/-- The token `close` is one that ends a list of items, each of which `Q` allows to be followed by it. -/
structure Closer (Q : Token → Prop) (closing : Token.Kind) (close : Token) : Prop where
  kind : close.kind = closing
  comma : closing ≠ .comma
  finish : closing ≠ .finish
  follows : Q close

section Lists

variable {k : Nat} {Q : Token → Prop} {item : Parse α} {w : List Token} {closing : Token.Kind} {close : Token}

/-- The end of a list. -/
theorem itemsEnd_starts (hclose : Closer Q closing close) (more : Unit → Parse (List α)) (head : α) :
    Starts [close] anyToken (do
      if ← accept (Token.is .comma) then
        let tail ← more ()
        return head :: tail
      else
        let _ ← expect (Token.is closing)
        return [head] : Parse (List α)) := by
  refine .accept_no (is_eq_false hclose.kind hclose.comma) ?_
  exact .expect (is_iff.mpr hclose.kind) (.pure _)

/-- The shortest list is one item and what closes it. -/
theorem items_starts (hclose : Closer Q closing close) (horderly : Orderly k item) (hstart : Starts w Q item) :
    Starts (w ++ [close]) anyToken (items closing item) := by
  rw [items_eq hclose.finish (horderly _)]
  exact hstart.bind (fun _ => .cons hclose.follows _) (itemsEnd_starts hclose _)

/-- A list that stops within an item has the item completed; one that stops behind a comma goes on with one more item.
Then it is closed. -/
theorem items_resumes (hclose : Closer Q closing close) (horderly : Orderly k item) (hstart : Starts w Q item)
    (h : Resumes Q n item) : Resumes anyToken n (items closing item) := by
  have hitems : Orderly k (items closing item) := fun _ _ => items_follows hclose.finish (horderly _ _)
  induction n with
  | zero => exact .zero hitems
  | succ n ih =>
      have hmore : Resumes anyToken n (items closing item) := ih (h.lower (by omega))
      have hbegin := items_starts hclose horderly hstart
      rw [items_eq hclose.finish (horderly _)]
      refine .bind horderly h (w := [close]) (fun _ => .cons hclose.follows _) (itemsEnd_starts hclose _)
        fun head => ?_
      refine .accept (.is _ (by decide)) hbegin.andPure ?_ ?_
      · exact .andPure hitems (hmore.lower (by omega))
      · exact .expect (.is _ hclose.finish) (w := []) (fun _ => .pure _) (fun _ => .pure _)

/-- A list may be empty, so what closes it is enough. -/
theorem commaList_starts (hclose : Closer Q closing close) :
    Starts [close] anyToken (commaList closing item) :=
  .accept_yes (is_iff.mpr hclose.kind) (.pure _)

/-- Unlike a list of items, this one may have been closed at once. -/
theorem commaList_resumes (hclose : Closer Q closing close) (horderly : Orderly k item)
    (hstart : Starts w Q item) (h : Resumes Q n item) : Resumes anyToken n (commaList closing item) :=
  .accept (.is _ hclose.finish) (w := []) (.pure _) (.pure _) (items_resumes hclose horderly hstart h)

end Lists

theorem closeParen_closer : Closer Separator .rightParen closeParen :=
  ⟨rfl, by decide, by decide, .of_kind (by decide) (by decide)⟩

theorem closeBracket_closer : Closer Separator .rightBracket closeBracket :=
  ⟨rfl, by decide, by decide, .of_kind (by decide) (by decide)⟩

/-! ## Operators -/

section Chains

variable {level : List Operator} {tighter : List (List Operator)} {p : Parse Term} {w : List Token}

/-- Where no operator of the level comes next, the loop is complete. -/
theorem chainRest_starts (hp : Orderly 1 p) (left : Term) :
    Starts [] (NotOf (level :: tighter)) (chainRest level p left) := by
  intro s rest hrest
  have hfilter : (operatorOf? (s.withTokens rest).current).filter level.contains = none := by
    rw [filter_operatorOf?_eq_none]
    intro op hop _
    exact (WordTest.isOperator _).current fun t ht => hrest t ht level (List.mem_cons_self ..) op hop
  refine ⟨left, s.withTokens rest, ?_, rfl⟩
  rw [List.nil_append, chainRest_eq (hp _), chainStep_apply, hfilter]

/-- An operator that was passed needs something on its right. What is there may be completed, and then the loop has to
end, so the token behind it must be no operator of this level either. -/
theorem chainRest_resumes (hp : Orderly 1 p) (hstart : Starts w (NotOf tighter) p)
    (h : Resumes (NotOf tighter) n p) :
    ∀ left, Resumes (NotOf (level :: tighter)) n (chainRest level p left) := by
  induction n with
  | zero => exact fun left => .zero fun _ _ => chainRest_follows (hp _ _) left
  | succ n ih =>
      intro left
      have hlow : Resumes (NotOf tighter) n p := h.lower (by omega)
      rw [chainRest_eq (hp _)]
      refine .look fun t => ?_
      split
      · next op _ =>
        refine .advance (hstart.bind (v := []) (fun hrest => hrest.imp fun _ => NotOf.tail)
          fun right => chainRest_starts hp _) ?_
        refine .bind hp hlow (w := []) (fun hrest => hrest.imp fun _ => NotOf.tail)
          (fun right => chainRest_starts hp _) fun right => ?_
        exact (ih hlow _).lower (by omega)
      · exact .pure _

/-- What begins an operand begins a chain of them. -/
theorem chain_starts (hp : Orderly 1 p) (hstart : Starts w (NotOf tighter) p) :
    Starts w (NotOf (level :: tighter)) (chain level p) := by
  have h : Starts (w ++ []) (NotOf (level :: tighter)) (chain level p) :=
    hstart.bind (fun hrest => hrest.imp fun _ => NotOf.tail) (chainRest_starts hp)
  rwa [List.append_nil] at h

/-- The operands inside a chain may be followed by an operator of its level, the chain itself may not. -/
theorem chain_resumes (hp : Orderly 1 p) (hstart : Starts w (NotOf tighter) p)
    (h : Resumes (NotOf tighter) n p) : Resumes (NotOf (level :: tighter)) n (chain level p) :=
  .bind hp h (w := []) (fun hrest => hrest.imp fun _ => NotOf.tail) (chainRest_starts hp)
    fun first => (chainRest_resumes hp hstart h first).lower (by omega)

end Chains

theorem ladder_orderly (L : List (List Operator)) : Orderly 1 (ladder L (operand expression)) :=
  fun _ _ => ladder_follows (operand_follows expression_follows.loose) L

/-- By induction on the levels: `true` is an operand, and so it is an operation on every level. -/
theorem ladder_starts : ∀ L, Starts [truth] (NotOf L) (ladder L (operand expression))
  | [] => .look (.advance (.pure _))
  | _ :: tighter => chain_starts (ladder_orderly tighter) (ladder_starts tighter)

/-- The completion of an operand is one of every level around it, given that no operator of these levels follows. -/
theorem ladder_resumes (h : Resumes anyToken n (operand expression)) :
    ∀ L, Resumes (NotOf L) n (ladder L (operand expression))
  | [] => h.imp fun _ _ => trivial
  | _ :: tighter => chain_resumes (ladder_orderly tighter) (ladder_starts tighter) (ladder_resumes h tighter)

/-! ## Expressions that begin -/

theorem expression_orderly : Orderly 1 expression := fun _ _ => expression_follows

/-- Where no equals sign comes next, nothing is assigned. -/
theorem assignTo_starts (p : Parse Term) (target : Term) : Starts [] Separator (assignTo p target) := by
  intro s rest hrest
  have hequals : Token.is .assignment (s.withTokens rest).current = false :=
    State.is_current_eq_false (fun t ht => (hrest t ht).2) (by decide)
  refine ⟨target, s.withTokens rest, ?_, rfl⟩
  rw [List.nil_append, assignTo_apply, if_neg (by simp [hequals])]

/-- An expression can be `true`, if nothing follows that makes it go on. -/
theorem expression_starts : Starts [truth] Separator expression := by
  rw [expression_eq]
  exact (ladder_starts levels).bind (v := []) (fun hrest => hrest.imp fun _ ht => ht.1)
    (assignTo_starts expression)

section Closed

variable {closing : Token.Kind} {close : Token} (hclose : Closer Separator closing close) (f : Term → Term)

include hclose

/-- An expression and the bracket that closes it. -/
theorem closed_starts :
    Starts [truth, close] anyToken (do
      let inner ← expression
      let _ ← expect (Token.is closing)
      return f inner : Parse Term) :=
  expression_starts.bind (fun _ => .cons hclose.follows _) fun _ =>
    .expect (is_iff.mpr hclose.kind) (.pure _)

/-- The expression is completed and closed. Behind the closing bracket there is nothing left to ask for. -/
theorem closed_resumes (h : Resumes Separator n expression) :
    Resumes anyToken n (do
      let inner ← expression
      let _ ← expect (Token.is closing)
      return f inner : Parse Term) := by
  refine .bind expression_orderly h (w := [close]) (fun _ => .cons hclose.follows _) ?_ fun _ => ?_
  · exact fun _ => .expect (is_iff.mpr hclose.kind) (.pure _)
  · exact .expect (.is _ hclose.finish) (w := []) (fun _ => .pure _) (fun _ => .pure _)

end Closed

/-! ## Operands -/

/-- A number is one token; one that cannot be read is not passed. -/
theorem number_resumes : Resumes anyToken n number := by
  refine .look fun t => ?_
  split
  · exact .advance (w := []) (.pure _) (.pure _)
  · exact .unexpected

section Operands

variable (h : Resumes Separator (n - 1) expression)

include h

/-- A list of expressions, and what is made of it. -/
theorem arguments_resumes {closing : Token.Kind} {close : Token} (hclose : Closer Separator closing close)
    (f : List Term → Term) : Resumes anyToken (n - 1) (do return f (← commaList closing expression)) :=
  .andPure (k := 0) (fun _ _ => commaList_follows hclose.finish expression_follows)
    (commaList_resumes hclose expression_orderly expression_starts h)

/-- Behind the opening bracket the elements are completed, and the array is closed. -/
theorem array_resumes : Resumes anyToken n (array expression) :=
  .expect (.is _ (by decide)) (fun _ => (commaList_starts closeBracket_closer).andPure)
    fun _ => arguments_resumes h closeBracket_closer _

/-- A name that has been passed is completed to a call. -/
theorem named_resumes : Resumes anyToken n (named expression) := by
  have hcall : ∀ name : String, Starts [closeParen] anyToken
      (do return Term.call name (← commaList .rightParen expression) : Parse Term) :=
    fun name => (commaList_starts closeParen_closer).andPure
  refine .bind name_orderly name_resumes (w := [openParen, closeParen]) (fun _ => .any) ?_ fun name => ?_
  · exact fun name => .accept_yes (by decide) (hcall name)
  · refine .accept (.is _ (by decide)) (hcall name) ?_ ?_
    · exact (arguments_resumes h closeParen_closer _).lower (by omega)
    · refine .isKnown fun known => ?_
      split
      · -- behind a known name nothing is passed
        refine .look fun t => ?_
        split
        · exact .pure _
        · exact .unexpected
      · exact .accept (.is _ (by decide)) (closed_starts closeBracket_closer _)
          (closed_resumes closeBracket_closer _ (h.lower (by omega))) (.pure _)

/-- One case for each kind of operand. Only names need more than the completion of what is inside brackets. -/
theorem operand_resumes : Resumes anyToken n (operand expression) := by
  refine .look fun t => ?_
  split
  · exact number_resumes
  · exact .advance (w := []) (.pure _) (.pure _)
  · exact named_resumes h
  · exact .advance (closed_starts closeParen_closer id) (closed_resumes closeParen_closer id h)
  · exact array_resumes h
  · exact .unexpected

end Operands

/-! ## Expressions that go on -/

/-- Behind an equals sign a value has to come, and `true` is one. -/
theorem assignTo_resumes (h : Resumes Separator (n - 1) expression) (target : Term) :
    Resumes Separator n (assignTo expression target) := by
  refine .look fun t => ?_
  split
  · split
    · exact .advance expression_starts.andPure (.andPure expression_orderly h)
    · exact .advance expression_starts.andPure (.andPure expression_orderly h)
    · exact .unexpected
  · exact .pure _

/-- Induction on the number of tokens: the expressions inside brackets and behind an equals sign have fewer. -/
theorem expression_resumes : ∀ n, Resumes Separator n expression
  | 0 => .zero expression_orderly
  | n + 1 => by
      have h := expression_resumes n
      rw [expression_eq]
      refine .bind (ladder_orderly levels) (ladder_resumes (operand_resumes (n := n + 1) h) levels)
        (w := []) (fun hrest => hrest.imp fun _ ht => ht.1) (assignTo_starts expression) fun target => ?_
      exact assignTo_resumes (h.lower (by omega)) target

/-! ## Conditions -/

/-- The token opens a block. -/
def OpensBlock (t : Token) : Prop := t.isOperator Parse.openBrace = true

theorem factor_orderly : Orderly 1 factor := fun _ _ => factor_follows

theorem factor_starts : Starts [truth] (NotOf [factorLevel]) factor := ladder_starts [factorLevel]

/-- A factor is one level of operators. -/
theorem factor_resumes : Resumes (NotOf [factorLevel]) n factor :=
  ladder_resumes (operand_resumes (expression_resumes _)) [factorLevel]

/-- An opening brace is an operator token, but no operator of a factor. -/
theorem OpensBlock.notOf {t : Token} (h : OpensBlock t) : NotOf [factorLevel] t := by
  have hnot : NoOperator [factorLevel] [t] := openBrace_noOperator (by decide) h
  exact hnot t rfl

/-- In front of a block the loop is complete. -/
theorem conditionRest_starts (left : Term) : Starts [] OpensBlock (conditionRest left) := by
  intro s rest hrest
  have hjoins : joinsFactors (s.withTokens rest).current = false := by
    cases rest with
    | nil =>
        have hfinish : (s.withTokens []).current.kind = .finish := s.ends
        simp [joinsFactors, Token.is, hfinish]
    | cons t rest =>
        have hopen : t.isOperator Parse.openBrace = true := hrest t rfl
        simp [joinsFactors, hopen]
  refine ⟨left, s.withTokens rest, ?_, rfl⟩
  rw [List.nil_append, conditionRest_eq, conditionStep_apply, if_neg (by simp [hjoins])]

/-- As in `chainRest_resumes`, except that it is the opening brace that ends the loop. -/
theorem conditionRest_resumes : ∀ n left, Resumes OpensBlock n (conditionRest left)
  | 0, left => .zero (k := 0) fun _ _ => conditionRest_follows left
  | n + 1, left => by
      rw [conditionRest_eq]
      refine .look fun t => ?_
      split
      · refine .advance (factor_starts.bind (v := []) (fun hrest => hrest.imp fun _ => OpensBlock.notOf)
          fun right => conditionRest_starts _) ?_
        refine .bind factor_orderly factor_resumes (w := []) (fun hrest => hrest.imp fun _ => OpensBlock.notOf)
          (fun right => conditionRest_starts _) fun right => ?_
        exact (conditionRest_resumes n _).lower (by omega)
      · exact .pure _

theorem condition_orderly : Orderly 1 condition := fun _ _ => condition_follows

/-- The shortest condition is `true`, with the brace of its block behind it. -/
theorem condition_starts : Starts [truth] OpensBlock condition :=
  factor_starts.bind (v := []) (fun hrest => hrest.imp fun _ => OpensBlock.notOf) conditionRest_starts

/-- A condition is completed up to the brace, which is left to the block. -/
theorem condition_resumes : Resumes OpensBlock n condition :=
  .bind factor_orderly factor_resumes (w := []) (fun hrest => hrest.imp fun _ => OpensBlock.notOf)
    conditionRest_starts fun left => conditionRest_resumes _ left

/-! ## Ends of statements -/

theorem semicolon_starts : Starts [Filler.semicolon] anyToken Parse.semicolon := .expect (by decide) (.pure _)

theorem semicolon_resumes : Resumes anyToken n Parse.semicolon :=
  .expect (.is _ (by decide)) (w := []) (fun _ => .pure _) (fun _ => .pure _)

/-- A semicolon ends any expression in front of it. -/
theorem semicolon_separator : Separator Filler.semicolon := .of_kind (by decide) (by decide)

theorem semicolon_orderly : Orderly 1 Parse.semicolon := fun _ _ => semicolon_follows

/-- An expression, a semicolon, and what is made of them. -/
theorem ended_starts (f : Term → Term) :
    Starts [truth, Filler.semicolon] anyToken
      (do let value ← expression; Parse.semicolon; return f value : Parse Term) :=
  expression_starts.bind (fun _ => .cons semicolon_separator _) fun _ => semicolon_starts.andPure

/-- The expression is completed, and then the semicolon is there. -/
theorem ended_resumes (f : Term → Term) :
    Resumes anyToken n (do let value ← expression; Parse.semicolon; return f value : Parse Term) := by
  refine .bind expression_orderly (expression_resumes n) (w := [Filler.semicolon])
    (fun _ => .cons semicolon_separator _) (fun _ => semicolon_starts.andPure) fun value => ?_
  exact .andPure semicolon_orderly semicolon_resumes

theorem optionalSemicolon_orderly : Orderly 0 optionalSemicolon := fun _ _ => optionalSemicolon_follows

/-- A semicolon that is not needed is passed all the same. -/
theorem optionalSemicolon_starts : Starts [Filler.semicolon] anyToken optionalSemicolon :=
  fun _ _ _ => ⟨(), _, optionalSemicolon_cons rfl, rfl⟩

/-- It never fails, and what it passes is complete. -/
theorem optionalSemicolon_resumes : Resumes anyToken n optionalSemicolon := by
  have hsame : optionalSemicolon =
      (accept (Token.is .semicolon) >>= fun passed => if passed = true then pure () else pure ()) := by
    simp only [ite_self]
    rfl
  rw [hsame]
  exact .accept (.is _ (by decide)) (w := []) (.pure _) (.pure _) (.pure _)

/-- An array that stands alone may be followed by anything once its semicolon is there. -/
theorem arrayStatement_resumes : Resumes anyToken n arrayStatement := by
  have horderly : Orderly 1 (array expression) := fun _ _ => array_follows expression_follows.loose
  refine .bind horderly (array_resumes (expression_resumes _)) (w := [Filler.semicolon]) (fun _ => .any)
    (fun _ => optionalSemicolon_starts.andPure) fun literal => ?_
  exact .andPure optionalSemicolon_orderly optionalSemicolon_resumes

/-- What ends an expression that stands alone. -/
theorem expressionEnd_starts (term : Term) :
    Starts [Filler.semicolon] anyToken (do
      if isAssignment term then Parse.semicolon else optionalSemicolon
      return term : Parse Term) := by
  show Starts _ _ (if isAssignment term = true then _ else _)
  split
  · exact semicolon_starts.andPure
  · exact optionalSemicolon_starts.andPure

/-- The shortest statement. -/
theorem expressionStatement_starts : Starts [truth, Filler.semicolon] anyToken expressionStatement :=
  expression_starts.bind (fun _ => .cons semicolon_separator _) expressionEnd_starts

/-- A semicolon ends the statement, whether the expression in it is an assignment or not. -/
theorem expressionStatement_resumes : Resumes anyToken n expressionStatement := by
  refine .bind expression_orderly (expression_resumes n) (w := [Filler.semicolon])
    (fun _ => .cons semicolon_separator _) expressionEnd_starts fun term => ?_
  split
  · exact .andPure semicolon_orderly semicolon_resumes
  · exact .andPure optionalSemicolon_orderly optionalSemicolon_resumes

/-! ## Blocks -/

theorem statement_orderly : Orderly 1 statement := fun _ _ => statement_follows

/-- The word `true` begins no other kind of statement. -/
theorem statement_starts : Starts [truth, Filler.semicolon] anyToken statement := by
  rw [statement_eq]
  exact .look expressionStatement_starts

/-- The end of a block. -/
theorem statementsEnd_starts (more : Unit → Parse (List Term)) (head : Term) :
    Starts [Filler.closeBrace] anyToken (do
      if ← accept (Token.isOperator Parse.closeBrace) then
        return [head]
      else
        let tail ← more ()
        return head :: tail : Parse (List Term)) :=
  .accept_yes (by decide) (.pure _)

theorem statements_orderly : Orderly 1 (statements statement) := fun _ _ => statements_follows statement_follows

/-- One statement and the brace that closes the block. -/
theorem statements_starts :
    Starts [truth, Filler.semicolon, Filler.closeBrace] anyToken (statements statement) := by
  rw [statements_eq (statement_orderly _)]
  exact statement_starts.bind (fun _ => .any) (statementsEnd_starts _)

/-- The statement that was begun is completed and the block closed; the statements behind it are left out. -/
theorem statements_resumes (h : Resumes anyToken n statement) : Resumes anyToken n (statements statement) := by
  induction n with
  | zero => exact .zero statements_orderly
  | succ n ih =>
      have hmore : Resumes anyToken n (statements statement) := ih (h.lower (by omega))
      rw [statements_eq (statement_orderly _)]
      refine .bind statement_orderly h (w := [Filler.closeBrace]) (fun _ => .any) (statementsEnd_starts _)
        fun head => ?_
      exact .accept (.isOperator _) (w := []) (.pure _) (.pure _) (.andPure statements_orderly hmore)

theorem block_orderly : Orderly 1 (block statement) := fun _ _ => block_follows statement_follows

theorem block_starts : Starts fillerBlock anyToken (block statement) :=
  .expect (by decide) statements_starts.andPure

theorem openBrace_next {ts : List Token} : Next OpensBlock (Filler.openBrace :: ts) := by
  have hopen : OpensBlock Filler.openBrace := by rfl
  exact .cons hopen ts

/-! ## Statements -/

/-- Behind its opening brace a block is begun with a statement of its own, or completed. -/
theorem block_resumes (h : Resumes anyToken (n - 1) statement) : Resumes anyToken n (block statement) :=
  .expect (.isOperator _) (fun _ => statements_starts.andPure)
    fun _ => .andPure statements_orderly (statements_resumes h)

theorem elseClause_orderly : Orderly 1 (elseClause statement) := fun _ _ => elseClause_follows statement_follows

/-- A block is a branch; another `if` would be one, too. -/
theorem elseClause_starts : Starts fillerBlock anyToken (elseClause statement) := .look block_starts.andPure

/-- Behind `else if` there is a statement to complete, elsewhere a block. -/
theorem elseClause_resumes (h : Resumes anyToken n statement) : Resumes anyToken n (elseClause statement) := by
  refine .look fun t => ?_
  split
  · exact .andPure statement_orderly h
  · exact .andPure block_orderly (block_resumes (h.lower (by omega)))

/-- A branch is completed with an `else` of its own: without one, an `else` that follows would belong to it. -/
theorem branchEnd_starts (condition body : Term) :
    Starts (otherwise :: fillerBlock) anyToken (do
      if ← accept (Token.isWord "else") then
        return .ifElse condition body (some (← elseClause statement))
      else
        return .ifElse condition body none : Parse Term) :=
  .accept_yes (by decide) elseClause_starts.andPure

section Statements

variable (h : Resumes anyToken (n - 1) statement)

include h

/-- The condition, the block and the branch are completed in turn, and each begins where the one before it ends. -/
theorem ifStatement_resumes : Resumes anyToken n (ifStatement statement) := by
  have hbody := fun condition : Term => block_starts.bind (fun _ => Next.any) (branchEnd_starts condition)
  refine .advance (condition_starts.bind (fun _ => openBrace_next) hbody) ?_
  refine .bind condition_orderly condition_resumes (fun _ => openBrace_next) hbody fun condition => ?_
  refine .bind block_orderly (block_resumes (h.lower (by omega))) (fun _ => .any) (branchEnd_starts condition)
    fun body => ?_
  refine .accept (.isWord _) elseClause_starts.andPure ?_ (.pure _)
  exact .andPure elseClause_orderly (elseClause_resumes (h.lower (by omega)))

/-- Like a branch, but nothing belongs to a loop behind its block. -/
theorem whileStatement_resumes : Resumes anyToken n (whileStatement statement) := by
  refine .advance (w := truth :: fillerBlock) ?_ ?_
  · exact condition_starts.bind (fun _ => openBrace_next) fun _ => block_starts.andPure
  · refine .bind condition_orderly condition_resumes (w := fillerBlock) (fun _ => openBrace_next)
      (fun _ => block_starts.andPure) fun condition => ?_
    exact .andPure block_orderly (block_resumes (h.lower (by omega)))

/-- The pieces of a definition, from the last one to the first: each begins where the one before it ends. -/
theorem definition_resumes : Resumes anyToken n (definition statement) := by
  have hclose : Closer anyToken .rightParen closeParen := ⟨rfl, by decide, by decide, trivial⟩
  have hparams : Orderly 0 (commaList .rightParen name) := fun _ _ => commaList_follows (by decide) name_follows
  have hqueue : ∀ (name : String) (params : List String) (body : Term), Starts [] anyToken (do
      enqueue { name, params, body }
      return .define name params body : Parse Term) :=
    fun name params body s rest _ => ⟨_, _, rfl, rfl⟩
  have hbody : ∀ (name : String) (params : List String), Starts fillerBlock anyToken (do
      let body ← block statement
      enqueue { name, params, body }
      return .define name params body : Parse Term) :=
    fun name params => block_starts.bind (v := []) (fun _ => .any) (hqueue name params)
  have hlist : ∀ name : String, Starts (closeParen :: fillerBlock) anyToken (do
      let params ← commaList .rightParen Parse.name
      let body ← block statement
      enqueue { name, params, body }
      return .define name params body : Parse Term) :=
    fun name => (commaList_starts hclose).bind (fun _ => .any) (hbody name)
  have hhead : ∀ name : String, Starts (openParen :: closeParen :: fillerBlock) anyToken (do
      learn name
      let _ ← expect (Token.is .leftParen)
      let params ← commaList .rightParen Parse.name
      let body ← block statement
      enqueue { name, params, body }
      return .define name params body : Parse Term) :=
    fun name => .learn (.expect (by decide) (hlist name))
  refine .advance (name_starts.bind (fun _ => .any) hhead) ?_
  refine .bind name_orderly name_resumes (fun _ => .any) hhead fun name => ?_
  refine .learn (.expect (.is _ (by decide)) (fun _ => hlist name) fun _ => ?_)
  refine .bind hparams (commaList_resumes hclose name_orderly name_starts name_resumes) (fun _ => .any)
    (hbody name) fun params => ?_
  refine .bind block_orderly (block_resumes (h.lower (by omega))) (fun _ => .any) (hqueue name params) fun body => ?_
  exact fun _ _ => .idle rfl

end Statements

theorem printStatement_resumes : Resumes anyToken n printStatement :=
  .advance (ended_starts _) (ended_resumes _)

/-- A `return` is complete with a semicolon, and with a value and a semicolon. -/
theorem returnStatement_resumes : Resumes anyToken n returnStatement := by
  refine .advance (w := [Filler.semicolon]) (.accept_yes (by decide) (.pure _)) ?_
  exact .accept (.is _ (by decide)) (w := []) (.pure _) (.pure _) (ended_resumes _)

/-- Induction on the number of tokens again: the statements in blocks have fewer. -/
theorem statement_resumes : ∀ n, Resumes anyToken n statement
  | 0 => .zero statement_orderly
  | n + 1 => by
      have h := statement_resumes n
      rw [statement_eq]
      refine .look fun t => ?_
      split
      · exact arrayStatement_resumes
      · split
        · exact ifStatement_resumes h
        · split
          · exact whileStatement_resumes h
          · split
            · exact printStatement_resumes
            · split
              · exact definition_resumes h
              · split
                · exact returnStatement_resumes
                · exact expressionStatement_resumes

/-! ## Failures -/

/-- **The tokens in front of a failure can be completed.** -/
theorem completed {Q : Token → Prop} {w : List Token} {p : Parse α} (hstart : Starts w Q p)
    (h : ∀ n, Resumes Q n p) (s : State) :
    ∃ front, s.tokens = front ++ (p s).2.tokens ∧
      ∃ more a u, p (s.withTokens (front ++ more)) = (.ok a, u) := by
  obtain ⟨front, hfront, hmore⟩ := h s.tokens.length s (Nat.le_refl _)
  refine ⟨front, hfront, ?_⟩
  by_cases hne : front = []
  · obtain ⟨a, u, hu, -⟩ := hstart s .nil
    exact ⟨w ++ [], a, u, by rw [hne]; exact hu⟩
  · obtain ⟨more, a, u, hu, -⟩ := hmore hne .nil
    exact ⟨more ++ [], a, u, hu⟩

end Parse
end Abacus
