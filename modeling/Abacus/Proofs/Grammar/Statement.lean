import Abacus.Parse.Statement
import Abacus.Proofs.Grammar.Expression
import Abacus.Proofs.Term.Parts

/-!
# `Grammar.Statement` — the grammar of statements

`Statement known ts n known' defs rest` says that `ts` is a statement with the tree `n` followed by `rest`.
Reading it makes functions known: those in `known` are when it begins, those in `known'` when it ends. The
definitions inside it are `defs`, each behind those in its own body.

Where a statement ends depends on what follows in two places only, and these constructors say so: an
expression without a semicolon (`bare`), and an `if` without `else`.

## Contents
- `Params`, `Condition` — the heads of definitions, branches and loops;
- `Alone` — expressions that stand alone;
- `Statement`, `ElseClause`, `Block`, `Statements` — the grammar;
- `isExpression` — expressions hold no statements of other kinds;
- `mem_known_iff`, `definitions_eq` — what reading a statement makes known and queues.
-/

namespace Abacus
namespace Grammar

open Parse (levels factorLevel joinsFactors isAssignment openBrace closeBrace)

/-! ## Phrases -/

/-- Names with commas between them and the parenthesis that closes them. -/
inductive Names : List Token → List String → List Token → Prop where
  | last {t closing : Token} {rest : List Token} :
      t.isName = true → closing.kind = .rightParen → Names (t :: closing :: rest) [t.text] rest
  | cons {t comma : Token} {ts rest : List Token} {names : List String} :
      t.isName = true → comma.kind = .comma → Names ts names rest →
      Names (t :: comma :: ts) (t.text :: names) rest

/-- Parameters and the parenthesis that closes them. -/
inductive Params : List Token → List String → List Token → Prop where
  | empty {closing : Token} {rest : List Token} :
      closing.kind = .rightParen → Params (closing :: rest) [] rest
  | names {ts rest : List Token} {names : List String} : Names ts names rest → Params ts names rest

/-- Factors joined by other operators, whatever they are, grouped to the left. -/
inductive Condition (known : List String) : List Token → Term → List Token → Prop where
  | factor {ts rest : List Token} {n : Term} :
      Operation known [factorLevel] ts n rest → Condition known ts n rest
  | join {ts mid rest : List Token} {symbol : Token} {left right : Term} :
      Condition known ts left (symbol :: mid) → joinsFactors symbol = true →
      NoOperator [factorLevel] (symbol :: mid) → Operation known [factorLevel] mid right rest →
      Condition known ts (.binary (.ofText symbol.text) left right) rest

/-- An array or an expression that stands alone and does not go on. What begins with a bracket is an array,
even if an operator follows. -/
inductive Alone (known : List String) : List Token → Term → List Token → Prop where
  | array {opening : Token} {ts rest : List Token} {elements : List Term} :
      opening.kind = .leftBracket → Arguments known .rightBracket ts elements rest →
      Alone known (opening :: ts) (.array elements) rest
  | expression {t : Token} {ts rest : List Token} {n : Term} :
      t.kind ≠ .leftBracket → Expression known (t :: ts) n rest → Ends (t :: ts) rest →
      Alone known (t :: ts) n rest

mutual

/-- A statement. -/
inductive Statement :
    List String → List Token → Term → List String → List Definition → List Token → Prop where
  | ended {known : List String} {semicolon : Token} {ts rest : List Token} {n : Term} :
      Alone known ts n (semicolon :: rest) → semicolon.kind = .semicolon →
      Statement known ts n known [] rest
  | bare {known : List String} {ts rest : List Token} {n : Term} :
      Alone known ts n rest → isAssignment n = false → (∀ t ∈ rest.head?, t.kind ≠ .semicolon) →
      Statement known ts n known [] rest
  | branch {known known' : List String} {word : Token} {ts mid rest : List Token}
      {condition body : Term} {defs : List Definition} :
      word.isWord "if" = true → Condition known ts condition mid →
      Block known mid body known' defs rest → (∀ t ∈ rest.head?, t.isWord "else" = false) →
      Statement known (word :: ts) (.ifElse condition body none) known' defs rest
  | branches {known known₁ known₂ : List String} {word other : Token} {ts mid mid' rest : List Token}
      {condition body otherwise : Term} {defs₁ defs₂ : List Definition} :
      word.isWord "if" = true → Condition known ts condition mid →
      Block known mid body known₁ defs₁ (other :: mid') → other.isWord "else" = true →
      ElseClause known₁ mid' otherwise known₂ defs₂ rest →
      Statement known (word :: ts) (.ifElse condition body (some otherwise)) known₂ (defs₁ ++ defs₂) rest
  | loop {known known' : List String} {word : Token} {ts mid rest : List Token}
      {condition body : Term} {defs : List Definition} :
      word.isWord "while" = true → Condition known ts condition mid →
      Block known mid body known' defs rest →
      Statement known (word :: ts) (.whileLoop condition body) known' defs rest
  | print {known : List String} {word semicolon : Token} {ts rest : List Token} {value : Term} :
      word.isWord "print" = true → Expression known ts value (semicolon :: rest) →
      semicolon.kind = .semicolon → Statement known (word :: ts) (.print value) known [] rest
  | define {known known' : List String} {word name opening : Token} {ts mid rest : List Token}
      {params : List String} {body : Term} {defs : List Definition} :
      word.isWord "def" = true → name.isName = true → opening.kind = .leftParen →
      Params ts params mid → Block (name.text :: known) mid body known' defs rest →
      Statement known (word :: name :: opening :: ts) (.define name.text params body) known'
        (defs ++ [{ name := name.text, params, body }]) rest
  | giveBack {known : List String} {word semicolon : Token} {rest : List Token} :
      word.isWord "return" = true → semicolon.kind = .semicolon →
      Statement known (word :: semicolon :: rest) (.giveBack none) known [] rest
  | giveBackValue {known : List String} {word semicolon : Token} {ts rest : List Token} {value : Term} :
      word.isWord "return" = true → Expression known ts value (semicolon :: rest) →
      semicolon.kind = .semicolon → Statement known (word :: ts) (.giveBack (some value)) known [] rest

/-- What follows the word `else`: another `if`, or a block. -/
inductive ElseClause :
    List String → List Token → Term → List String → List Definition → List Token → Prop where
  | nested {known known' : List String} {word : Token} {ts rest : List Token} {n : Term}
      {defs : List Definition} :
      word.isWord "if" = true → Statement known (word :: ts) n known' defs rest →
      ElseClause known (word :: ts) (.elseClause (some n) none) known' defs rest
  | block {known known' : List String} {ts rest : List Token} {body : Term} {defs : List Definition} :
      Block known ts body known' defs rest →
      ElseClause known ts (.elseClause none (some body)) known' defs rest

/-- Statements in braces. -/
inductive Block :
    List String → List Token → Term → List String → List Definition → List Token → Prop where
  | braces {known known' : List String} {opening : Token} {ts rest : List Token} {inside : List Term}
      {defs : List Definition} :
      opening.isOperator openBrace = true → Statements known ts inside known' defs rest →
      Block known (opening :: ts) (.braced (.block inside)) known' defs rest

/-- At least one statement, and the closing brace. -/
inductive Statements :
    List String → List Token → List Term → List String → List Definition → List Token → Prop where
  | last {known known' : List String} {closing : Token} {ts rest : List Token} {n : Term}
      {defs : List Definition} :
      Statement known ts n known' defs (closing :: rest) → closing.isOperator closeBrace = true →
      Statements known ts [n] known' defs rest
  | cons {known known₁ known₂ : List String} {ts mid rest : List Token} {n : Term} {ns : List Term}
      {defs₁ defs₂ : List Definition} :
      Statement known ts n known₁ defs₁ mid → Statements known₁ mid ns known₂ defs₂ rest →
      Statements known ts (n :: ns) known₂ (defs₁ ++ defs₂) rest

end

/-! ## Where a statement begins -/

theorem Token.isWord_kind {t : Token} {word : String} (h : t.isWord word = true) :
    t.kind = .identifier := by
  simp only [Token.isWord, Bool.and_eq_true, decide_eq_true_eq] at h
  exact h.1

theorem Token.isWord_text {t : Token} {word : String} (h : t.isWord word = true) : t.text = word := by
  simp only [Token.isWord, Bool.and_eq_true, decide_eq_true_eq] at h
  exact h.2

/-- The tokens that begin a statement: one that begins an operand, or one of these words. -/
def BeginsStatement (t : Token) : Prop :=
  Begins t ∨ ∃ word ∈ ["if", "while", "print", "def", "return"], t.isWord word = true

/-- A name is no keyword. -/
theorem Token.not_isWord_of_isName {t : Token} {word : String} (h : t.isName = true)
    (hword : word ∈ keywords) : t.isWord word = false := by
  rw [Bool.eq_false_iff]
  intro ht
  simp only [Token.isName, isKeyword, Bool.and_eq_true, Bool.not_eq_true', Token.isWord_text ht,
    decide_eq_true_eq] at h
  have hin := List.contains_iff_mem.mpr hword
  rw [h.2] at hin
  cases hin

/-- What begins an expression is no keyword, so an expression is never taken for another statement. -/
theorem Begins.not_isWord {t : Token} {word : String} (h : Begins t) (hword : word ∈ keywords) :
    t.isWord word = false := by
  rcases h with hname | hkind
  · exact Token.not_isWord_of_isName hname hword
  · rw [Bool.eq_false_iff]
    intro ht
    rw [Token.isWord_kind ht] at hkind
    revert hkind
    decide

/-- No statement begins with `else`. -/
theorem BeginsStatement.not_else {t : Token} (h : BeginsStatement t) : t.isWord "else" = false := by
  rcases h with hbegins | ⟨word, hmem, hword⟩
  · exact hbegins.not_isWord (by decide)
  · rw [Bool.eq_false_iff]
    intro ht
    rw [← Token.isWord_text hword, Token.isWord_text ht] at hmem
    revert hmem
    decide

/-- Only these kinds of token begin a statement. -/
theorem BeginsStatement.kind {t : Token} (h : BeginsStatement t) :
    t.kind ∈ [Token.Kind.identifier, .number, .boolean, .leftParen, .leftBracket] := by
  rcases h with hbegins | ⟨word, _, hword⟩
  · exact hbegins.kind
  · rw [Token.isWord_kind hword]
    decide

/-- No statement begins with an operator, such as a brace, or where the program ends. -/
theorem BeginsStatement.kind_ne {t : Token} (h : BeginsStatement t) {kind : Token.Kind}
    (hkind : kind ∈ [Token.Kind.operator, .finish]) : t.kind ≠ kind := by
  rintro rfl
  have hbegins := h.kind
  revert hkind hbegins
  cases t.kind <;> decide

theorem Alone.begins {known ts n rest} : Alone known ts n rest → ∃ t us, ts = t :: us ∧ Begins t
  | .array h _ => ⟨_, _, rfl, .of_kind h (by decide)⟩
  | .expression _ h _ => h.begins

/-- A statement shows in its first token which kind it is. -/
theorem Statement.begins {known ts n known' defs rest} :
    Statement known ts n known' defs rest → ∃ t us, ts = t :: us ∧ BeginsStatement t
  | .ended h _ => by
      obtain ⟨t, us, hts, hbegins⟩ := h.begins
      exact ⟨t, us, hts, .inl hbegins⟩
  | .bare h _ _ => by
      obtain ⟨t, us, hts, hbegins⟩ := h.begins
      exact ⟨t, us, hts, .inl hbegins⟩
  | .branch h _ _ _ => ⟨_, _, rfl, .inr ⟨_, by decide, h⟩⟩
  | .branches h _ _ _ _ => ⟨_, _, rfl, .inr ⟨_, by decide, h⟩⟩
  | .loop h _ _ => ⟨_, _, rfl, .inr ⟨_, by decide, h⟩⟩
  | .print h _ _ => ⟨_, _, rfl, .inr ⟨_, by decide, h⟩⟩
  | .define h _ _ _ _ => ⟨_, _, rfl, .inr ⟨_, by decide, h⟩⟩
  | .giveBack h _ => ⟨_, _, rfl, .inr ⟨_, by decide, h⟩⟩
  | .giveBackValue h _ _ => ⟨_, _, rfl, .inr ⟨_, by decide, h⟩⟩

theorem Statements.begins {known ts ns known' defs rest} :
    Statements known ts ns known' defs rest → ∃ t us, ts = t :: us ∧ BeginsStatement t
  | .last h _ => h.begins
  | .cons h _ => h.begins

/-! ## Where a statement ends -/

theorem Names.before {ts names rest} : Names ts names rest → Before ts rest
  | .last _ _ => (Before.cons _ _).trans (.cons _ _)
  | .cons _ _ h => (Before.cons _ _).trans ((Before.cons _ _).trans h.before)

theorem Params.before {ts params rest} : Params ts params rest → Before ts rest
  | .empty _ => .cons _ _
  | .names h => h.before

/-- Factors and the operators between them. -/
theorem Condition.before {known ts n rest} : Condition known ts n rest → Before ts rest
  | .factor h => h.before
  | .join h _ _ h' => h.before.trans ((Before.cons _ _).trans h'.before)

theorem Alone.before {known ts n rest} : Alone known ts n rest → Before ts rest
  | .array _ h => (Before.cons _ _).trans h.before
  | .expression _ h _ => h.before

mutual

/-- Statements pass tokens, like all phrases. By induction on the phrase, blocks included. -/
theorem Statement.before {known ts n known' defs rest} :
    Statement known ts n known' defs rest → Before ts rest
  | .ended h _ => h.before.trans (.cons _ _)
  | .bare h _ _ => h.before
  | .branch _ hc h _ => (Before.cons _ _).trans (hc.before.trans h.before)
  | .branches _ hc h _ h' =>
      (Before.cons _ _).trans (hc.before.trans (h.before.trans ((Before.cons _ _).trans h'.before)))
  | .loop _ hc h => (Before.cons _ _).trans (hc.before.trans h.before)
  | .print _ h _ => (Before.cons _ _).trans (h.before.trans (.cons _ _))
  | .define _ _ _ hp h =>
      (Before.cons _ _).trans ((Before.cons _ _).trans ((Before.cons _ _).trans
        (hp.before.trans h.before)))
  | .giveBack _ _ => (Before.cons _ _).trans (.cons _ _)
  | .giveBackValue _ h _ => (Before.cons _ _).trans (h.before.trans (.cons _ _))

theorem ElseClause.before {known ts n known' defs rest} :
    ElseClause known ts n known' defs rest → Before ts rest
  | .nested _ h => h.before
  | .block h => h.before

theorem Block.before {known ts n known' defs rest} :
    Block known ts n known' defs rest → Before ts rest
  | .braces _ h => (Before.cons _ _).trans h.before

theorem Statements.before {known ts ns known' defs rest} :
    Statements known ts ns known' defs rest → Before ts rest
  | .last h _ => h.before.trans (.cons _ _)
  | .cons h h' => h.before.trans h'.before

end

/-- The brace that closes the block ends its statements. -/
theorem Statements.last_token {known ts ns known' defs rest} :
    Statements known ts ns known' defs rest → EndsWith (·.isOperator closeBrace = true) ts rest
  | .last h hclose => .of_before h.before (.single hclose _)
  | .cons h h' => .of_before h.before h'.last_token

/-- A block ends with its closing brace, which is no semicolon. -/
theorem Block.last_token {known ts n known' defs rest} :
    Block known ts n known' defs rest → EndsWith (·.kind ≠ .semicolon) ts rest
  | .braces _ h => by
      refine .of_before (.cons _ _) (h.last_token.imp fun t ht => ?_)
      rw [Token.isOperator_kind ht]
      decide

/-- An expression that stands alone ends like any other. -/
theorem Alone.last_token {known ts n rest} :
    Alone known ts n rest → EndsWith (·.kind ≠ .semicolon) ts rest
  | .array _ h => .of_before (.cons _ _) (h.last_token.kind_ne (by decide))
  | .expression _ h _ => h.last_token

/-- With its semicolon in front of them, more tokens at the end change nothing. -/
theorem Alone.append_semicolon {known ts n semicolon rest} (extra : List Token)
    (hsemi : semicolon.kind = .semicolon) : Alone known ts n (semicolon :: rest) →
    Alone known (ts ++ extra) n (semicolon :: (rest ++ extra))
  | .array hopen h => .array hopen (h.append extra)
  | .expression hfirst h _ =>
      .expression hfirst (h.append extra) (.of_kind hsemi (by decide))

mutual

/-- A statement that begins with `if` ends with a brace. -/
theorem Statement.last_token_of_if {word ts known n known' defs rest} (hword : word.isWord "if" = true) :
    Statement known (word :: ts) n known' defs rest → EndsWith (·.kind ≠ .semicolon) (word :: ts) rest
  | .ended h _ => by
      obtain ⟨t, us, heq, hbegins⟩ := h.begins
      cases heq
      rw [hbegins.not_isWord (by decide)] at hword
      cases hword
  | .bare h _ _ => h.last_token
  | .branch _ hc h _ => .of_before ((Before.cons _ _).trans hc.before) h.last_token
  | .branches _ hc h _ h' =>
      .of_before ((Before.cons _ _).trans (hc.before.trans (h.before.trans (.cons _ _)))) h'.last_token
  | .loop _ hc h => .of_before ((Before.cons _ _).trans hc.before) h.last_token
  | .print h _ _ =>
      absurd ((Token.isWord_text h).symm.trans (Token.isWord_text hword)) (by decide)
  | .define _ _ _ hp h =>
      .of_before ((Before.cons _ _).trans ((Before.cons _ _).trans ((Before.cons _ _).trans
        hp.before))) h.last_token
  | .giveBack h _ =>
      absurd ((Token.isWord_text h).symm.trans (Token.isWord_text hword)) (by decide)
  | .giveBackValue h _ _ =>
      absurd ((Token.isWord_text h).symm.trans (Token.isWord_text hword)) (by decide)

/-- A branch ends with a block, or with another branch that does. -/
theorem ElseClause.last_token {known ts n known' defs rest} :
    ElseClause known ts n known' defs rest → EndsWith (·.kind ≠ .semicolon) ts rest
  | .nested hword h => h.last_token_of_if hword
  | .block h => h.last_token

end

/-- **A statement that ends with a semicolon does not look past it**: whatever follows, it is a statement. -/
theorem Statement.append_of_semicolon {known ts n known' defs rest}
    (h : Statement known ts n known' defs rest) (hlast : EndsWith (·.kind = .semicolon) ts rest)
    (extra : List Token) : Statement known (ts ++ extra) n known' defs (rest ++ extra) := by
  -- only phrases that are closed by the semicolon itself are left
  have absurdEnd : EndsWith (·.kind ≠ .semicolon) ts rest → False := by
    intro hend
    obtain ⟨t, ht, hnot⟩ := hlast.unique hend
    exact hnot ht
  cases h with
  | ended h hsemi => exact .ended (h.append_semicolon extra hsemi) hsemi
  | bare h _ _ => exact absurd h.last_token absurdEnd
  | branch _ hc h _ => exact absurd (.of_before ((Before.cons _ _).trans hc.before) h.last_token) absurdEnd
  | branches hword hc h hother h' =>
      exact absurd (Statement.last_token_of_if hword (.branches hword hc h hother h')) absurdEnd
  | loop _ hc h => exact absurd (.of_before ((Before.cons _ _).trans hc.before) h.last_token) absurdEnd
  | print hword h hsemi => exact .print hword (h.append extra) hsemi
  | define _ _ _ hp h =>
      exact absurd (.of_before ((Before.cons _ _).trans ((Before.cons _ _).trans
        ((Before.cons _ _).trans hp.before))) h.last_token) absurdEnd
  | giveBack hword hsemi => exact .giveBack hword hsemi
  | giveBackValue hword h hsemi => exact .giveBackValue hword (h.append extra) hsemi

/-! ## What a statement defines -/

section Known

variable {x : String}

mutual

/-- The functions known behind a statement are those known before it and those it defines. -/
theorem Statement.mem_known_iff {known ts n known' defs rest} :
    Statement known ts n known' defs rest → (x ∈ known' ↔ x ∈ known ∨ ∃ d ∈ defs, d.name = x)
  | .ended _ _ => by simp
  | .bare _ _ _ => by simp
  | .branch _ _ h _ => h.mem_known_iff
  | .branches _ _ h _ h' => by
      rw [h'.mem_known_iff, h.mem_known_iff]
      simp only [List.mem_append, or_and_right, exists_or, or_assoc]
  | .loop _ _ h => h.mem_known_iff
  | .print _ _ _ => by simp
  | .define _ _ _ _ h => by
      rw [h.mem_known_iff]
      simp only [List.mem_cons, List.mem_append, List.mem_nil_iff, or_false, or_and_right, exists_or,
        exists_eq_left]
      grind
  | .giveBack _ _ => by simp
  | .giveBackValue _ _ _ => by simp

theorem ElseClause.mem_known_iff {known ts n known' defs rest} :
    ElseClause known ts n known' defs rest → (x ∈ known' ↔ x ∈ known ∨ ∃ d ∈ defs, d.name = x)
  | .nested _ h => h.mem_known_iff
  | .block h => h.mem_known_iff

/-- The names learnt in a block stay known behind it. -/
theorem Block.mem_known_iff {known ts n known' defs rest} :
    Block known ts n known' defs rest → (x ∈ known' ↔ x ∈ known ∨ ∃ d ∈ defs, d.name = x)
  | .braces _ h => h.mem_known_iff

/-- Each statement learns the names of its own definitions, and what is known by the end is the union. -/
theorem Statements.mem_known_iff {known ts ns known' defs rest} :
    Statements known ts ns known' defs rest → (x ∈ known' ↔ x ∈ known ∨ ∃ d ∈ defs, d.name = x)
  | .last h _ => h.mem_known_iff
  | .cons h h' => by
      rw [h'.mem_known_iff, h.mem_known_iff]
      simp only [List.mem_append, or_and_right, exists_or, or_assoc]

end

end Known

mutual

/-- What is read as an expression is one: no statement of another kind stands inside it. -/
theorem Expression.isExpression {known ts n rest} : Expression known ts n rest → n.IsExpression
  | .operation h => h.isExpression
  | .assign _ _ h => Term.isExpression_iff.mpr ⟨rfl, by simpa [Term.parts] using h.isExpression⟩
  | .store h _ h' => by
      -- the index is inside the element that is assigned to
      have hindex := h.isExpression.part (List.mem_singleton_self _)
      exact Term.isExpression_iff.mpr ⟨rfl, by simpa [Term.parts] using ⟨hindex, h'.isExpression⟩⟩

theorem Operation.isExpression {known L ts n rest} : Operation known L ts n rest → n.IsExpression
  | .operand h => h.isExpression
  | .tighter h => h.isExpression
  | .binary h _ _ h' =>
      Term.isExpression_iff.mpr ⟨rfl, by simpa [Term.parts] using ⟨h.isExpression, h'.isExpression⟩⟩

/-- The operands that have parts have expressions inside. -/
theorem Operand.isExpression {known ts n rest} : Operand known ts n rest → n.IsExpression
  | .number _ _ => Term.isExpression_iff.mpr ⟨rfl, by simp [Term.parts]⟩
  | .boolean _ => Term.isExpression_iff.mpr ⟨rfl, by simp [Term.parts]⟩
  | .call _ _ h => Term.isExpression_iff.mpr ⟨rfl, h.isExpression⟩
  | .lookup _ _ _ h _ => Term.isExpression_iff.mpr ⟨rfl, by simpa [Term.parts] using h.isExpression⟩
  | .variable _ _ => Term.isExpression_iff.mpr ⟨rfl, by simp [Term.parts]⟩
  | .function _ _ _ => Term.isExpression_iff.mpr ⟨rfl, by simp [Term.parts]⟩
  | .group _ h _ => h.isExpression
  | .array _ h => Term.isExpression_iff.mpr ⟨rfl, h.isExpression⟩

theorem Arguments.isExpression {known closing ts args rest} : Arguments known closing ts args rest →
    ∀ n ∈ args, n.IsExpression
  | .empty _ => by simp
  | .items h => h.isExpression

/-- Every item of a list is one. -/
theorem Items.isExpression {known closing ts args rest} : Items known closing ts args rest →
    ∀ n ∈ args, n.IsExpression
  | .last h _ => by simpa using h.isExpression
  | .cons h _ h' => by simpa using ⟨h.isExpression, h'.isExpression⟩

end

/-- Factors and the operators between them make a tree of expressions. -/
theorem Condition.isExpression {known ts n rest} : Condition known ts n rest → n.IsExpression
  | .factor h => h.isExpression
  | .join h _ _ h' =>
      Term.isExpression_iff.mpr ⟨rfl, by simpa [Term.parts] using ⟨h.isExpression, h'.isExpression⟩⟩

theorem Alone.isExpression {known ts n rest} : Alone known ts n rest → n.IsExpression
  | .array _ h => Term.isExpression_iff.mpr ⟨rfl, h.isExpression⟩
  | .expression _ h _ => h.isExpression

section PostOrder

mutual

/-- **The definitions queued by a statement are those inside it, in post-order.** -/
theorem Statement.definitions_eq {known ts n known' defs rest} :
    Statement known ts n known' defs rest → defs = n.definitions
  | .ended h _ => h.isExpression.definitions_eq_nil.symm
  | .bare h _ _ => h.isExpression.definitions_eq_nil.symm
  | .branch _ hc h _ => by
      rw [h.definitions_eq]
      simp [Term.definitions, hc.isExpression.definitions_eq_nil]
  | .branches _ hc h _ h' => by
      rw [h.definitions_eq, h'.definitions_eq]
      simp [Term.definitions, hc.isExpression.definitions_eq_nil]
  | .loop _ hc h => by
      rw [h.definitions_eq]
      simp [Term.definitions, hc.isExpression.definitions_eq_nil]
  | .print _ h _ => h.isExpression.definitions_eq_nil.symm
  | .define _ _ _ _ h => by
      rw [h.definitions_eq]
      rfl
  | .giveBack _ _ => rfl
  | .giveBackValue _ h _ => h.isExpression.definitions_eq_nil.symm

theorem ElseClause.definitions_eq {known ts n known' defs rest} :
    ElseClause known ts n known' defs rest → defs = n.definitions
  | .nested _ h => by
      rw [h.definitions_eq]
      simp [Term.definitions]
  | .block h => by
      rw [h.definitions_eq]
      simp [Term.definitions]

/-- A block adds none of its own. -/
theorem Block.definitions_eq {known ts n known' defs rest} :
    Block known ts n known' defs rest → defs = n.definitions
  | .braces _ h => by
      rw [h.definitions_eq]
      simp [Term.definitions]

/-- The definitions of statements are those of the first one, then those of the others: the order in which they are
read. -/
theorem Statements.definitions_eq {known ts ns known' defs rest} :
    Statements known ts ns known' defs rest → defs = ns.flatMap Term.definitions
  | .last h _ => by
      rw [h.definitions_eq]
      simp
  | .cons h h' => by
      rw [h.definitions_eq, h'.definitions_eq, List.flatMap_cons]

end

/-- The definitions queued by a statement are those that stand inside it. -/
theorem Statement.mem_definitions_iff {known ts n known' defs rest} {d : Definition}
    (h : Statement known ts n known' defs rest) : d ∈ defs ↔ n.Defines d := by
  rw [h.definitions_eq, Term.mem_definitions_iff]

end PostOrder

end Grammar
end Abacus
