import Abacus.Parse.Expression

/-!
# `Grammar.Expression` — the grammar of expressions

The grammar is a relation between the tokens in front of an expression, its tree, and the tokens behind it:
`Expression known ts n rest` says that `ts` is a phrase with the tree `n` followed by `rest`. Levels of
operators are **left-recursive**, as one writes them on paper; nothing is said about how a phrase is found.

A phrase can be part of a longer one, so the grammar alone does not say where reading stops. `Ends` does: what
follows a phrase is no operator, no equals sign, and no opening bracket behind a bare name.

## Contents
- `Expression`, `Operation`, `Operand`, `Arguments`, `Items` — the grammar;
- `Before` — what a phrase leaves is a proper suffix;
- `Begins` — the tokens in front;
- `EndsWith` — the last token;
- `NoOperator`, `NoBracket`, `Ends` — where a phrase ends.
-/

namespace Abacus
namespace Grammar

open Parse (levels)

/-! ## Phrases -/

mutual

/-- An expression: an operation, or something assigned to a variable or to an element of an array. -/
inductive Expression (known : List String) : List Token → Term → List Token → Prop where
  | operation {ts rest : List Token} {n : Term} :
      Operation known levels ts n rest → Expression known ts n rest
  | assign {ts mid rest : List Token} {equals : Token} {name : String} {value : Term} :
      Operation known levels ts (.var name) (equals :: mid) → equals.kind = .assignment →
      Expression known mid value rest → Expression known ts (.assign name value) rest
  | store {ts mid rest : List Token} {equals : Token} {name : String} {index value : Term} :
      Operation known levels ts (.lookup name index) (equals :: mid) → equals.kind = .assignment →
      Expression known mid value rest → Expression known ts (.store name index value) rest

/-- Operands joined by the operators of some levels, the loosest level first. -/
inductive Operation (known : List String) :
    List (List Operator) → List Token → Term → List Token → Prop where
  | operand {ts rest : List Token} {n : Term} :
      Operand known ts n rest → Operation known [] ts n rest
  | tighter {level : List Operator} {tighter : List (List Operator)} {ts rest : List Token} {n : Term} :
      Operation known tighter ts n rest → Operation known (level :: tighter) ts n rest
  | binary {level : List Operator} {tighter : List (List Operator)} {ts mid rest : List Token}
      {symbol : Token} {op : Operator} {left right : Term} :
      Operation known (level :: tighter) ts left (symbol :: mid) → symbol.isOperator op.symbol = true →
      op ∈ level → Operation known tighter mid right rest →
      Operation known (level :: tighter) ts (.binary op left right) rest

/-- A number, a boolean, what begins with a name, an expression in parentheses, or an array. -/
inductive Operand (known : List String) : List Token → Term → List Token → Prop where
  | number {t : Token} {rest : List Token} {value : Float} :
      t.kind = .number → Number.read? t.text = some value →
      Operand known (t :: rest) (.number value) rest
  | boolean {t : Token} {rest : List Token} :
      t.kind = .boolean → Operand known (t :: rest) (.boolean (t.text = "true")) rest
  | call {t opening : Token} {ts rest : List Token} {args : List Term} :
      t.isName = true → opening.kind = .leftParen → Arguments known .rightParen ts args rest →
      Operand known (t :: opening :: ts) (.call t.text args) rest
  | lookup {t opening closing : Token} {ts rest : List Token} {index : Term} :
      t.isName = true → t.text ∉ known → opening.kind = .leftBracket →
      Expression known ts index (closing :: rest) → closing.kind = .rightBracket →
      Operand known (t :: opening :: ts) (.lookup t.text index) rest
  | variable {t : Token} {rest : List Token} :
      t.isName = true → t.text ∉ known → Operand known (t :: rest) (.var t.text) rest
  | function {t semicolon : Token} {rest : List Token} :
      t.isName = true → t.text ∈ known → semicolon.kind = .semicolon →
      Operand known (t :: semicolon :: rest) (.var t.text) (semicolon :: rest)
  | group {opening closing : Token} {ts rest : List Token} {n : Term} :
      opening.kind = .leftParen → Expression known ts n (closing :: rest) →
      closing.kind = .rightParen → Operand known (opening :: ts) n rest
  | array {opening : Token} {ts rest : List Token} {elements : List Term} :
      opening.kind = .leftBracket → Arguments known .rightBracket ts elements rest →
      Operand known (opening :: ts) (.array elements) rest

/-- Expressions with commas between them and the bracket that closes them. -/
inductive Arguments (known : List String) :
    Token.Kind → List Token → List Term → List Token → Prop where
  | empty {closing : Token.Kind} {t : Token} {rest : List Token} :
      t.kind = closing → Arguments known closing (t :: rest) [] rest
  | items {closing : Token.Kind} {ts rest : List Token} {args : List Term} :
      Items known closing ts args rest → Arguments known closing ts args rest

/-- At least one expression, with commas between them, and the bracket that closes them. -/
inductive Items (known : List String) : Token.Kind → List Token → List Term → List Token → Prop where
  | last {closing : Token.Kind} {t : Token} {ts rest : List Token} {n : Term} :
      Expression known ts n (t :: rest) → t.kind = closing → Items known closing ts [n] rest
  | cons {closing : Token.Kind} {comma : Token} {ts mid rest : List Token} {n : Term}
      {args : List Term} :
      Expression known ts n (comma :: mid) → comma.kind = .comma → Items known closing mid args rest →
      Items known closing ts (n :: args) rest

end

/-- The levels of operators as they are written, the loosest first. -/
example : levels.map (·.map Operator.symbol) =
    [["|"], ["^"], ["&"], ["==", "!="], ["<", ">", "<=", ">="], ["+", "-"], ["*", "/", "%"]] := by
  decide

/-! ## Tokens in front of tokens -/

/-- `ts` is one token or more, followed by `rest`. -/
def Before (ts rest : List Token) : Prop := ∃ front token, ts = front ++ token :: rest

theorem Before.cons (t : Token) (rest : List Token) : Before (t :: rest) rest := ⟨[], t, rfl⟩

/-- Two phrases, one behind the other. -/
theorem Before.trans {ts mid rest : List Token} (h : Before ts mid) (h' : Before mid rest) :
    Before ts rest := by
  obtain ⟨front, t, rfl⟩ := h
  obtain ⟨front', t', rfl⟩ := h'
  exact ⟨front ++ t :: front', t', by simp⟩

/-- A phrase is never empty, which bounds every recursion over phrases. -/
theorem Before.length_lt {ts rest : List Token} (h : Before ts rest) : rest.length < ts.length := by
  obtain ⟨front, t, rfl⟩ := h
  simp only [List.length_append, List.length_cons]
  omega

/-- What follows a phrase is the end of the tokens. -/
theorem Before.suffix {ts rest : List Token} (h : Before ts rest) : rest <:+ ts := by
  obtain ⟨front, t, rfl⟩ := h
  exact ⟨front ++ [t], by simp⟩

/-- The token in front of `rest` is the same however it is found. -/
theorem Before.token_unique {front front' rest : List Token} {t t' : Token}
    (h : front ++ t :: rest = front' ++ t' :: rest) : t = t' := by
  have hcut : (front ++ [t]) ++ rest = (front' ++ [t']) ++ rest := by simpa using h
  have hfront := List.append_cancel_right hcut
  simpa using (List.append_inj_right' hfront rfl)

mutual

/-- By induction on the phrase: its parts are one behind the other. -/
theorem Expression.before {known ts n rest} : Expression known ts n rest → Before ts rest
  | .operation h => h.before
  | .assign h _ h' => h.before.trans ((Before.cons _ _).trans h'.before)
  | .store h _ h' => h.before.trans ((Before.cons _ _).trans h'.before)

theorem Operation.before {known L ts n rest} : Operation known L ts n rest → Before ts rest
  | .operand h => h.before
  | .tighter h => h.before
  | .binary h _ _ h' => h.before.trans ((Before.cons _ _).trans h'.before)

/-- The operands are where tokens are passed. -/
theorem Operand.before {known ts n rest} : Operand known ts n rest → Before ts rest
  | .number _ _ => .cons _ _
  | .boolean _ => .cons _ _
  | .call _ _ h => (Before.cons _ _).trans ((Before.cons _ _).trans h.before)
  | .lookup _ _ _ h _ =>
      (Before.cons _ _).trans ((Before.cons _ _).trans (h.before.trans (.cons _ _)))
  | .variable _ _ => .cons _ _
  | .function _ _ _ => .cons _ _
  | .group _ h _ => (Before.cons _ _).trans (h.before.trans (.cons _ _))
  | .array _ h => (Before.cons _ _).trans h.before

theorem Arguments.before {known closing ts args rest} :
    Arguments known closing ts args rest → Before ts rest
  | .empty _ => .cons _ _
  | .items h => h.before

theorem Items.before {known closing ts args rest} : Items known closing ts args rest → Before ts rest
  | .last h _ => h.before.trans (.cons _ _)
  | .cons h _ h' => h.before.trans ((Before.cons _ _).trans h'.before)

end

/-! ## Where a phrase begins -/

/-- A name is a word that is no keyword, so its kind is that of words. -/
theorem Token.isName_kind {t : Token} (h : t.isName = true) : t.kind = .identifier := by
  simp only [Token.isName, Bool.and_eq_true, decide_eq_true_eq] at h
  exact h.1

theorem Token.isOperator_kind {t : Token} {symbol : String} (h : t.isOperator symbol = true) :
    t.kind = .operator := by
  simp only [Token.isOperator, Bool.and_eq_true, decide_eq_true_eq] at h
  exact h.1

/-- The tokens that begin an operand: a name, or one of these kinds. -/
def Begins (t : Token) : Prop :=
  t.isName = true ∨ t.kind ∈ [Token.Kind.number, .boolean, .leftParen, .leftBracket]

/-- Apart from names, it is the kind of a token that says whether it begins an operand. -/
theorem Begins.of_kind {t : Token} {kind : Token.Kind} (h : t.kind = kind)
    (hkind : kind ∈ [Token.Kind.number, .boolean, .leftParen, .leftBracket]) : Begins t :=
  .inr (h ▸ hkind)

/-- Only these kinds of token begin an operand. -/
theorem Begins.kind {t : Token} (h : Begins t) :
    t.kind ∈ [Token.Kind.identifier, .number, .boolean, .leftParen, .leftBracket] := by
  rcases h with hname | hkind
  · rw [Token.isName_kind hname]
    decide
  · exact List.mem_cons_of_mem _ hkind

/-- An operand shows in its first token that it is one. -/
theorem Operand.begins {known ts n rest} : Operand known ts n rest → ∃ t us, ts = t :: us ∧ Begins t
  | .number h _ => ⟨_, _, rfl, .of_kind h (by decide)⟩
  | .boolean h => ⟨_, _, rfl, .of_kind h (by decide)⟩
  | .call h _ _ => ⟨_, _, rfl, .inl h⟩
  | .lookup h _ _ _ _ => ⟨_, _, rfl, .inl h⟩
  | .variable h _ => ⟨_, _, rfl, .inl h⟩
  | .function h _ _ => ⟨_, _, rfl, .inl h⟩
  | .group h _ _ => ⟨_, _, rfl, .of_kind h (by decide)⟩
  | .array h _ => ⟨_, _, rfl, .of_kind h (by decide)⟩

/-- An operation begins with its leftmost operand. -/
theorem Operation.begins {known L ts n rest} : Operation known L ts n rest →
    ∃ t us, ts = t :: us ∧ Begins t
  | .operand h => h.begins
  | .tighter h => h.begins
  | .binary h _ _ _ => h.begins

theorem Expression.begins {known ts n rest} : Expression known ts n rest →
    ∃ t us, ts = t :: us ∧ Begins t
  | .operation h => h.begins
  | .assign h _ _ => h.begins
  | .store h _ _ => h.begins

theorem Items.begins {known closing ts args rest} : Items known closing ts args rest →
    ∃ t us, ts = t :: us ∧ Begins t
  | .last h _ => h.begins
  | .cons h _ _ => h.begins

/-! ## The last token of a phrase -/

/-- `ts` is followed by `rest`, and the last token in front of `rest` satisfies `P`. -/
def EndsWith (P : Token → Prop) (ts rest : List Token) : Prop :=
  ∃ front token, ts = front ++ token :: rest ∧ P token

theorem EndsWith.single {P : Token → Prop} {t : Token} (h : P t) (rest : List Token) :
    EndsWith P (t :: rest) rest := ⟨[], t, rfl, h⟩

/-- A phrase of one token that has another kind. -/
theorem EndsWith.of_kind {t : Token} {kind kind' : Token.Kind} {rest : List Token} (h : t.kind = kind')
    (hne : kind' ≠ kind) : EndsWith (·.kind ≠ kind) (t :: rest) rest :=
  .single (h ▸ hne) rest

/-- What stands in front of a phrase does not change how it ends. -/
theorem EndsWith.of_before {P : Token → Prop} {ts mid rest : List Token} (h : Before ts mid)
    (h' : EndsWith P mid rest) : EndsWith P ts rest := by
  obtain ⟨front, t, rfl⟩ := h
  obtain ⟨front', t', rfl, ht'⟩ := h'
  exact ⟨front ++ t :: front', t', by simp, ht'⟩

theorem EndsWith.imp {P Q : Token → Prop} {ts rest : List Token} (h : EndsWith P ts rest)
    (hPQ : ∀ t, P t → Q t) : EndsWith Q ts rest := by
  obtain ⟨front, t, hts, ht⟩ := h
  exact ⟨front, t, hts, hPQ t ht⟩

theorem EndsWith.kind_ne {kind kind' : Token.Kind} {ts rest : List Token}
    (h : EndsWith (·.kind = kind') ts rest) (hne : kind' ≠ kind) :
    EndsWith (·.kind ≠ kind) ts rest :=
  h.imp fun _ ht => ht ▸ hne

/-- Only one token is the last. -/
theorem EndsWith.unique {P Q : Token → Prop} {ts rest : List Token} (h : EndsWith P ts rest)
    (h' : EndsWith Q ts rest) : ∃ t, P t ∧ Q t := by
  obtain ⟨front, t, rfl, ht⟩ := h
  obtain ⟨front', t', heq, ht'⟩ := h'
  exact ⟨t, ht, Before.token_unique heq ▸ ht'⟩

/-- The list ends with what closes it, however many items it has. -/
theorem Items.last_token {known closing ts args rest} :
    Items known closing ts args rest → EndsWith (·.kind = closing) ts rest
  | .last h ht => .of_before h.before (.single ht _)
  | .cons h _ h' => .of_before (h.before.trans (.cons _ _)) h'.last_token

/-- So does a list that may be empty. -/
theorem Arguments.last_token {known closing ts args rest} :
    Arguments known closing ts args rest → EndsWith (·.kind = closing) ts rest
  | .empty h => .single h _
  | .items h => h.last_token

/-- No operand ends with a semicolon. -/
theorem Operand.last_token {known ts n rest} :
    Operand known ts n rest → EndsWith (·.kind ≠ .semicolon) ts rest
  | .number h _ => .of_kind h (by decide)
  | .boolean h => .of_kind h (by decide)
  | .call _ _ h => .of_before ((Before.cons _ _).trans (.cons _ _)) (h.last_token.kind_ne (by decide))
  | .lookup _ _ _ h hc =>
      .of_before ((Before.cons _ _).trans ((Before.cons _ _).trans h.before))
        (.of_kind hc (by decide))
  | .variable h _ => .of_kind (Token.isName_kind h) (by decide)
  | .function h _ _ => .of_kind (Token.isName_kind h) (by decide)
  | .group _ h hc => .of_before ((Before.cons _ _).trans h.before) (.of_kind hc (by decide))
  | .array _ h => .of_before (.cons _ _) (h.last_token.kind_ne (by decide))

theorem Operation.last_token {known L ts n rest} :
    Operation known L ts n rest → EndsWith (·.kind ≠ .semicolon) ts rest
  | .operand h => h.last_token
  | .tighter h => h.last_token
  | .binary h _ _ h' => .of_before (h.before.trans (.cons _ _)) h'.last_token

/-- An expression ends with its last operand, that of the value if something is assigned. -/
theorem Expression.last_token {known ts n rest} :
    Expression known ts n rest → EndsWith (·.kind ≠ .semicolon) ts rest
  | .operation h => h.last_token
  | .assign h _ h' => .of_before (h.before.trans (.cons _ _)) h'.last_token
  | .store h _ h' => .of_before (h.before.trans (.cons _ _)) h'.last_token

/-! ## Where a phrase ends -/

/-- What comes next is no operator of these levels. -/
def NoOperator (L : List (List Operator)) (rest : List Token) : Prop :=
  ∀ t ∈ rest.head?, ∀ level ∈ L, ∀ op ∈ level, t.isOperator op.symbol = false

/-- If the phrase in front of `rest` ends with a bare name, no opening bracket comes next: it would make the
name a call or an element. -/
def NoBracket (ts rest : List Token) : Prop :=
  ∀ front token, ts = front ++ token :: rest → token.kind = .identifier →
    ∀ t ∈ rest.head?, t.kind ≠ .leftParen ∧ t.kind ≠ .leftBracket

/-- An expression that begins with `ts` and is followed by `rest` does not go on. -/
structure Ends (ts rest : List Token) : Prop where
  noOperator : NoOperator levels rest
  noAssignment : ∀ t ∈ rest.head?, t.kind ≠ .assignment
  noBracket : NoBracket ts rest

/-- The kinds of token that neither an operator nor an opening bracket has. -/
def Separates (kind : Token.Kind) : Prop :=
  kind ∉ [Token.Kind.operator, .assignment, .leftParen, .leftBracket]

instance (kind : Token.Kind) : Decidable (Separates kind) := inferInstanceAs (Decidable (_ ∉ _))

/-- A token of another kind is no operator. -/
theorem NoOperator.of_kind {L : List (List Operator)} {t : Token} {rest : List Token} {kind : Token.Kind}
    (h : t.kind = kind) (hne : kind ≠ .operator) : NoOperator L (t :: rest) := by
  intro t' ht' _ _ _ _
  cases ht'
  simp [Token.isOperator, h, hne]

/-- Behind a token that is no name, an opening bracket begins something new. -/
theorem NoBracket.of_last {ts rest : List Token} (h : EndsWith (·.kind ≠ .identifier) ts rest) :
    NoBracket ts rest := by
  obtain ⟨front, token, rfl, htoken⟩ := h
  intro front' token' heq hkind
  rw [Before.token_unique heq] at htoken
  exact absurd hkind htoken

/-- A token that is no opening bracket may follow any phrase. -/
theorem NoBracket.of_next {ts rest : List Token} {t : Token} {kind : Token.Kind} (h : t.kind = kind)
    (hne : kind ≠ .leftParen ∧ kind ≠ .leftBracket) : NoBracket ts (t :: rest) := by
  intro _ _ _ _ t' ht'
  cases ht'
  rw [h]
  exact hne

/-- An expression does not go on behind a comma, a semicolon or a closing bracket. -/
theorem Ends.of_kind {ts rest : List Token} {t : Token} {kind : Token.Kind} (h : t.kind = kind)
    (hsep : Separates kind) : Ends ts (t :: rest) := by
  simp only [Separates, List.mem_cons, List.not_mem_nil, or_false, not_or] at hsep
  refine ⟨.of_kind h hsep.1, ?_, .of_next h hsep.2.2⟩
  intro t' ht'
  cases ht'
  rw [h]
  exact hsep.2.1

/-- Only the last token of the phrase matters. -/
theorem NoBracket.of_suffix {ts mid rest : List Token} (hsuf : mid <:+ ts) (hb : Before mid rest)
    (h : NoBracket mid rest) : NoBracket ts rest := by
  obtain ⟨pre, rfl⟩ := hsuf
  obtain ⟨front, token, rfl⟩ := hb
  intro front' token' heq hkind
  have heq' : (pre ++ front) ++ token :: rest = front' ++ token' :: rest := by simpa using heq
  exact h front token rfl (Before.token_unique heq' ▸ hkind)

/-- Arguments end with a bracket and not with a name. -/
theorem Arguments.noBracket {known closing ts args rest} (hc : closing ≠ .identifier)
    (h : Arguments known closing ts args rest) : NoBracket ts rest :=
  .of_last (h.last_token.imp fun t ht => by rw [ht]; exact hc)

/-- A later part of the phrase has the same end. -/
theorem NoBracket.suffix {ts mid rest : List Token} (hsuf : mid <:+ ts) (h : NoBracket ts rest) :
    NoBracket mid rest := by
  obtain ⟨pre, rfl⟩ := hsuf
  intro front token heq hkind
  exact h (pre ++ front) token (by rw [heq, List.append_assoc]) hkind

/-- Where a phrase ends, the last phrase inside it does. -/
theorem Ends.suffix {ts mid rest : List Token} (hsuf : mid <:+ ts) (h : Ends ts rest) : Ends mid rest :=
  ⟨h.noOperator, h.noAssignment, h.noBracket.suffix hsuf⟩

/-- Where the last phrase inside it ends, a phrase does. -/
theorem Ends.of_suffix {ts mid rest : List Token} (hsuf : mid <:+ ts) (hb : Before mid rest)
    (h : Ends mid rest) : Ends ts rest :=
  ⟨h.noOperator, h.noAssignment, h.noBracket.of_suffix hsuf hb⟩

/-! ## More tokens behind a phrase -/

section Append

variable {known : List String} (extra : List Token)

mutual

/-- A phrase stays one when more tokens follow at the end. -/
theorem Expression.append {ts n rest} : Expression known ts n rest →
    Expression known (ts ++ extra) n (rest ++ extra)
  | .operation h => .operation h.append
  | .assign h heq h' => .assign h.append heq h'.append
  | .store h heq h' => .store h.append heq h'.append

theorem Operation.append {L ts n rest} : Operation known L ts n rest →
    Operation known L (ts ++ extra) n (rest ++ extra)
  | .operand h => .operand h.append
  | .tighter h => .tighter h.append
  | .binary h hsym hmem h' => .binary h.append hsym hmem h'.append

theorem Operand.append {ts n rest} : Operand known ts n rest →
    Operand known (ts ++ extra) n (rest ++ extra)
  | .number h hread => .number h hread
  | .boolean h => .boolean h
  | .call hname hopen h => .call hname hopen h.append
  | .lookup hname hknown hopen h hclose => .lookup hname hknown hopen h.append hclose
  | .variable hname hknown => .variable hname hknown
  | .function hname hknown hsemi => .function hname hknown hsemi
  | .group hopen h hclose => .group hopen h.append hclose
  | .array hopen h => .array hopen h.append

theorem Arguments.append {closing ts args rest} : Arguments known closing ts args rest →
    Arguments known closing (ts ++ extra) args (rest ++ extra)
  | .empty h => .empty h
  | .items h => .items h.append

theorem Items.append {closing ts args rest} : Items known closing ts args rest →
    Items known closing (ts ++ extra) args (rest ++ extra)
  | .last h hclose => .last h.append hclose
  | .cons h hcomma h' => .cons h.append hcomma h'.append

end

end Append

end Grammar
end Abacus
