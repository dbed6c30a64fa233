import Abacus.Proofs.Grammar.ExpressionText
import Abacus.Proofs.Grammar.ProgramReading

/-!
# `Grammar.StatementText` — the texts of statements are statements

With a semicolon behind every line that needs one, the text of a statement is the statement. A block is written
over several lines, so the text is followed **line by line**: `Written` for a statement, `WrittenBlock` for what
stands between braces, `WrittenElse` for what follows a block. As in the grammar, a statement may be followed by
anything but the word `else`.

## Contents
- `Written`, `WrittenBlock`, `WrittenStatements`, `WrittenElse` — texts that are statements;
- one rule for each kind of statement;
- `Statement.written` — what has been read can be read again;
- `Written.next` — a text that is a statement is a program of this one statement.
-/

namespace Abacus
namespace Grammar

open Parse (levels factorLevel openBrace closeBrace)

/-! ## Texts that are statements -/

/-- What comes next is not the word `else`. -/
def NotElse (rest : List Token) : Prop := ∀ t ∈ rest.head?, t.isWord "else" = false

/-- Written at any depth and with semicolons, the term is a statement. -/
structure Written (known : List String) (n : Term) (known' : List String) (defs : List Definition) : Prop where
  visible : ∀ depth, Visible (n.renderAt depth).toList
  lexes : ∀ depth, Lexes (endLines (n.renderAt depth).toList) fun ts =>
    ∀ rest, NotElse rest → Statement known (ts ++ rest) n known' defs rest

/-- Written at any depth and with semicolons, the term is what stands behind an opening brace. It begins on a new
line. -/
def WrittenBlock (known : List String) (n : Term) (known' : List String) (defs : List Definition) : Prop :=
  ∀ depth, ∃ cs, (n.renderAt depth).toList = '\n' :: cs ∧ Lexes (endLines cs) fun ts =>
    ∀ opening rest, opening.isOperator openBrace = true →
      Block known (opening :: (ts ++ rest)) n known' defs rest

/-- Written at any depth and with semicolons, the terms are what stands between braces. -/
def WrittenStatements (known : List String) (ns : List Term) (known' : List String)
    (defs : List Definition) : Prop :=
  ∀ depth, ∃ cs, (Term.renderLines (depth + 1) ns ++ Term.newLine depth ++ closeBrace).toList = '\n' :: cs ∧
    Lexes (endLines cs) fun ts => ∀ rest, Statements known (ts ++ rest) ns known' defs rest

/-- Written at any depth and with semicolons, the term is the word `else` and what follows it. It begins on a new
line. -/
def WrittenElse (known : List String) (n : Term) (known' : List String) (defs : List Definition) : Prop :=
  ∀ depth, ∃ cs, (n.renderAt depth).toList = '\n' :: cs ∧ Lexes (endLines cs) fun ts =>
    ∀ rest, NotElse rest → ∃ other mid, ts ++ rest = other :: mid ∧ other.isWord "else" = true ∧
      ElseClause known mid n known' defs rest

/-! ## Simple statements -/

theorem Token.isWord_of {t : Token} {word : String} (hkind : t.kind = .identifier)
    (htext : t.text = .ofList word.toList) : t.isWord word = true := by
  simp [Token.isWord, hkind, htext]

/-- Keywords are words that scan like names. -/
theorem isLexeme_keyword {word : String} (h : word ∈ keywords) : IsLexeme .identifier word.toList := by
  simp only [keywords, List.mem_cons, List.mem_nil_iff, or_false] at h
  rcases h with rfl | rfl | rfl | rfl | rfl | rfl <;> exact ⟨_, _, rfl, rfl⟩

/-- Of all operands, only arrays begin with an opening bracket. -/
theorem Operand.first_token {known t us n rest} : Operand known (t :: us) n rest →
    t.kind ≠ .leftBracket ∨
    (t.kind = .leftBracket ∧ ∃ elements, n = .array elements ∧ Arguments known .rightBracket us elements rest)
  | .number h _ => .inl (by simp [h])
  | .boolean h => .inl (by simp [h])
  | .call h _ _ => .inl (by simp [Token.isName_kind h])
  | .lookup h _ _ _ _ => .inl (by simp [Token.isName_kind h])
  | .variable h _ => .inl (by simp [Token.isName_kind h])
  | .function h _ _ => .inl (by simp [Token.isName_kind h])
  | .group h _ _ => .inl (by simp [h])
  | .array hopen h => .inr ⟨hopen, _, rfl, h⟩

/-- An operand in front of a semicolon stands alone. -/
theorem Operand.alone {known ts n semicolon rest} (h : Operand known ts n (semicolon :: rest))
    (hsemi : semicolon.kind = .semicolon) : Alone known ts n (semicolon :: rest) := by
  obtain ⟨t, us, rfl, -⟩ := h.begins
  rcases h.first_token with ht | ⟨ht, elements, rfl, helements⟩
  · exact .expression ht (.of_operand h) (.of_kind hsemi (by decide))
  · exact .array ht helements

/-- An operand has one token at least, so its text is not empty; and there is no line break in it. -/
theorem Readable.visible {known n} (h : Readable known n) (depth : Nat) :
    Visible (n.renderAt depth).toList := by
  cases htext : (n.renderAt depth).toList with
  | nil =>
      -- an empty text has no tokens, but an operand has one at least
      obtain ⟨ts, hts, hoperand⟩ := h.lexes depth .start
      rw [htext, Scanner.tokens_nil] at hts
      have hnil : ts = [] := by simpa using congrArg List.length (Except.ok.inj hts)
      have hlt := (hoperand []).before.length_lt
      simp [hnil] at hlt
  | cons c cs => exact ⟨c, cs, rfl, (h.plain depth c (by simp [htext])).1⟩

/-- An expression that stands alone. -/
theorem Written.of_readable {known n} (h : Readable known n) : Written known n known [] where
  visible := h.visible
  lexes depth := by
    refine Lexes.ended (h.plain depth) (h.lexes depth) fun ts semicolon hts hsemi rest _ => ?_
    rw [List.append_assoc]
    exact .ended ((hts _).alone hsemi) hsemi

/-- A keyword is written without braces. -/
theorem plain_word {word : String} (hword : word ∈ keywords) : ∀ c ∈ word.toList, Plain c :=
  (isLexeme_keyword hword).plain (by decide)

section Keyword

variable {known : List String} {word : String} {value : Term} {depth : Nat}

/-- A keyword with an operand behind it stands on one line. -/
theorem plain_keyword (hword : word ∈ keywords) (h : Readable known value) :
    ∀ c ∈ word.toList ++ ' ' :: (value.renderAt depth).toList, Plain c := by
  simp only [List.forall_mem_append, List.forall_mem_cons]
  exact ⟨plain_word hword, by decide, h.plain depth⟩

/-- A keyword and the operand behind it, with a space that keeps them apart. -/
theorem lexes_keyword (hword : word ∈ keywords) (h : Readable known value) :
    Lexes (word.toList ++ ' ' :: (value.renderAt depth).toList) fun ts =>
      ∃ t us, ts = t :: us ∧ t.isWord word = true ∧ ∀ rest, Operand known (us ++ rest) value rest := by
  refine .word (isLexeme_keyword hword) (.cons (by decide)) fun t hkind htext => ?_
  refine .blank rfl ((h.lexes depth).imp fun us hus => ?_)
  exact ⟨t, us, rfl, Token.isWord_of hkind htext, hus⟩

end Keyword

/-- A text that begins with a keyword is visible. -/
theorem visible_keyword {word : String} (hword : word ∈ keywords) (cs : List Char) :
    Visible (word.toList ++ cs) := by
  obtain ⟨c, ds, htext, -⟩ := isLexeme_keyword hword
  have hplain := plain_word hword c (by simp [htext])
  exact ⟨c, ds ++ cs, by rw [htext, List.cons_append], hplain.1⟩

/-- A statement that is a keyword with an operand behind it. -/
theorem Written.of_keyword {known word n value} (hword : word ∈ keywords)
    (htext : ∀ depth, (n.renderAt depth).toList = word.toList ++ ' ' :: (value.renderAt depth).toList)
    (hn : ∀ {t us semicolon rest}, t.isWord word = true → Expression known us value (semicolon :: rest) →
      semicolon.kind = .semicolon → Statement known (t :: us) n known [] rest)
    (h : Readable known value) : Written known n known [] := by
  constructor
  · intro depth
    rw [htext]
    exact visible_keyword hword _
  · intro depth
    rw [htext]
    refine Lexes.ended (plain_keyword hword h) (lexes_keyword hword h) ?_
    rintro _ semicolon ⟨t, us, rfl, ht, hus⟩ hsemi rest _
    rw [List.append_assoc]
    exact hn ht (.of_operand (hus _)) hsemi

/-- The line ends with a semicolon, which ends the statement. -/
theorem Written.print {known value} (h : Readable known value) : Written known (.print value) known [] :=
  .of_keyword (by decide) (fun depth => by simp [Term.renderAt]) .print h

theorem Written.giveBackValue {known value} (h : Readable known value) :
    Written known (.giveBack (some value)) known [] :=
  .of_keyword (by decide) (fun depth => by simp [Term.renderAt]) .giveBackValue h

/-- Behind a bare `return` the semicolon comes at once. -/
theorem Written.giveBack (known : List String) : Written known (.giveBack none) known [] := by
  have hreturn : "return" ∈ keywords := by decide
  have htext : ∀ depth, ((Term.giveBack none).renderAt depth).toList = "return".toList ++ [] := by
    intro depth
    simp [Term.renderAt]
  constructor
  · intro depth
    rw [htext]
    exact visible_keyword hreturn _
  · intro depth
    have hlexes : Lexes ("return".toList ++ []) fun ts => ∃ t, ts = [t] ∧ t.isWord "return" = true := by
      refine .word (isLexeme_keyword hreturn) (by simp [Stops]) fun t hkind htext => .nil ?_
      exact ⟨t, rfl, Token.isWord_of hkind htext⟩
    rw [htext]
    refine Lexes.ended (by simpa using plain_word hreturn) hlexes ?_
    rintro _ semicolon ⟨t, rfl, hword⟩ hsemi rest _
    exact .giveBack hword hsemi

/-! ## Blocks -/

/-- An operator is no word, so the brace that closes a block does not continue a branch. -/
theorem NotElse.of_kind {t : Token} {rest : List Token} (h : t.kind = .operator) : NotElse (t :: rest) := by
  intro t' ht'
  cases ht'
  simp [Token.isWord, h]

/-- No statement begins with `else`: it would be read as the branch of the one in front. -/
theorem Statements.notElse {known ts ns known' defs rest} (h : Statements known ts ns known' defs rest) :
    NotElse ts := by
  obtain ⟨t, us, rfl, hbegins⟩ := h.begins
  intro t' ht'
  cases ht'
  exact hbegins.not_else

/-- The line behind the last statement has the closing brace. -/
theorem WrittenStatements.last {known n known' defs} (h : Written known n known' defs) :
    WrittenStatements known [n] known' defs := by
  intro depth
  refine ⟨(List.replicate ((depth + 1) * Term.indentWidth) ' ' ++ (n.renderAt (depth + 1)).toList) ++
    '\n' :: (List.replicate (depth * Term.indentWidth) ' ' ++ ['\x7d']), ?_, ?_⟩
  · simp [Term.renderLines, Term.newLine, Term.indent, Parse.closeBrace]
  · refine .lines (.indented _ (h.visible (depth + 1)) (h.lexes (depth + 1))) fun ts hts => ?_
    refine .closing _ fun closing hclosing rest => ?_
    rw [List.append_assoc]
    exact .last (hts _ (.of_kind (Token.isOperator_kind hclosing))) hclosing

/-- The statement in front ends with its line, and the next one does not begin with `else`. -/
theorem WrittenStatements.cons {known n ns known₁ known₂ defs₁ defs₂} (h : Written known n known₁ defs₁)
    (h' : WrittenStatements known₁ ns known₂ defs₂) :
    WrittenStatements known (n :: ns) known₂ (defs₁ ++ defs₂) := by
  intro depth
  obtain ⟨cs, htext, hcs⟩ := h' depth
  refine ⟨(List.replicate ((depth + 1) * Term.indentWidth) ' ' ++ (n.renderAt (depth + 1)).toList) ++
    '\n' :: cs, ?_, ?_⟩
  · rw [← htext]
    simp [Term.renderLines, Term.newLine, Term.indent]
  · refine .lines (.indented _ (h.visible (depth + 1)) (h.lexes (depth + 1))) fun ts hts => ?_
    refine hcs.imp fun us hus rest => ?_
    rw [List.append_assoc]
    exact .cons (hts _ (hus rest).notElse) (hus rest)

theorem WrittenBlock.braces {known ns known' defs} (h : WrittenStatements known ns known' defs) :
    WrittenBlock known (.braced (.block ns)) known' defs := by
  intro depth
  obtain ⟨cs, htext, hcs⟩ := h depth
  exact ⟨cs, by rw [← htext]; rfl, hcs.imp fun ts hts opening rest hopening => .braces hopening (hts rest)⟩

/-! ## Branches and loops -/

/-- Conditions are written in parentheses if they are more than one operand. -/
theorem Condition.of_operand {known ts n rest} (h : Operand known ts n rest) : Condition known ts n rest :=
  .factor (.of_operand _ h)

section Branch

variable {known known₁ known₂ : List String} {condition body otherwise : Term}
  {defs₁ defs₂ : List Definition}

/-- A statement that is a keyword with a condition and a block behind it. -/
theorem Written.of_block {word : String} {n : Term} (hword : word ∈ keywords)
    (htext : ∀ depth, (n.renderAt depth).toList =
      (word.toList ++ ' ' :: (condition.renderAt depth).toList) ++
        ' ' :: '\x7b' :: (body.renderAt depth).toList)
    (hn : ∀ {t us mid rest}, t.isWord word = true → Condition known us condition mid →
      Block known mid body known₁ defs₁ rest → NotElse rest → Statement known (t :: us) n known₁ defs₁ rest)
    (hc : Readable known condition) (hb : WrittenBlock known body known₁ defs₁) :
    Written known n known₁ defs₁ := by
  constructor
  · intro depth
    rw [htext, List.append_assoc]
    exact visible_keyword hword _
  · intro depth
    obtain ⟨cs, hbody, hcs⟩ := hb depth
    rw [htext, hbody]
    refine .opening (plain_keyword hword hc) (lexes_keyword hword hc) ?_
    rintro _ opening ⟨t, us, rfl, ht, hus⟩ hopening
    refine hcs.imp fun vs hvs rest hrest => ?_
    have h := hn ht (.of_operand (hus _)) (hvs opening rest hopening) hrest
    simpa using h

theorem Written.branch (hc : Readable known condition) (hb : WrittenBlock known body known₁ defs₁) :
    Written known (.ifElse condition body none) known₁ defs₁ :=
  .of_block (by decide) (fun depth => by simp [Term.renderAt]) .branch hc hb

theorem Written.loop (hc : Readable known condition) (hb : WrittenBlock known body known₁ defs₁) :
    Written known (.whileLoop condition body) known₁ defs₁ :=
  .of_block (by decide) (fun depth => by simp [Term.renderAt]) (fun ht hc hb _ => .loop ht hc hb) hc hb

/-- The line with the closing brace of the block gets no semicolon, so the `else` on the next one belongs to the same
branch. -/
theorem Written.branches (hc : Readable known condition) (hb : WrittenBlock known body known₁ defs₁)
    (ho : WrittenElse known₁ otherwise known₂ defs₂) :
    Written known (.ifElse condition body (some otherwise)) known₂ (defs₁ ++ defs₂) := by
  have htext : ∀ depth, ((Term.ifElse condition body (some otherwise)).renderAt depth).toList =
      ("if".toList ++ ' ' :: (condition.renderAt depth).toList) ++
        ' ' :: '\x7b' :: ((body.renderAt depth).toList ++ (otherwise.renderAt depth).toList) := by
    intro depth
    simp [Term.renderAt]
  constructor
  · intro depth
    rw [htext, List.append_assoc]
    exact visible_keyword (by decide) _
  · intro depth
    obtain ⟨cs, hbody, hcs⟩ := hb depth
    obtain ⟨ds, hotherwise, hds⟩ := ho depth
    rw [htext, hbody, hotherwise, List.cons_append]
    refine .opening (plain_keyword (by decide) hc) (lexes_keyword (by decide) hc) ?_
    rintro _ opening ⟨word, us, rfl, hword, hus⟩ hopening
    -- `else` stands on the line behind the closing brace
    refine .lines hcs fun vs hvs => hds.imp fun ws hws rest hrest => ?_
    obtain ⟨other, mid, hother, helse, hclause⟩ := hws rest hrest
    have hblock := hvs opening (other :: mid) hopening
    have h := Statement.branches hword (.of_operand (hus _)) hblock helse hclause
    simpa [hother] using h

end Branch

/-- What begins with `if` is a branch. -/
theorem Statement.eq_ifElse {word ts known n known' defs rest} (hword : word.isWord "if" = true)
    (h : Statement known (word :: ts) n known' defs rest) :
    ∃ condition body otherwise, n = .ifElse condition body otherwise := by
  have hother : ∀ {other}, word.isWord other = true → other = "if" :=
    fun h => (Token.isWord_text h).symm.trans (Token.isWord_text hword)
  have halone : ∀ {rest}, ¬Alone known (word :: ts) n rest := by
    intro rest h
    obtain ⟨t, us, heq, hbegins⟩ := h.begins
    cases heq
    rw [hbegins.not_isWord (by decide)] at hword
    cases hword
  cases h with
  | ended h _ => exact absurd h halone
  | bare h _ _ => exact absurd h halone
  | branch _ _ _ _ => exact ⟨_, _, _, rfl⟩
  | branches _ _ _ _ _ => exact ⟨_, _, _, rfl⟩
  | loop h _ _ => exact absurd (hother h) (by decide)
  | print h _ _ => exact absurd (hother h) (by decide)
  | define h _ _ _ _ => exact absurd (hother h) (by decide)
  | giveBack h _ => exact absurd (hother h) (by decide)
  | giveBackValue h _ _ => exact absurd (hother h) (by decide)

/-- The tokens of a branch begin with the word `if`. -/
theorem Written.lexes_if {known known' condition body otherwise defs}
    (h : Written known (.ifElse condition body otherwise) known' defs) (depth : Nat) :
    Lexes (endLines ((Term.ifElse condition body otherwise).renderAt depth).toList) fun ts =>
      ∃ word us, ts = word :: us ∧ word.isWord "if" = true ∧ ∀ rest, NotElse rest →
        Statement known (word :: (us ++ rest)) (.ifElse condition body otherwise) known' defs rest := by
  obtain ⟨cs, htext⟩ : ∃ cs, ((Term.ifElse condition body otherwise).renderAt depth).toList =
      "if".toList ++ ' ' :: cs := by
    cases otherwise <;> exact ⟨_, by simp [Term.renderAt]; rfl⟩
  obtain ⟨ds, hds⟩ := endLines_cons (by decide : ' ' ≠ '\n') cs
  have hlexes := h.lexes depth
  rw [htext, endLines_front (by decide) (by decide), hds] at hlexes ⊢
  refine (hlexes.first_word (isLexeme_keyword (by decide)) (.cons (by decide))).imp ?_
  rintro _ ⟨hstatement, word, us, rfl, hkind, hword⟩
  exact ⟨word, us, rfl, Token.isWord_of hkind hword, hstatement⟩

/-- The word `else`, indented, with a text behind it that does not make the word longer. -/
theorem lexes_else (k : Nat) {cs : List Char} {R : List Token → Prop} (hstop : Stops cs)
    (h : ∀ other, other.isWord "else" = true → Lexes cs fun ts => R (other :: ts)) :
    Lexes (List.replicate k ' ' ++ ("else".toList ++ cs)) R := by
  refine .blanks k (.word (isLexeme_keyword (by decide)) hstop fun other hkind htext => ?_)
  exact h other (Token.isWord_of hkind htext)

/-- The nested branch follows the word on the same line. -/
theorem WrittenElse.nested {known known' condition body otherwise defs}
    (h : Written known (.ifElse condition body otherwise) known' defs) :
    WrittenElse known (.elseClause (some (.ifElse condition body otherwise)) none) known' defs := by
  intro depth
  obtain ⟨d, ds, htext, hd⟩ := h.visible depth
  have hlexes := h.lexes_if depth
  rw [htext] at hlexes
  refine ⟨(List.replicate (depth * Term.indentWidth) ' ' ++ ("else".toList ++ [' '])) ++ d :: ds, ?_, ?_⟩
  · rw [← htext]
    simp [Term.renderAt, Term.newLine, Term.indent]
  · -- the first line of the branch stands behind `else`, and its other lines are ended as before
    have hfront : ∀ c ∈ List.replicate (depth * Term.indentWidth) ' ' ++ ("else".toList ++ [' ']), Plain c := by
      simp only [List.forall_mem_append, List.forall_mem_singleton]
      exact ⟨plain_spaces _, plain_word (by decide), by decide⟩
    rw [endLines_front (not_mem_of_plain hfront) hd, List.append_assoc, List.append_assoc]
    refine lexes_else _ (.cons (by decide)) fun other helse => .blank rfl (hlexes.imp ?_)
    rintro _ ⟨word, us, rfl, hword, hstatement⟩ rest hrest
    exact ⟨other, word :: (us ++ rest), rfl, helse, .nested hword (hstatement rest hrest)⟩

theorem WrittenElse.block {known known' body defs} (h : WrittenBlock known body known' defs) :
    WrittenElse known (.elseClause none (some body)) known' defs := by
  intro depth
  obtain ⟨cs, hbody, hcs⟩ := h depth
  refine ⟨(List.replicate (depth * Term.indentWidth) ' ' ++ "else".toList) ++ ' ' :: '\x7b' :: '\n' :: cs, ?_, ?_⟩
  · simp [Term.renderAt, Term.newLine, Term.indent, hbody]
  · have hplain : ∀ c ∈ List.replicate (depth * Term.indentWidth) ' ' ++ "else".toList, Plain c := by
      rw [List.forall_mem_append]
      exact ⟨plain_spaces _, plain_word (by decide)⟩
    have hline : Lexes (List.replicate (depth * Term.indentWidth) ' ' ++ "else".toList) fun ts =>
        ∃ t, ts = [t] ∧ t.isWord "else" = true := by
      rw [← List.append_nil "else".toList]
      exact lexes_else _ (by simp [Stops]) fun other helse => .nil ⟨other, rfl, helse⟩
    refine .opening hplain hline ?_
    rintro _ opening ⟨other, rfl, helse⟩ hopening
    refine hcs.imp fun us hus rest _ => ?_
    exact ⟨other, opening :: (us ++ rest), rfl, helse, .block (hus opening rest hopening)⟩

/-! ## Definitions -/

/-- Parameters are names with commas between them, like the items of a list. -/
theorem lexes_params {params : List String} (h : ∀ p ∈ params, IsName p) :
    Lexes ((", ".intercalate params).toList ++ [')']) fun ts => ∀ rest, Params (ts ++ rest) params rest := by
  cases params with
  | nil =>
      refine .close .paren fun t ht rest => ?_
      exact .empty ht
  | cons p params =>
      have hname : ∀ q ∈ p :: params, Lexes (id q).toList fun ts =>
          ∃ t, ts = [t] ∧ t.isName = true ∧ t.text = q := by
        intro q hq
        rw [id, ← List.append_nil q.toList]
        refine .word (h q hq).word (by simp [Stops]) fun t hkind htext => .nil ?_
        rw [String.ofList_toList] at htext
        exact ⟨t, rfl, (h q hq).token hkind htext, htext⟩
      have hlist : Lexes ((", ".intercalate ((p :: params).map id)).toList ++ [')']) fun ts =>
          ∀ rest, Names (ts ++ rest) (p :: params) rest := by
        refine Lexes.list .paren ?_ ?_ p params hname
        · rintro q _ t rest ⟨name, rfl, hname, rfl⟩ ht
          exact .last hname ht
        · rintro q qs _ comma mid rest ⟨name, rfl, hname, rfl⟩ hcomma hmid
          exact .cons hname hcomma hmid
      rw [List.map_id] at hlist
      exact hlist.imp fun ts hts rest => .names (hts rest)

/-- The name is known in the body already, and the definition comes behind those in the body. -/
theorem Written.define {known known' : List String} {x : String} {params : List String} {body : Term}
    {defs : List Definition} (hx : IsName x) (hparams : ∀ p ∈ params, IsName p)
    (hb : WrittenBlock (x :: known) body known' defs) :
    Written known (.define x params body) known' (defs ++ [{ name := x, params, body }]) := by
  have htext : ∀ depth, ((Term.define x params body).renderAt depth).toList =
      ("def".toList ++ ' ' :: (x.toList ++ '(' :: ((", ".intercalate params).toList ++ [')']))) ++
        ' ' :: '\x7b' :: (body.renderAt depth).toList := by
    intro depth
    simp [Term.renderAt]
  constructor
  · intro depth
    rw [htext, List.append_assoc]
    exact visible_keyword (by decide) _
  · intro depth
    obtain ⟨cs, hbody, hcs⟩ := hb depth
    rw [htext, hbody]
    have hplain : ∀ c ∈ "def".toList ++ ' ' :: (x.toList ++ '(' :: ((", ".intercalate params).toList ++ [')'])),
        Plain c := by
      simp only [List.forall_mem_append, List.forall_mem_cons]
      exact ⟨plain_word (by decide), by decide, hx.word.plain (by decide), by decide,
        plain_list fun p hp => (hparams p hp).word.plain (by decide), by decide, by simp⟩
    have hline : Lexes ("def".toList ++ ' ' :: (x.toList ++ '(' :: ((", ".intercalate params).toList ++ [')'])))
        fun ts => ∃ word name opening us, ts = word :: name :: opening :: us ∧ word.isWord "def" = true ∧
          name.isName = true ∧ name.text = x ∧ opening.kind = .leftParen ∧
          ∀ rest, Params (us ++ rest) params rest := by
      refine .word (isLexeme_keyword (by decide)) (.cons (by decide)) fun word hword hdef => ?_
      refine .blank rfl (.word hx.word (.cons (by decide)) fun name hname hnametext => ?_)
      rw [String.ofList_toList] at hnametext
      refine .single (fun _ => rfl) fun opening hopening _ => ?_
      refine (lexes_params hparams).imp fun us hus => ?_
      exact ⟨word, name, opening, us, rfl, Token.isWord_of hword hdef, hx.token hname hnametext, hnametext,
        hopening, hus⟩
    refine .opening hplain hline ?_
    rintro _ brace ⟨word, name, opening, us, rfl, hword, hname, rfl, hopening, hus⟩ hbrace
    refine hcs.imp fun vs hvs rest _ => ?_
    have h := Statement.define hword hname hopening (hus _) (hvs brace rest hbrace)
    simpa using h

/-! ## What has been read can be read again -/

/-- Names that were read from a text can be written. -/
theorem Names.isName {ts names rest} : Names ts names rest → (∀ t ∈ ts, t.Spelled) → ∀ x ∈ names, IsName x
  | .last hname _, hs => by
      rw [List.forall_mem_singleton]
      exact .of_token hname (hs _ (by simp))
  | .cons hname _ h, hs => by
      rw [List.forall_mem_cons]
      exact ⟨.of_token hname (hs _ (by simp)), h.isName fun t ht => hs t (by simp [ht])⟩

theorem Params.isName {ts params rest} : Params ts params rest → (∀ t ∈ ts, t.Spelled) →
    ∀ x ∈ params, IsName x
  | .empty _, _ => by simp
  | .names h, hs => h.isName hs

section Written

variable {taken : String → Prop}

mutual

/-- With semicolons, the text of a statement that has been read is the statement, also where other names are
functions. -/
theorem Statement.written {known₀ ts n known₁ defs rest known} (hknown : ∀ x ∈ known, taken x)
    (hdefs : ∀ d ∈ defs, taken d.name) :
    Statement known₀ ts n known₁ defs rest → (∀ t ∈ ts, t.Spelled) → Rereadable taken n →
    ∃ known', (∀ x ∈ known', taken x) ∧ Written known n known' defs
  | .ended h _, hs, hr => ⟨known, hknown, .of_readable (h.readable hknown hs hr)⟩
  | .bare h _ _, hs, hr => ⟨known, hknown, .of_readable (h.readable hknown hs hr)⟩
  | .branch _ hc h _, hs, hr => by
      have hs' := (Before.cons _ _).spelled hs
      have hcondition := hc.readable hknown hs' (hr.part (by simp [Term.parts]))
      obtain ⟨known', hknown', hbody⟩ :=
        h.written hknown hdefs (hc.before.spelled hs') (hr.part (by simp [Term.parts]))
      exact ⟨known', hknown', .branch hcondition hbody⟩
  | .branches _ hc h _ h', hs, hr => by
      rw [List.forall_mem_append] at hdefs
      have hs' := (Before.cons _ _).spelled hs
      have hcondition := hc.readable hknown hs' (hr.part (by simp [Term.parts]))
      obtain ⟨known₁, hknown₁, hbody⟩ :=
        h.written hknown hdefs.1 (hc.before.spelled hs') (hr.part (by simp [Term.parts]))
      obtain ⟨known₂, hknown₂, hotherwise⟩ :=
        h'.written hknown₁ hdefs.2 (((hc.before.trans h.before).trans (.cons _ _)).spelled hs')
          (hr.part (by simp [Term.parts]))
      exact ⟨known₂, hknown₂, .branches hcondition hbody hotherwise⟩
  | .loop _ hc h, hs, hr => by
      have hs' := (Before.cons _ _).spelled hs
      have hcondition := hc.readable hknown hs' (hr.part (by simp [Term.parts]))
      obtain ⟨known', hknown', hbody⟩ :=
        h.written hknown hdefs (hc.before.spelled hs') (hr.part (by simp [Term.parts]))
      exact ⟨known', hknown', .loop hcondition hbody⟩
  | .print _ h _, hs, hr =>
      ⟨known, hknown,
        .print (h.readable hknown ((Before.cons _ _).spelled hs) (hr.part (by simp [Term.parts])))⟩
  | .define _ hname _ hp h, hs, hr => by
      rw [List.forall_mem_append, List.forall_mem_singleton] at hdefs
      have hs' := ((Before.cons _ _).trans ((Before.cons _ _).trans (Before.cons _ _))).spelled hs
      -- in the body the function is known already
      have hself := List.forall_mem_cons.mpr ⟨hdefs.2, hknown⟩
      obtain ⟨known', hknown', hbody⟩ :=
        h.written hself hdefs.1 (hp.before.spelled hs') (hr.part (by simp [Term.parts]))
      exact ⟨known', hknown', .define (.of_token hname (hs _ (by simp))) (hp.isName hs') hbody⟩
  | .giveBack _ _, _, _ => ⟨known, hknown, .giveBack known⟩
  | .giveBackValue _ h _, hs, hr =>
      ⟨known, hknown,
        .giveBackValue (h.readable hknown ((Before.cons _ _).spelled hs) (hr.part (by simp [Term.parts])))⟩

theorem ElseClause.written {known₀ ts n known₁ defs rest known} (hknown : ∀ x ∈ known, taken x)
    (hdefs : ∀ d ∈ defs, taken d.name) :
    ElseClause known₀ ts n known₁ defs rest → (∀ t ∈ ts, t.Spelled) → Rereadable taken n →
    ∃ known', (∀ x ∈ known', taken x) ∧ WrittenElse known n known' defs
  | .nested hword h, hs, hr => by
      obtain ⟨known', hknown', hnested⟩ := h.written hknown hdefs hs (hr.part (by simp [Term.parts]))
      obtain ⟨condition, body, otherwise, rfl⟩ := h.eq_ifElse hword
      exact ⟨known', hknown', .nested hnested⟩
  | .block h, hs, hr => by
      obtain ⟨known', hknown', hbody⟩ := h.written hknown hdefs hs (hr.part (by simp [Term.parts]))
      exact ⟨known', hknown', .block hbody⟩

/-- Blocks are written by their statements, with what is known in front of them. -/
theorem Block.written {known₀ ts n known₁ defs rest known} (hknown : ∀ x ∈ known, taken x)
    (hdefs : ∀ d ∈ defs, taken d.name) :
    Block known₀ ts n known₁ defs rest → (∀ t ∈ ts, t.Spelled) → Rereadable taken n →
    ∃ known', (∀ x ∈ known', taken x) ∧ WrittenBlock known n known' defs
  | .braces _ h, hs, hr => by
      have hinside := hr.part (List.mem_singleton.mpr rfl)
      obtain ⟨known', hknown', hstatements⟩ :=
        h.written hknown hdefs ((Before.cons _ _).spelled hs) fun n hn => hinside.part hn
      exact ⟨known', hknown', .braces hstatements⟩

/-- From the first statement to the last one, with what each of them learns. All these names are taken. -/
theorem Statements.written {known₀ ts ns known₁ defs rest known} (hknown : ∀ x ∈ known, taken x)
    (hdefs : ∀ d ∈ defs, taken d.name) :
    Statements known₀ ts ns known₁ defs rest → (∀ t ∈ ts, t.Spelled) → (∀ n ∈ ns, Rereadable taken n) →
    ∃ known', (∀ x ∈ known', taken x) ∧ WrittenStatements known ns known' defs
  | .last h _, hs, hr => by
      rw [List.forall_mem_singleton] at hr
      obtain ⟨known', hknown', hlast⟩ := h.written hknown hdefs hs hr
      exact ⟨known', hknown', .last hlast⟩
  | .cons h h', hs, hr => by
      rw [List.forall_mem_cons] at hr
      rw [List.forall_mem_append] at hdefs
      obtain ⟨known₁, hknown₁, hfirst⟩ := h.written hknown hdefs.1 hs hr.1
      obtain ⟨known₂, hknown₂, hmore⟩ := h'.written hknown₁ hdefs.2 (h.before.spelled hs) hr.2
      exact ⟨known₂, hknown₂, .cons hfirst hmore⟩

end

end Written

/-! ## Reading a text -/

/-- A text that is a statement is a program of this one statement. -/
theorem Written.next {known known' : List String} {n : Term} {defs : List Definition}
    (h : Written known n known' defs) : ∃ tokens u v, lex (withSemicolons n.render) = .ok tokens ∧
      Parse.next (.ofTokens tokens known) = (.ok (some n), u) ∧ Parse.next u = (.ok none, v) := by
  obtain ⟨ts, hts, hstatement⟩ := h.lexes 0 .start
  have hprogram := hstatement [] (by simp [NotElse])
  rw [List.append_nil] at hprogram
  have hlex : lex (withSemicolons n.render) =
      .ok (ts ++ [.finish (Position.start.advance (endLines n.render.toList))]) := by
    rw [lex, Scanner.ofString, withSemicolons, String.toList_ofList]
    exact hts
  exact ⟨_, _, _, hlex, next_of_statement hprogram _, next_end rfl rfl⟩

/-- **Reading undoes writing.** A statement that has been read somewhere in a text is written down, with a
semicolon behind every line that ends with no brace. Reading this text gives the statement and nothing else, where
the functions in `known` are known: if numbers are written as literals of their value, neither these functions nor
those defined inside the statement are used as variables or arrays, and all operators have a meaning. -/
theorem next_withSemicolons_render {source : String} {tokens : List Token} {known : List String}
    {before after : Parse.State} {n : Term} (hlex : lex source = .ok tokens)
    (hbefore : before.tokens ++ [before.last] <:+ tokens)
    (hnext : Parse.next before = (.ok (some n), after))
    (hn : Rereadable (fun x => x ∈ known ∨ ∃ d, Term.Defines d n ∧ d.name = x) n) :
    ∃ tokens' u v, lex (withSemicolons n.render) = .ok tokens' ∧
      Parse.next (.ofTokens tokens' known) = (.ok (some n), u) ∧ Parse.next u = (.ok none, v) := by
  have hspelled : ∀ t ∈ before.tokens, t.Spelled := by
    intro t ht
    exact spelled_of_tokens _ _ hlex t (hbefore.subset (List.mem_append_left _ ht))
  obtain ⟨_, defs, _, hstatement, -⟩ := next_eq_some hnext
  -- while it is read again, what is known comes from `known` or from a definition inside
  obtain ⟨known', -, hwritten⟩ := hstatement.written (fun x hx => .inl hx)
    (fun d hd => .inr ⟨d, hstatement.mem_definitions_iff.mp hd, rfl⟩) hspelled hn
  exact hwritten.next

/-- A loop that calls the function `f` while `x` is small. -/
theorem next_withSemicolons_render_loop :
    let n : Term := .whileLoop (.binary .lt (.var "x") (.number 2.5))
      (.braced (.block [.call "f" [.var "x"]]))
    ∃ tokens u v, lex (withSemicolons n.render) = .ok tokens ∧
      Parse.next (.ofTokens tokens ["f"]) = (.ok (some n), u) ∧ Parse.next u = (.ok none, v) := by
  intro n
  let body : List Token := [⟨.operator, "\x7b", ⟨1, 12⟩⟩, ⟨.identifier, "f", ⟨1, 13⟩⟩,
    ⟨.leftParen, "(", ⟨1, 14⟩⟩, ⟨.identifier, "x", ⟨1, 15⟩⟩, ⟨.rightParen, ")", ⟨1, 16⟩⟩,
    ⟨.semicolon, ";", ⟨1, 17⟩⟩, ⟨.operator, "\x7d", ⟨1, 18⟩⟩]
  let less : List Token := ⟨.operator, "<", ⟨1, 8⟩⟩ :: ⟨.number, "2.5", ⟨1, 9⟩⟩ :: body
  let ts : List Token := ⟨.identifier, "while", ⟨1, 1⟩⟩ :: ⟨.identifier, "x", ⟨1, 7⟩⟩ :: less
  have hlex : lex "while x<2.5\x7bf(x);\x7d" = .ok (ts ++ [.finish ⟨1, 19⟩]) := (lex_eq_tokensWithin _).trans rfl
  have htext : Number.text 2.5 = "2.5" := by decide +kernel
  have hread : Number.read? "2.5" = some 2.5 := by decide +kernel
  have hword : IsLexeme .number "2.5".toList := ⟨_, _, rfl, rfl⟩
  have hcall : Alone ["f"] body.tail (.call "f" [.var "x"]) (body.drop 5) := by
    have hargs : Arguments ["f"] .rightParen (body.drop 3) [.var "x"] (body.drop 5) :=
      .items (.last (.of_operand (.variable rfl (by decide))) rfl)
    exact Operand.alone (.call rfl rfl hargs) rfl
  have hcondition : Condition ["f"] ts.tail (.binary .lt (.var "x") (.number 2.5)) body := by
    have hless : NoOperator [factorLevel] less := by
      simp [less, NoOperator, factorLevel, Token.isOperator, Operator.symbol]
    exact .join (.of_operand (.variable rfl (by decide))) rfl hless (.of_operand _ (.number rfl hread))
  have hloop : Statement ["f"] ts n ["f"] [] [] :=
    .loop rfl hcondition (.braces rfl (.last (.ended hcall rfl) rfl))
  refine next_withSemicolons_render hlex (List.suffix_refl _) (next_of_statement hloop ⟨1, 19⟩) ?_
  generalize htaken : (fun x => x ∈ ["f"] ∨ ∃ d, Term.Defines d n ∧ d.name = x) = taken
  have hx : ¬taken "x" := by
    simp [← htaken, ← hloop.mem_definitions_iff]
  have hvar : Rereadable taken (.var "x") :=
    Rereadable.iff_parts.mpr ⟨by simp, by simpa [Term.place?] using hx, by simp, by simp [Term.parts]⟩
  have hnumber : Rereadable taken (.number 2.5) := by
    refine Rereadable.iff_parts.mpr ⟨?_, by simp [Term.place?], by simp, by simp [Term.parts]⟩
    rintro v ⟨⟩
    rw [htext]
    exact ⟨hword, hread⟩
  have hless : Rereadable taken (.binary .lt (.var "x") (.number 2.5)) :=
    .node (by simp) rfl (by simp) (by simpa [Term.parts] using ⟨hvar, hnumber⟩)
  have hblock : Rereadable taken (.block [.call "f" [.var "x"]]) := by
    refine .node (by simp) rfl (by simp) ?_
    simpa [Term.parts] using Rereadable.node (by simp) rfl (by simp) (by simpa [Term.parts] using hvar)
  have hbody : Rereadable taken (.braced (.block [.call "f" [.var "x"]])) :=
    .node (by simp) rfl (by simp) (by simpa [Term.parts] using hblock)
  exact .node (by simp [n]) rfl (by simp [n]) (by simpa [n, Term.parts] using ⟨hless, hbody⟩)

end Grammar
end Abacus
