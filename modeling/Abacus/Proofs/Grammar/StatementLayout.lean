import Abacus.Proofs.Grammar.StatementText
import Abacus.Proofs.Grammar.TreeShape
import Abacus.Proofs.Text.Layout

/-!
# `Grammar.StatementLayout` — the texts of statements are laid out

A term that opens a block writes the opening brace, and the block inside it writes the closing one; the depth is
handed down and is nowhere counted again. That the two agree is shown along the grammar, with one form of text for each
kind of phrase: a statement is one line, or a line that opens a block and the lines up to the brace that closes it
(`LaidStatement`); what stands behind an opening brace begins on a new line and ends with the closing one
(`LaidBlock`); and what follows a closing brace begins a line with `else` and ends at the same depth (`LaidElse`). A
chain of `else if` does not get deeper, as the nested branch is a statement of the same depth whose first line is
continued.

Expressions stand on one line (`content_expression`), as long as their operators have a meaning: the others are braces.

## Contents
- `Legible`, `content_expression` — the texts of expressions;
- `LaidStatement`, `LaidBlock`, `LaidStatements`, `LaidElse` — the texts of statements, with one rule for each kind;
- `Statement.laid` — what has been read is written in these forms;
- `render_laidOut` — the text of a statement is laid out.
-/

namespace Abacus
namespace Grammar

open Parse (closeBrace State)
open Term (Everywhere Within)

/-! ## Expressions -/

/-- The names right in the term are names, and its operator has a meaning. -/
def Legible (t : Term) : Prop := (∀ x ∈ t.names, IsName x) ∧ t.HasMeaning

theorem IsName.content {x : String} (h : IsName x) : Content x.toList := by
  refine content_word h.word ?_
  rintro rfl
  exact absurd h.notKeyword (by decide)

/-- Only `else` has to begin its line, so the other keywords may stand anywhere. -/
theorem content_keyword {word : String} (hword : word ∈ keywords) (hne : word ≠ "else") : Content word.toList :=
  content_word (isLexeme_keyword hword) hne

theorem content_truthText (b : Bool) : Content (truthText b).toList := by
  cases b with
  | true => exact ⟨⟨plain_of_all (by decide), by decide⟩, _, _, rfl, by decide⟩
  | false => exact ⟨⟨plain_of_all (by decide), by decide⟩, _, _, rfl, by decide⟩

/-- No operator that is written is a brace. -/
theorem quiet_symbol {op : Operator} (h : op ∈ Operator.meaningful) : Quiet op.symbol.toList := by
  have hall : ∀ op ∈ Operator.meaningful, "else".toList ∉ words op.symbol.toList := by decide
  exact ⟨plain_symbol h, hall op h⟩

section Expressions

variable {xs ys : List Char}

theorem content_parens (h : Quiet xs) : Content ('(' :: (xs ++ [')'])) :=
  .cons (by decide) (by decide) (h.join (by decide) .nil)

/-- Something in brackets behind a name. -/
theorem content_behind {opening closing : Char} (hopening : isNameRest opening = false ∧ Plain opening)
    (hclosing : isNameRest closing = false ∧ Plain closing) (hx : Content xs) (hy : Quiet ys) :
    Content (xs ++ opening :: (ys ++ [closing])) :=
  hx.join hopening (hy.join hclosing .nil)

theorem quiet_assignment (hx : Quiet xs) (hy : Quiet ys) : Quiet (xs ++ ' ' :: '=' :: ' ' :: ys) :=
  hx.join (by decide) (.cons (by decide) (.cons (by decide) hy))

/-- The arguments of a call stay on the line of the call. -/
theorem quiet_arguments {depth : Nat} {args : List Term} (h : ∀ n ∈ args, Content (n.renderAt depth).toList) :
    Quiet (", ".intercalate (Term.renderEach depth args)).toList := by
  rw [Readable.renderEach_eq_map]
  refine .list fun text htext => ?_
  obtain ⟨n, hn, rfl⟩ := List.mem_map.mp htext
  exact (h n hn).toQuiet

end Expressions

/-- **An expression stands on one line**, without braces and without the word `else`. -/
theorem content_expression {n : Term} (hexpression : n.IsExpression) (hn : n.Everywhere Legible) (depth : Nat) :
    Content (n.renderAt depth).toList := by
  induction n using Term.induction_parts with
  | h n ih =>
      have hpart : ∀ p ∈ n.parts, Content (p.renderAt depth).toList :=
        fun p hp => ih p hp (hexpression.part hp) (hn.part hp)
      obtain ⟨hnames, hmeaning⟩ := hn.here
      cases n with
      | number v =>
          rw [Term.renderAt]
          exact Number.content_text v
      | boolean b => exact content_truthText b
      | var x => exact (hnames x (by simp [Term.names])).content
      | assign x value =>
          have hx := (hnames x (by simp [Term.names])).content
          have hvalue := hpart value (by simp [Term.parts])
          have htext : ((Term.assign x value).renderAt depth).toList =
              '(' :: ((x.toList ++ ' ' :: '=' :: ' ' :: (value.renderAt depth).toList) ++ [')']) := by
            simp [Term.renderAt]
          rw [htext]
          exact content_parens (quiet_assignment hx.toQuiet hvalue.toQuiet)
      | binary op left right =>
          have hleft := hpart left (by simp [Term.parts])
          have hright := hpart right (by simp [Term.parts])
          have htext : ((Term.binary op left right).renderAt depth).toList =
              '(' :: (((left.renderAt depth).toList ++ ' ' :: (op.symbol.toList ++
                ' ' :: (right.renderAt depth).toList)) ++ [')']) := by
            simp [Term.renderAt]
          rw [htext]
          have hrest : Quiet (op.symbol.toList ++ ' ' :: (right.renderAt depth).toList) :=
            (quiet_symbol hmeaning).join (by decide) hright.toQuiet
          exact content_parens (hleft.toQuiet.join (by decide) hrest)
      | call x args =>
          have htext : ((Term.call x args).renderAt depth).toList =
              x.toList ++ '(' :: ((", ".intercalate (Term.renderEach depth args)).toList ++ [')']) := by
            simp [Term.renderAt]
          rw [htext]
          exact content_behind (by decide) (by decide) (hnames x (by simp [Term.names])).content (quiet_arguments hpart)
      | array elements =>
          have htext : ((Term.array elements).renderAt depth).toList =
              '[' :: ((", ".intercalate (Term.renderEach depth elements)).toList ++ [']']) := by
            simp [Term.renderAt]
          rw [htext]
          exact .cons (by decide) (by decide) ((quiet_arguments hpart).join (by decide) .nil)
      | lookup x index =>
          have hindex := hpart index (by simp [Term.parts])
          have htext : ((Term.lookup x index).renderAt depth).toList =
              x.toList ++ '[' :: ((index.renderAt depth).toList ++ [']']) := by
            simp [Term.renderAt]
          rw [htext]
          exact content_behind (by decide) (by decide) (hnames x (by simp [Term.names])).content hindex.toQuiet
      | store x index value =>
          have hindex := hpart index (by simp [Term.parts])
          have hvalue := hpart value (by simp [Term.parts])
          have hplace : Content (x.toList ++ '[' :: ((index.renderAt depth).toList ++ [']'])) :=
            content_behind (by decide) (by decide) (hnames x (by simp [Term.names])).content hindex.toQuiet
          have htext : ((Term.store x index value).renderAt depth).toList =
              '(' :: (((x.toList ++ '[' :: ((index.renderAt depth).toList ++ [']'])) ++
                ' ' :: '=' :: ' ' :: (value.renderAt depth).toList) ++ [')']) := by
            simp [Term.renderAt]
          rw [htext]
          exact content_parens (quiet_assignment hplace.toQuiet hvalue.toQuiet)
      | _ => cases hexpression _ .refl

/-! ## Forms of texts -/

/-- At any depth the statement stands on one line, or its first line opens a block and its last line closes one. -/
def LaidStatement (n : Term) : Prop := ∀ depth, Content (n.renderAt depth).toList ∨
  ∃ head more, (n.renderAt depth).toList = head ++ ' ' :: '\x7b' :: '\n' :: more ∧ Content head ∧
    Lays (depth + 1) false more depth false

/-- At any depth the term is what stands behind an opening brace. It begins on a new line. -/
def LaidBlock (n : Term) : Prop := ∀ depth, ∃ more, (n.renderAt depth).toList = '\n' :: more ∧
  Lays (depth + 1) false more depth true

/-- At any depth the terms are what stands between braces. -/
def LaidStatements (ns : List Term) : Prop := ∀ depth, ∃ more,
  (Term.renderLines (depth + 1) ns ++ Term.newLine depth ++ closeBrace).toList = '\n' :: more ∧
    Lays (depth + 1) false more depth true

/-- At any depth the term is what stands behind a closing brace. It begins on a new line. -/
def LaidElse (n : Term) : Prop := ∀ depth, ∃ more, (n.renderAt depth).toList = '\n' :: more ∧
  Lays depth true more depth false

/-- A statement with spaces in front of it. -/
theorem LaidStatement.lays {n : Term} (h : LaidStatement n) (depth : Nat) :
    Lays depth false (margin depth ++ (n.renderAt depth).toList) depth false := by
  rcases h depth with hcontent | ⟨head, more, htext, hhead, hmore⟩
  · exact .line (.plain hcontent)
  · have hlines : margin depth ++ (n.renderAt depth).toList =
        (margin depth ++ (head ++ [' ', '\x7b'])) ++ '\n' :: more := by
      rw [htext]
      simp
    rw [hlines]
    exact (Lays.line (.opening hhead)).append hmore

/-! ## Blocks -/

theorem LaidStatements.last {n : Term} (h : LaidStatement n) : LaidStatements [n] := by
  intro depth
  refine ⟨(margin (depth + 1) ++ (n.renderAt (depth + 1)).toList) ++ '\n' :: (margin depth ++ ['\x7d']), ?_, ?_⟩
  · simp [Term.renderLines, Term.newLine, Term.indent, Parse.closeBrace, margin]
  · exact (h.lays (depth + 1)).append (.line .closing)

/-- The lines of the first statement, then those of the others, all at one depth. -/
theorem LaidStatements.cons {n : Term} {ns : List Term} (h : LaidStatement n) (h' : LaidStatements ns) :
    LaidStatements (n :: ns) := by
  intro depth
  obtain ⟨more, htext, hmore⟩ := h' depth
  refine ⟨(margin (depth + 1) ++ (n.renderAt (depth + 1)).toList) ++ '\n' :: more, ?_, ?_⟩
  · rw [← htext]
    simp [Term.renderLines, Term.newLine, Term.indent, margin]
  · exact (h.lays (depth + 1)).append hmore

/-- The statements are one step deeper than the brace that closes the block. -/
theorem LaidBlock.braces {ns : List Term} (h : LaidStatements ns) : LaidBlock (.braced (.block ns)) := by
  intro depth
  obtain ⟨more, htext, hmore⟩ := h depth
  refine ⟨more, ?_, hmore⟩
  rw [← htext]
  rfl

/-! ## Statements -/

section Statements

variable {n condition body otherwise : Term} {head : Nat → List Char}

/-- A statement that opens one block. -/
theorem LaidStatement.of_block
    (htext : ∀ depth, (n.renderAt depth).toList = head depth ++ ' ' :: '\x7b' :: (body.renderAt depth).toList)
    (hhead : ∀ depth, Content (head depth)) (hbody : LaidBlock body) : LaidStatement n := by
  intro depth
  obtain ⟨more, hmore, hlays⟩ := hbody depth
  refine .inr ⟨head depth, more, ?_, hhead depth, hlays.weaken⟩
  rw [htext, hmore]

/-- The head of a branch or a loop. -/
theorem content_head (word : String) (hword : word ∈ keywords) (hne : word ≠ "else") {depth : Nat}
    (h : Content (n.renderAt depth).toList) : Content (word.toList ++ ' ' :: (n.renderAt depth).toList) :=
  (content_keyword hword hne).join (by decide) h.toQuiet

variable (hcondition : ∀ depth, Content (condition.renderAt depth).toList) (hbody : LaidBlock body)

include hcondition hbody

/-- A line that opens a block, the block, and a line that closes it. -/
theorem LaidStatement.loop : LaidStatement (.whileLoop condition body) := by
  have hhead (depth : Nat) := content_head "while" (by decide) (by decide) (hcondition depth)
  refine .of_block (fun depth => ?_) hhead hbody
  simp [Term.renderAt]

theorem LaidStatement.branch : LaidStatement (.ifElse condition body none) := by
  have hhead (depth : Nat) := content_head "if" (by decide) (by decide) (hcondition depth)
  refine .of_block (fun depth => ?_) hhead hbody
  simp [Term.renderAt]

/-- The line of `else` follows that of the closing brace. -/
theorem LaidStatement.branches (hotherwise : LaidElse otherwise) :
    LaidStatement (.ifElse condition body (some otherwise)) := by
  intro depth
  obtain ⟨more, hmore, hlays⟩ := hbody depth
  obtain ⟨rest, hrest, hlays'⟩ := hotherwise depth
  have hhead := content_head "if" (by decide) (by decide) (hcondition depth)
  refine .inr ⟨_, more ++ '\n' :: rest, ?_, hhead, hlays.append hlays'⟩
  simp [Term.renderAt, hmore, hrest]

end Statements

theorem LaidElse.block {body : Term} (hbody : LaidBlock body) : LaidElse (.elseClause none (some body)) := by
  intro depth
  obtain ⟨more, hmore, hlays⟩ := hbody depth
  refine ⟨(margin depth ++ ("else ".toList ++ ([] ++ ['\x7b']))) ++ '\n' :: more, ?_, ?_⟩
  · simp [Term.renderAt, Term.newLine, Term.indent, margin, hmore]
  · exact (Lays.line (.otherwise .nil)).append hlays.weaken

/-- A nested branch continues the line of `else`, at the same depth. -/
theorem LaidElse.nested {condition body : Term} {otherwise : Option Term}
    (h : LaidStatement (.ifElse condition body otherwise)) :
    LaidElse (.elseClause (some (.ifElse condition body otherwise)) none) := by
  intro depth
  rcases h depth with hcontent | ⟨head, more, htext, hhead, hmore⟩
  · have hbrace : '\x7b' ∈ ((Term.ifElse condition body otherwise).renderAt depth).toList := by
      cases otherwise <;> simp [Term.renderAt]
    exact absurd rfl (hcontent.plain _ hbrace).2.1
  · refine ⟨(margin depth ++ ("else ".toList ++ ((head ++ [' ']) ++ ['\x7b']))) ++ '\n' :: more, ?_, ?_⟩
    · simp [Term.renderAt, Term.newLine, Term.indent, margin, htext]
    · exact (Lays.line (.otherwise (hhead.toQuiet.join (by decide) .nil))).append hmore

theorem LaidStatement.define {x : String} {params : List String} {body : Term} (hx : IsName x)
    (hparams : ∀ p ∈ params, IsName p) (hbody : LaidBlock body) : LaidStatement (.define x params body) := by
  have hlist : Quiet (", ".intercalate params).toList := .list fun p hp => (hparams p hp).content.toQuiet
  have hname : Content (x.toList ++ '(' :: ((", ".intercalate params).toList ++ [')'])) :=
    content_behind (by decide) (by decide) hx.content hlist
  have hhead : Content ("def".toList ++ ' ' :: (x.toList ++ '(' :: ((", ".intercalate params).toList ++ [')']))) :=
    (content_keyword (by decide) (by decide)).join (by decide) hname.toQuiet
  refine .of_block (fun depth => ?_) (fun _ => hhead) hbody
  simp [Term.renderAt]

/-! ## What has been read -/

/-- An expression is written on one line without any brace. -/
theorem LaidStatement.of_expression {n : Term} (hexpression : n.IsExpression) (hn : n.Everywhere Legible) :
    LaidStatement n :=
  fun depth => .inl (content_expression hexpression hn depth)

/-- A keyword with an expression behind it. -/
theorem LaidStatement.of_keyword {n value : Term} (word : String) (hword : word ∈ keywords) (hne : word ≠ "else")
    (htext : ∀ depth, (n.renderAt depth).toList = word.toList ++ ' ' :: (value.renderAt depth).toList)
    (hexpression : value.IsExpression) (hvalue : value.Everywhere Legible) : LaidStatement n := by
  intro depth
  rw [htext]
  exact .inl (content_head word hword hne (content_expression hexpression hvalue depth))

theorem LaidStatement.giveBack : LaidStatement (.giveBack none) := by
  intro depth
  have hreturn : Content "return".toList := content_keyword (by decide) (by decide)
  exact .inl hreturn

mutual

/-- **A statement that has been read is written in these forms**, if its operators have a meaning. -/
theorem Statement.laid {known ts n known' defs rest} :
    Statement known ts n known' defs rest → n.Everywhere Legible → LaidStatement n
  | .ended h _, hn => .of_expression h.isExpression hn
  | .bare h _ _, hn => .of_expression h.isExpression hn
  | .branch _ hc h _, hn => by
      have hcondition := content_expression hc.isExpression (hn.part (by simp [Term.parts]))
      exact .branch hcondition (h.laid (hn.part (by simp [Term.parts])))
  | .branches _ hc h _ h', hn => by
      have hcondition := content_expression hc.isExpression (hn.part (by simp [Term.parts]))
      exact .branches hcondition (h.laid (hn.part (by simp [Term.parts]))) (h'.laid (hn.part (by simp [Term.parts])))
  | .loop _ hc h, hn => by
      have hcondition := content_expression hc.isExpression (hn.part (by simp [Term.parts]))
      exact .loop hcondition (h.laid (hn.part (by simp [Term.parts])))
  | .print _ h _, hn =>
      .of_keyword "print" (by decide) (by decide) (fun depth => by simp [Term.renderAt]) h.isExpression
        (hn.part (by simp [Term.parts]))
  | .define _ _ _ _ h, hn => by
      obtain ⟨hx, hparams⟩ := List.forall_mem_cons.mp hn.here.1
      exact .define hx hparams (h.laid (hn.part (by simp [Term.parts])))
  | .giveBack _ _, _ => .giveBack
  | .giveBackValue _ h _, hn =>
      .of_keyword "return" (by decide) (by decide) (fun depth => by simp [Term.renderAt]) h.isExpression
        (hn.part (by simp [Term.parts]))

theorem ElseClause.laid {known ts n known' defs rest} :
    ElseClause known ts n known' defs rest → n.Everywhere Legible → LaidElse n
  | .nested hword h, hn => by
      have hnested := h.laid (hn.part (by simp [Term.parts]))
      obtain ⟨condition, body, otherwise, rfl⟩ := h.eq_ifElse hword
      exact .nested hnested
  | .block h, hn => .block (h.laid (hn.part (by simp [Term.parts])))

theorem Block.laid {known ts n known' defs rest} :
    Block known ts n known' defs rest → n.Everywhere Legible → LaidBlock n
  | .braces _ h, hn => by
      have hinside := hn.part (List.mem_singleton.mpr rfl)
      exact .braces (h.laid fun n hn => hinside.part hn)

/-- Each statement that is read has the layout of its rule. -/
theorem Statements.laid {known ts ns known' defs rest} :
    Statements known ts ns known' defs rest → (∀ n ∈ ns, n.Everywhere Legible) → LaidStatements ns
  | .last h _, hn => .last (h.laid (List.forall_mem_singleton.mp hn))
  | .cons h h', hn => by
      obtain ⟨hfirst, hmore⟩ := List.forall_mem_cons.mp hn
      exact .cons (h.laid hfirst) (h'.laid hmore)

end

/-! ## The parser -/

theorem everywhere_hasMeaning {n : Term} (h : ∀ c left right, ¬Within (.binary (.unknown c) left right) n) :
    n.Everywhere Term.HasMeaning := by
  intro t ht
  cases t with
  | binary op left right =>
      show op ∈ Operator.meaningful
      cases op with
      | unknown c => exact absurd ht (h c left right)
      | _ => decide
  | _ => trivial

/-- The words of a statement that has been read in a text. -/
theorem Statement.legible {known ts n known' defs rest} (h : Statement known ts n known' defs rest)
    (hspelled : ∀ t ∈ ts, t.Spelled) (hop : ∀ c left right, ¬Within (.binary (.unknown c) left right) n) :
    n.Everywhere Legible := by
  have hnames : n.Everywhere fun t => ∀ x ∈ t.names, IsName x := by
    intro t ht x hx
    obtain ⟨word, hword, hname, rfl⟩ := (h.built (List.Subset.refl ts) t ht).2.names x hx
    exact .of_token hname (hspelled word hword)
  exact hnames.and (everywhere_hasMeaning hop)

/-- **Rendered statements are laid out by nesting.** Let a parser, after any calls, read a statement among the tokens
of a text, and let no operator in it be without a meaning. In the text of the statement blocks are closed as often and
never before they are opened, each line is indented by four spaces for each block that is open there, less the one that
it closes, and `else` begins a line right behind the line that closes the block before it. -/
theorem render_laidOut {source : String} {tokens : List Token} {known : List String} {calls : List Parse.Call}
    {n : Term} {after : State} (hlex : lex source = .ok tokens)
    (hnext : Parse.next ((State.ofTokens tokens known).afterCalls calls) = (.ok (some n), after))
    (hop : ∀ c left right, ¬Within (.binary (.unknown c) left right) n) : LaidOut n.render.toList := by
  have hspelled : ∀ t ∈ ((State.ofTokens tokens known).afterCalls calls).tokens, t.Spelled := by
    intro t ht hkind
    rcases State.mem_of_afterCalls ht with hend | ht
    · rw [hend] at hkind
      cases hkind
    · exact spelled_of_tokens _ _ hlex t ht hkind
  obtain ⟨_, _, _, hstatement, -⟩ := next_eq_some hnext
  have hlaid := hstatement.laid (hstatement.legible hspelled hop)
  have hlays := hlaid.lays 0
  exact hlays.laidOut

/-- A chain of branches in a loop. Each `else` begins a line behind a closing brace, and no part of the chain is deeper
than another. -/
theorem render_laidOut_chain :
    let source := "while a\x7bif b\x7bc\x7delse if d\x7be\x7delse\x7bf\x7d\x7d"
    let block (x : String) : Term := .braced (.block [.var x])
    let nested : Term := .ifElse (.var "d") (block "e") (some (.elseClause none (some (block "f"))))
    let chain : Term := .ifElse (.var "b") (block "c") (some (.elseClause (some nested) none))
    let tree : Term := .whileLoop (.var "a") (.braced (.block [chain]))
    (∃ tokens after, lex source = .ok tokens ∧ Parse.next (.ofTokens tokens []) = (.ok (some tree), after)) ∧
      tree.render = "while a \x7b\n    if b \x7b\n        c\n    \x7d\n    else if d \x7b\n        e\n    \x7d\n" ++
        "    else \x7b\n        f\n    \x7d\n\x7d" ∧
      LaidOut tree.render.toList := by
  intro source block nested chain tree
  let tokens : List Token :=
    [⟨.identifier, "while", ⟨1, 1⟩⟩, ⟨.identifier, "a", ⟨1, 7⟩⟩, ⟨.operator, "\x7b", ⟨1, 8⟩⟩,
      ⟨.identifier, "if", ⟨1, 9⟩⟩, ⟨.identifier, "b", ⟨1, 12⟩⟩, ⟨.operator, "\x7b", ⟨1, 13⟩⟩,
      ⟨.identifier, "c", ⟨1, 14⟩⟩, ⟨.operator, "\x7d", ⟨1, 15⟩⟩, ⟨.identifier, "else", ⟨1, 16⟩⟩,
      ⟨.identifier, "if", ⟨1, 21⟩⟩, ⟨.identifier, "d", ⟨1, 24⟩⟩, ⟨.operator, "\x7b", ⟨1, 25⟩⟩,
      ⟨.identifier, "e", ⟨1, 26⟩⟩, ⟨.operator, "\x7d", ⟨1, 27⟩⟩, ⟨.identifier, "else", ⟨1, 28⟩⟩,
      ⟨.operator, "\x7b", ⟨1, 32⟩⟩, ⟨.identifier, "f", ⟨1, 33⟩⟩, ⟨.operator, "\x7d", ⟨1, 34⟩⟩,
      ⟨.operator, "\x7d", ⟨1, 35⟩⟩, .finish ⟨1, 36⟩]
  have hlex : lex source = .ok tokens := by
    rw [lex_eq_tokensWithin]
    subst source tokens
    rfl
  have hnext : Parse.next ((State.ofTokens tokens []).afterCalls []) =
      (.ok (some tree), (State.ofTokens tokens []).checked.behind [] [] []) := by
    subst tokens tree chain nested block
    rfl
  have hmeaning : tree.Everywhere Term.HasMeaning := by
    simp [tree, chain, nested, block, Term.everywhere_iff (n := .whileLoop _ _), Term.everywhere_iff (n := .block _),
      Term.everywhere_iff (n := .braced _), Term.everywhere_iff (n := .ifElse _ _ _),
      Term.everywhere_iff (n := .elseClause _ _), Term.everywhere_iff (n := .var _), Term.parts, Term.HasMeaning]
  refine ⟨⟨tokens, _, hlex, hnext⟩, by decide +kernel, render_laidOut hlex hnext fun c left right => ?_⟩
  exact hmeaning.not_unknown

end Grammar
end Abacus
