import Abacus.Proofs.Number.Unsigned
import Abacus.Proofs.Parse.Calls
import Abacus.Proofs.Term.Shape
import Abacus.Proofs.Token.LongestMatch

/-!
# `Grammar.TreeShape` — the parser builds well-formed trees

Two things are shown along the grammar. The tree of a phrase is put together well, whatever the tokens; operators
without a meaning can get into it in one rule only, that for conditions. And every word in the tree is the word of a
token: a name, a number or the symbol of an operator. So what is true of the words of a text is true of the words in
its trees.

## Contents
- `ReadFrom` — words that were read from tokens;
- `Expression.worded`, `Statement.built`, `Statement.onSpines` — the trees of phrases;
- `Token.Lexed`, `IsIdentifier`, `FromText` — words of a text and of its trees;
- `trees_wellFormed` — what the parser builds.
-/

namespace Abacus

open Parse (State levels factorLevel joinsFactors openBrace)
open Term (Everywhere everywhere_iff Shaped OnSpines Within)

/-! ## Words -/

/-- The words right in a term are those of tokens. -/
def Term.ReadFrom (tokens : List Token) : Term → Prop
  | .number value => ∃ t ∈ tokens, t.kind = .number ∧ Number.read? t.text = some value
  | .binary op _ _ => op ∈ Operator.meaningful ∨ ∃ t ∈ tokens, joinsFactors t = true ∧ op = .ofText t.text
  | n => ∀ x ∈ n.names, ∃ t ∈ tokens, t.isName = true ∧ t.text = x

/-- The words right in a term are those of tokens, and its operator has a meaning. -/
def Term.Worded (tokens : List Token) (n : Term) : Prop := n.ReadFrom tokens ∧ n.HasMeaning

/-- The parts of a term fit, and the words right in it are those of tokens. -/
def Term.Built (tokens : List Token) (n : Term) : Prop := n.Shaped ∧ n.ReadFrom tokens

namespace Grammar

/-- What is left of some tokens is among those they are among. -/
theorem Before.subset {ts rest tokens : List Token} (h : Before ts rest) (hsub : ts ⊆ tokens) : rest ⊆ tokens :=
  fun _ ht => hsub (h.suffix.subset ht)

section Words

variable {tokens : List Token}

/-- The name of a token. -/
theorem readFrom_name {t : Token} {ts : List Token} (hsub : t :: ts ⊆ tokens) (hname : t.isName = true) :
    ∀ x ∈ [t.text], ∃ t ∈ tokens, t.isName = true ∧ t.text = x := by
  intro x hx
  exact ⟨t, hsub (List.mem_cons_self ..), hname, (List.mem_singleton.mp hx).symm⟩

mutual

/-- The words of an expression are those of tokens, and all its operators have a meaning. -/
theorem Expression.worded {known ts n rest} (hsub : ts ⊆ tokens) :
    Expression known ts n rest → n.Everywhere (Term.Worded tokens)
  | .operation h => h.worded hsub (List.suffix_refl _)
  | .assign h _ h' => by
      have htarget := h.worded hsub (List.suffix_refl _)
      have hvalue := h'.worded ((h.before.trans (.cons _ _)).subset hsub)
      exact everywhere_iff.mpr ⟨htarget.here, by simpa [Term.parts] using hvalue⟩
  | .store h _ h' => by
      have htarget := h.worded hsub (List.suffix_refl _)
      have hvalue := h'.worded ((h.before.trans (.cons _ _)).subset hsub)
      have hindex := htarget.part (List.mem_singleton_self _)
      exact everywhere_iff.mpr ⟨htarget.here, by simpa [Term.parts] using ⟨hindex, hvalue⟩⟩

theorem Operation.worded {known L ts n rest} (hsub : ts ⊆ tokens) (hL : L <:+ levels) :
    Operation known L ts n rest → n.Everywhere (Term.Worded tokens)
  | .operand h => h.worded hsub
  | .tighter h => h.worded hsub ((List.suffix_cons _ _).trans hL)
  | .binary h _ hop h' => by
      have hmeaning := mem_meaningful hL (List.mem_cons_self ..) hop
      have hleft := h.worded hsub hL
      have hright := h'.worded ((h.before.trans (.cons _ _)).subset hsub) ((List.suffix_cons _ _).trans hL)
      exact everywhere_iff.mpr ⟨⟨.inl hmeaning, hmeaning⟩, by simpa [Term.parts] using ⟨hleft, hright⟩⟩

/-- Names, numbers and operators come from the tokens; one case for each rule. -/
theorem Operand.worded {known ts n rest} (hsub : ts ⊆ tokens) :
    Operand known ts n rest → n.Everywhere (Term.Worded tokens)
  | .number hkind hread =>
      everywhere_iff.mpr ⟨⟨⟨_, hsub (List.mem_cons_self ..), hkind, hread⟩, trivial⟩, by simp [Term.parts]⟩
  | .boolean _ => everywhere_iff.mpr ⟨⟨by simp [Term.ReadFrom, Term.names], trivial⟩, by simp [Term.parts]⟩
  | .call hname _ h => by
      have hargs := h.worded (((Before.cons _ _).trans (.cons _ _)).subset hsub)
      exact everywhere_iff.mpr ⟨⟨readFrom_name hsub hname, trivial⟩, hargs⟩
  | .lookup hname _ _ h _ => by
      have hindex := h.worded (((Before.cons _ _).trans (.cons _ _)).subset hsub)
      exact everywhere_iff.mpr ⟨⟨readFrom_name hsub hname, trivial⟩, by simpa [Term.parts] using hindex⟩
  | .variable hname _ => everywhere_iff.mpr ⟨⟨readFrom_name hsub hname, trivial⟩, by simp [Term.parts]⟩
  | .function hname _ _ => everywhere_iff.mpr ⟨⟨readFrom_name hsub hname, trivial⟩, by simp [Term.parts]⟩
  | .group _ h _ => h.worded ((Before.cons _ _).subset hsub)
  | .array _ h => by
      have helements := h.worded ((Before.cons _ _).subset hsub)
      exact everywhere_iff.mpr ⟨⟨by simp [Term.ReadFrom, Term.names], trivial⟩, helements⟩

theorem Arguments.worded {known closing ts args rest} (hsub : ts ⊆ tokens) :
    Arguments known closing ts args rest → ∀ n ∈ args, n.Everywhere (Term.Worded tokens)
  | .empty _ => by simp
  | .items h => h.worded hsub

theorem Items.worded {known closing ts args rest} (hsub : ts ⊆ tokens) :
    Items known closing ts args rest → ∀ n ∈ args, n.Everywhere (Term.Worded tokens)
  | .last h _ => by simpa using h.worded hsub
  | .cons h _ h' => by simpa using ⟨h.worded hsub, h'.worded ((h.before.trans (.cons _ _)).subset hsub)⟩

end

/-- Factors are operations of the tightest level. -/
theorem factorLevel_suffix : [factorLevel] <:+ levels := ⟨levels.dropLast, rfl⟩

/-- An operator of a condition may have no meaning, and is the word of a token then. -/
theorem Condition.readFrom {known ts n rest} (hsub : ts ⊆ tokens) :
    Condition known ts n rest → n.Everywhere (Term.ReadFrom tokens)
  | .factor h => (h.worded hsub factorLevel_suffix).imp fun _ ht => ht.1
  | .join h hjoins _ h' => by
      have hleft := h.readFrom hsub
      have hright := h'.worded ((h.before.trans (.cons _ _)).subset hsub) factorLevel_suffix
      have hop := h.before.subset hsub (List.mem_cons_self ..)
      refine everywhere_iff.mpr ⟨.inr ⟨_, hop, hjoins, rfl⟩, ?_⟩
      simpa [Term.parts] using ⟨hleft, hright.imp fun _ ht => ht.1⟩

/-- All operators of an expression have a meaning. -/
theorem Expression.hasMeaning {known ts n rest} (h : Expression known ts n rest) : n.Everywhere Term.HasMeaning :=
  (h.worded (List.Subset.refl _)).imp fun _ ht => ht.2

/-- A factor has the operators of its level and no others. -/
theorem Operation.hasMeaning {known ts n rest} (h : Operation known [factorLevel] ts n rest) :
    n.Everywhere Term.HasMeaning :=
  (h.worded (List.Subset.refl _) factorLevel_suffix).imp fun _ ht => ht.2

/-- In a condition, only the operators of its left spine may have no meaning. -/
theorem Condition.onSpines {known ts n rest} : Condition known ts n rest → OnSpines true n
  | .factor h => .of_meaning h.hasMeaning
  | .join h _ _ h' => h.onSpines.binary (.of_meaning h'.hasMeaning)

theorem Alone.worded {known ts n rest} (hsub : ts ⊆ tokens) :
    Alone known ts n rest → n.Everywhere (Term.Worded tokens)
  | .array hopen h => (Operand.array hopen h).worded hsub
  | .expression _ h _ => h.worded hsub

/-- Parameters are names among the tokens. -/
theorem Names.readFrom {ts names rest} (hsub : ts ⊆ tokens) :
    Names ts names rest → ∀ x ∈ names, ∃ t ∈ tokens, t.isName = true ∧ t.text = x
  | .last hname _ => readFrom_name hsub hname
  | .cons hname _ h => by
      have hmore := h.readFrom (((Before.cons _ _).trans (.cons _ _)).subset hsub)
      exact List.forall_mem_cons.mpr ⟨⟨_, hsub (List.mem_cons_self ..), hname, rfl⟩, hmore⟩

theorem Params.readFrom {ts params rest} (hsub : ts ⊆ tokens) :
    Params ts params rest → ∀ x ∈ params, ∃ t ∈ tokens, t.isName = true ∧ t.text = x
  | .empty _ => by simp
  | .names h => h.readFrom hsub

/-! ## Statements -/

theorem Expression.built {known ts n rest} (hsub : ts ⊆ tokens) (h : Expression known ts n rest) :
    n.Everywhere (Term.Built tokens) :=
  h.isExpression.shaped.and ((h.worded hsub).imp fun _ ht => ht.1)

theorem Condition.built {known ts n rest} (hsub : ts ⊆ tokens) (h : Condition known ts n rest) :
    n.Everywhere (Term.Built tokens) :=
  h.isExpression.shaped.and (h.readFrom hsub)

theorem Alone.built {known ts n rest} (hsub : ts ⊆ tokens) (h : Alone known ts n rest) :
    n.Everywhere (Term.Built tokens) :=
  h.isExpression.shaped.and ((h.worded hsub).imp fun _ ht => ht.1)

end Words

section Kinds

variable {known known' : List String} {ts rest : List Token} {n : Term} {ns : List Term} {defs : List Definition}

theorem Block.isBraced (h : Block known ts n known' defs rest) : n.isBraced = true := by
  cases h
  rfl

theorem Block.isBlock (h : Block known ts n known' defs rest) : n.isBlock = false := by
  cases h
  rfl

theorem ElseClause.isElse (h : ElseClause known ts n known' defs rest) : n.isElse = true := by
  cases h with
  | nested | block => rfl

theorem ElseClause.isBlock (h : ElseClause known ts n known' defs rest) : n.isBlock = false := by
  cases h with
  | nested | block => rfl

theorem Statement.isBlock (h : Statement known ts n known' defs rest) : n.isBlock = false := by
  cases h with
  | ended h _ => exact h.isExpression.isBlock
  | bare h _ _ => exact h.isExpression.isBlock
  | _ => rfl

theorem Statements.ne_nil (h : Statements known ts ns known' defs rest) : ns ≠ [] := by
  cases h with
  | last | cons => exact List.cons_ne_nil _ _

end Kinds

/-- No statement begins with two words. -/
theorem Token.isWord_unique {t : Token} {word word' : String} (h : t.isWord word = true)
    (h' : t.isWord word' = true) : word = word' :=
  (Token.isWord_text h).symm.trans (Token.isWord_text h')

/-- An expression does not begin with `if`. -/
theorem Alone.not_if {known word ts n rest} (h : Alone known (word :: ts) n rest)
    (hword : word.isWord "if" = true) : False := by
  obtain ⟨t, us, heq, hbegins⟩ := h.begins
  cases heq
  rw [hbegins.not_isWord (by decide)] at hword
  cases hword

/-- What begins with `if` is a branch. -/
theorem Statement.isIf {known word ts n known' defs rest} (hword : word.isWord "if" = true) :
    Statement known (word :: ts) n known' defs rest → n.isIf = true
  | .ended h _ => (h.not_if hword).elim
  | .bare h _ _ => (h.not_if hword).elim
  | .branch _ _ _ _ => rfl
  | .branches _ _ _ _ _ => rfl
  | .loop h _ _ => absurd (Token.isWord_unique hword h) (by decide)
  | .print h _ _ => absurd (Token.isWord_unique hword h) (by decide)
  | .define h _ _ _ _ => absurd (Token.isWord_unique hword h) (by decide)
  | .giveBack h _ => absurd (Token.isWord_unique hword h) (by decide)
  | .giveBackValue h _ _ => absurd (Token.isWord_unique hword h) (by decide)

section Statements

variable {tokens : List Token}

/-- A term without words of its own, and without blocks as parts. -/
theorem everywhere_built {n : Term} (hnames : n.ReadFrom tokens) (hblock : ∀ p ∈ n.parts, p.isBlock = false)
    (hfit : n.PartsFit) (hparts : ∀ p ∈ n.parts, p.Everywhere (Term.Built tokens)) :
    n.Everywhere (Term.Built tokens) :=
  everywhere_iff.mpr ⟨⟨.of_parts hblock hfit, hnames⟩, hparts⟩

mutual

/-- **A statement is put together well**, and its words are those of tokens. -/
theorem Statement.built {known ts n known' defs rest} (hsub : ts ⊆ tokens) :
    Statement known ts n known' defs rest → n.Everywhere (Term.Built tokens)
  | .ended h _ => h.built hsub
  | .bare h _ _ => h.built hsub
  | .branch _ hc h _ => by
      have hcondition := hc.built ((Before.cons _ _).subset hsub)
      have hbody := h.built (((Before.cons _ _).trans hc.before).subset hsub)
      refine everywhere_built (by simp [Term.ReadFrom, Term.names]) ?_ ⟨h.isBraced, by simp⟩ ?_
      · simpa [Term.parts] using ⟨hc.isExpression.isBlock, h.isBlock⟩
      · simpa [Term.parts] using ⟨hcondition, hbody⟩
  | .branches _ hc h _ h' => by
      have hcondition := hc.built ((Before.cons _ _).subset hsub)
      have hbody := h.built (((Before.cons _ _).trans hc.before).subset hsub)
      have hotherwise :=
        h'.built (((Before.cons _ _).trans (hc.before.trans (h.before.trans (.cons _ _)))).subset hsub)
      refine everywhere_built (by simp [Term.ReadFrom, Term.names]) ?_ ⟨h.isBraced, by simpa using h'.isElse⟩ ?_
      · simpa [Term.parts] using ⟨hc.isExpression.isBlock, h.isBlock, h'.isBlock⟩
      · simpa [Term.parts] using ⟨hcondition, hbody, hotherwise⟩
  | .loop _ hc h => by
      have hcondition := hc.built ((Before.cons _ _).subset hsub)
      have hbody := h.built (((Before.cons _ _).trans hc.before).subset hsub)
      refine everywhere_built (by simp [Term.ReadFrom, Term.names]) ?_ h.isBraced ?_
      · simpa [Term.parts] using ⟨hc.isExpression.isBlock, h.isBlock⟩
      · simpa [Term.parts] using ⟨hcondition, hbody⟩
  | .print _ h _ => by
      have hvalue := h.built ((Before.cons _ _).subset hsub)
      refine everywhere_built (by simp [Term.ReadFrom, Term.names]) ?_ trivial ?_
      · simpa [Term.parts] using h.isExpression.isBlock
      · simpa [Term.parts] using hvalue
  | .define _ hname _ hp h => by
      have hname' := (Before.cons _ _).subset hsub (List.mem_cons_self ..)
      have hsub' := ((Before.cons _ _).trans ((Before.cons _ _).trans (.cons _ _))).subset hsub
      have hnames := List.forall_mem_cons.mpr ⟨⟨_, hname', hname, rfl⟩, hp.readFrom hsub'⟩
      refine everywhere_built hnames ?_ h.isBraced ?_
      · simpa [Term.parts] using h.isBlock
      · simpa [Term.parts] using h.built (hp.before.subset hsub')
  | .giveBack _ _ =>
      everywhere_built (by simp [Term.ReadFrom, Term.names]) (by simp [Term.parts]) trivial (by simp [Term.parts])
  | .giveBackValue _ h _ => by
      have hvalue := h.built ((Before.cons _ _).subset hsub)
      refine everywhere_built (by simp [Term.ReadFrom, Term.names]) ?_ trivial ?_
      · simpa [Term.parts] using h.isExpression.isBlock
      · simpa [Term.parts] using hvalue

theorem ElseClause.built {known ts n known' defs rest} (hsub : ts ⊆ tokens) :
    ElseClause known ts n known' defs rest → n.Everywhere (Term.Built tokens)
  | .nested hword h => by
      refine everywhere_built (by simp [Term.ReadFrom, Term.names]) ?_ (.inl ⟨_, rfl, h.isIf hword, rfl⟩) ?_
      · simpa [Term.parts] using h.isBlock
      · simpa [Term.parts] using h.built hsub
  | .block h => by
      refine everywhere_built (by simp [Term.ReadFrom, Term.names]) ?_ (.inr ⟨_, rfl, rfl, h.isBraced⟩) ?_
      · simpa [Term.parts] using h.isBlock
      · simpa [Term.parts] using h.built hsub

theorem Block.built {known ts n known' defs rest} (hsub : ts ⊆ tokens) :
    Block known ts n known' defs rest → n.Everywhere (Term.Built tokens)
  | .braces _ h => by
      have hsub' := (Before.cons _ _).subset hsub
      have hinside : (Term.block _).Everywhere (Term.Built tokens) :=
        everywhere_built (by simp [Term.ReadFrom, Term.names]) (fun n hn => (h.built hsub' n hn).1) h.ne_nil
          fun n hn => (h.built hsub' n hn).2
      refine everywhere_iff.mpr ⟨⟨⟨fun _ _ _ => rfl, rfl⟩, by simp [Term.ReadFrom, Term.names]⟩, ?_⟩
      simpa [Term.parts] using hinside

/-- The statements of a block are none of them blocks, which only stand in braces. -/
theorem Statements.built {known ts ns known' defs rest} (hsub : ts ⊆ tokens) :
    Statements known ts ns known' defs rest → ∀ n ∈ ns, n.isBlock = false ∧ n.Everywhere (Term.Built tokens)
  | .last h _ => by simpa using ⟨h.isBlock, h.built hsub⟩
  | .cons h h' => List.forall_mem_cons.mpr ⟨⟨h.isBlock, h.built hsub⟩, h'.built (h.before.subset hsub)⟩

end

end Statements

theorem Alone.onSpines {known ts n rest} (h : Alone known ts n rest) : OnSpines false n :=
  .of_meaning ((h.worded (List.Subset.refl _)).imp fun _ ht => ht.2)

mutual

/-- **Operators without a meaning stand on the left spines of conditions.** No rule but that for conditions lets one
in, and that rule continues to the right. -/
theorem Statement.onSpines {known ts n known' defs rest} :
    Statement known ts n known' defs rest → OnSpines false n
  | .ended h _ => h.onSpines
  | .bare h _ _ => h.onSpines
  | .branch _ hc h _ => by
      refine .of_parts (by simp) ?_ ?_
      · simpa [Term.condition?] using hc.onSpines
      · simpa [Term.asides] using h.onSpines
  | .branches _ hc h _ h' => by
      refine .of_parts (by simp) ?_ ?_
      · simpa [Term.condition?] using hc.onSpines
      · simpa [Term.asides] using ⟨h.onSpines, h'.onSpines⟩
  | .loop _ hc h => by
      refine .of_parts (by simp) ?_ ?_
      · simpa [Term.condition?] using hc.onSpines
      · simpa [Term.asides] using h.onSpines
  | .print _ h _ => by
      refine .of_asides (by simp) rfl ?_
      simpa [Term.asides, Term.parts] using OnSpines.of_meaning h.hasMeaning
  | .define _ _ _ _ h => by
      refine .of_asides (by simp) rfl ?_
      simpa [Term.asides, Term.parts] using h.onSpines
  | .giveBack _ _ => .of_asides (by simp) rfl (by simp [Term.asides, Term.parts])
  | .giveBackValue _ h _ => by
      refine .of_asides (by simp) rfl ?_
      simpa [Term.asides, Term.parts] using OnSpines.of_meaning h.hasMeaning

theorem ElseClause.onSpines {known ts n known' defs rest} :
    ElseClause known ts n known' defs rest → OnSpines false n
  | .nested _ h => by
      refine .of_asides (by simp) rfl ?_
      simpa [Term.asides, Term.parts] using h.onSpines
  | .block h => by
      refine .of_asides (by simp) rfl ?_
      simpa [Term.asides, Term.parts] using h.onSpines

theorem Block.onSpines {known ts n known' defs rest} : Block known ts n known' defs rest → OnSpines false n
  | .braces _ h => by
      have hinside : OnSpines false (Term.block _) := .of_asides (by simp) rfl h.onSpines
      refine .of_asides (by simp) rfl ?_
      simpa [Term.asides, Term.parts] using hinside

/-- Only conditions can have operators without a meaning, and statements contain them where they belong. -/
theorem Statements.onSpines {known ts ns known' defs rest} :
    Statements known ts ns known' defs rest → ∀ n ∈ ns, OnSpines false n
  | .last h _ => by simpa using h.onSpines
  | .cons h h' => by simpa using ⟨h.onSpines, h'.onSpines⟩

end

end Grammar

/-- The names in a term are those of tokens. -/
theorem Term.ReadFrom.names {tokens : List Token} {n : Term} (h : n.ReadFrom tokens) :
    ∀ x ∈ n.names, ∃ t ∈ tokens, t.isName = true ∧ t.text = x := by
  cases n with
  | number | binary => exact fun x hx => absurd hx List.not_mem_nil
  | _ => exact h

theorem Token.isKeyword_of_isName {t : Token} (h : t.isName = true) : isKeyword t.text = false := by
  simp only [Token.isName, Bool.and_eq_true, Bool.not_eq_true'] at h
  exact h.2

/-- The tree of a statement is well-formed. -/
theorem Grammar.Statement.wellFormed {known ts n known' defs rest} (h : Statement known ts n known' defs rest) :
    n.WellFormed := by
  have hbuilt := h.built (List.Subset.refl ts)
  refine .of_shaped h.isBlock (hbuilt.imp fun _ ht => ht.1) h.wellSorted (fun t ht x hx => ?_) h.onSpines
  obtain ⟨word, -, hname, rfl⟩ := (hbuilt t ht).2.names x hx
  exact Token.isKeyword_of_isName hname

/-! ## The words of a text -/

/-- A token with a text of its kind; a truth value is not a name. -/
structure Token.Lexed (t : Token) : Prop where
  pattern : Pattern (.token t.kind t.text.toList)
  truth : t.kind = .boolean ↔ t.text.toList ∈ truthWords

/-- Wherever a text stands, each of its tokens has a text of its kind, up to the last one. -/
theorem lexed_of_tokens (pos : Position) (cs : List Char) {ts : List Token} (h : Scanner.tokens ⟨pos, cs⟩ = .ok ts) :
    ∀ t ∈ ts, t.kind = .finish ∨ t.Lexed := by
  have hlexeme : ∀ {pos c cs kind text}, isBlank c = false → Lexeme.first c cs = .token kind text →
      Token.Lexed ⟨kind, .ofList text, pos⟩ := by
    intro pos c cs kind text hc hfirst
    have hlongest := Lexeme.first_longest hc cs
    rw [hfirst] at hlongest
    cases hlongest with
    | taken hpattern _ _ htruth =>
        exact ⟨by rwa [String.toList_ofList], by rw [String.toList_ofList]; exact htruth _ _ rfl⟩
  obtain ⟨us, rfl, hus⟩ := forall_of_tokens hlexeme pos cs h
  intro t ht
  rcases List.mem_append.mp ht with ht | ht
  · exact .inr (hus t ht)
  · rw [List.mem_singleton.mp ht]
    exact .inl rfl

/-- A word that begins with a letter or an underscore and goes on with these and digits, and is not a truth value. -/
def IsIdentifier (x : String) : Prop :=
  ∃ c cs, x.toList = c :: cs ∧ isNameStart c = true ∧ (∀ d ∈ cs, isNameRest d = true) ∧ x ≠ "true" ∧ x ≠ "false"

/-- A word that was scanned is spelled like a name. -/
theorem Token.Lexed.isIdentifier {t : Token} (h : t.Lexed) (hkind : t.kind = .identifier) : IsIdentifier t.text := by
  obtain ⟨hpattern, htruth⟩ := h
  have hnot : t.text.toList ∉ truthWords := fun hmem => by
    rw [htruth.mpr hmem] at hkind
    cases hkind
  rw [hkind] at hpattern
  generalize htext : t.text.toList = text at hpattern
  cases hpattern with
  | symbol hmem =>
      have hall : ∀ entry ∈ symbols, entry.2 ≠ .identifier := by decide
      exact absurd rfl (hall _ hmem)
  | name hc hcs =>
      refine ⟨_, _, htext, hc, hcs, fun heq => hnot ?_, fun heq => hnot ?_⟩
      · rw [heq]
        decide
      · rw [heq]
        decide

/-- A number begins with a digit. -/
theorem Token.Lexed.digit {t : Token} (h : t.Lexed) (hkind : t.kind = .number) :
    ∃ c cs, t.text.toList = c :: cs ∧ c.isDigit = true := by
  obtain ⟨hpattern, -⟩ := h
  rw [hkind] at hpattern
  generalize htext : t.text.toList = text at hpattern
  have hdigits : ∃ ds es, Digits ds ∧ text = ds ++ es := by
    cases hpattern with
    | symbol hmem =>
        have hall : ∀ entry ∈ symbols, entry.2 ≠ .number := by decide
        exact absurd rfl (hall _ hmem)
    | whole hds => exact ⟨_, [], hds, (List.append_nil _).symm⟩
    | decimal hds hes => exact ⟨_, _, hds, rfl⟩
  obtain ⟨ds, es, ⟨hne, hall⟩, rfl⟩ := hdigits
  obtain ⟨c, cs, rfl⟩ := List.exists_cons_of_ne_nil hne
  exact ⟨c, cs ++ es, rfl, hall c (List.mem_cons_self ..)⟩

/-- Of the symbols that join factors, the closing brace alone has no meaning. -/
theorem Token.Lexed.operator {t : Token} (h : t.Lexed) (hjoins : joinsFactors t = true) :
    Operator.ofText t.text ∈ .unknown '\x7d' :: Operator.meaningful := by
  obtain ⟨hpattern, -⟩ := h
  simp only [joinsFactors, Token.is, Token.isOperator, Bool.and_eq_true, decide_eq_true_eq, Bool.not_eq_true',
    Bool.and_eq_false_imp] at hjoins
  obtain ⟨hkind, hbrace⟩ := hjoins
  have hbrace := hbrace hkind
  rw [hkind] at hpattern
  generalize htext : t.text.toList = text at hpattern
  cases hpattern with
  | symbol hmem =>
      have hall : ∀ entry ∈ symbols, entry.2 = .operator → String.ofList entry.1 ≠ openBrace →
          Operator.ofText (.ofList entry.1) ∈ .unknown '\x7d' :: Operator.meaningful := by
        decide +kernel
      have hword : t.text = .ofList text := by rw [← htext, String.ofList_toList]
      rw [hword] at hbrace ⊢
      exact hall _ hmem rfl (by simpa using hbrace)

/-- What is true of a tree whose words are those of a text. -/
structure Term.FromText (n : Term) : Prop where
  /-- The closing brace alone is taken for an operator without having a meaning. -/
  unknown : ∀ c left right, Within (.binary (.unknown c) left right) n → c = '\x7d'
  numbers : ∀ x, Within (.number x) n → 0 ≤ x ∧ x.isNaN = false
  names : ∀ t, Within t n → ∀ x ∈ t.names, IsIdentifier x

/-- What comes from the tokens of a text comes from the text. -/
theorem Term.FromText.of_readFrom {tokens : List Token} {n : Term} (h : n.Everywhere (Term.ReadFrom tokens))
    (hlexed : ∀ t ∈ tokens, t.kind = .finish ∨ t.Lexed) : n.FromText := by
  have hkind : ∀ {t kind}, t ∈ tokens → t.kind = kind → kind ≠ .finish → t.Lexed := by
    rintro t kind ht rfl hne
    exact (hlexed t ht).resolve_left hne
  refine ⟨fun c left right ht => ?_, fun x ht => ?_, fun t ht x hx => ?_⟩
  · rcases h _ ht with hmeaning | ⟨t, ht, hjoins, hop⟩
    · simp [Operator.meaningful] at hmeaning
    · have hoperator : t.kind = .operator := by
        simp only [joinsFactors, Token.is, Bool.and_eq_true, decide_eq_true_eq] at hjoins
        exact hjoins.1
      have hmem := (hkind ht hoperator (by decide)).operator hjoins
      rw [← hop] at hmem
      simpa [Operator.meaningful] using hmem
  · obtain ⟨t, ht, hnumber, hread⟩ := h _ ht
    obtain ⟨c, cs, htext, hc⟩ := (hkind ht hnumber (by decide)).digit hnumber
    exact Number.zero_le_of_read? htext hc hread
  · obtain ⟨t, ht, hname, rfl⟩ := (h t ht).names x hx
    have hidentifier := Grammar.Token.isName_kind hname
    exact (hkind ht hidentifier (by decide)).isIdentifier hidentifier

/-! ## The parser -/

namespace Parse

/-- The tokens that calls leave to a new parser are among those it was given. -/
theorem State.mem_of_afterCalls {tokens : List Token} {known : List String} {calls : List Call} {t : Token}
    (h : t ∈ ((State.ofTokens tokens known).afterCalls calls).tokens) : t.kind = .finish ∨ t ∈ tokens := by
  obtain ⟨front, hfront, -⟩ := (reaches_kept (.ofTokens tokens known)).afterCalls calls (reaches_refl _)
  have hahead : t ∈ (State.ofTokens tokens known).ahead := by
    rw [hfront, State.ahead]
    exact List.mem_append_right _ (List.mem_append_left _ h)
  rcases ahead_ofTokens tokens known with ⟨-, hall⟩ | ⟨-, pos, hall⟩
  · rw [hall] at hahead
    exact .inr hahead
  · rw [hall] at hahead
    rcases List.mem_append.mp hahead with ht | ht
    · exact .inr ht
    · rw [List.mem_singleton.mp ht]
      exact .inl rfl

/-- **Every tree the parser builds is well-formed.** Whatever the tokens and the known functions, a statement that is
read is well-formed, so that an operator without a meaning stands on the left spine of a condition or nowhere. What is
read as an expression, as it stands between parentheses and brackets, and what is read as a factor of a condition are
expressions without such operators. If the tokens are those of a text, the closing brace is the only operator without a
meaning, numbers are not negative and not undefined, and names are identifiers. -/
theorem trees_wellFormed :
    (∀ s n u, next s = (.ok (some n), u) → n.WellFormed) ∧
    (∀ s n u, expression s = (.ok n, u) ∨ factor s = (.ok n, u) →
      n.IsExpression ∧ ∀ c left right, ¬Within (.binary (.unknown c) left right) n) ∧
    ∀ source tokens known calls n u, lex source = .ok tokens →
      next ((State.ofTokens tokens known).afterCalls calls) = (.ok (some n), u) → n.FromText := by
  refine ⟨fun s n u h => ?_, fun s n u h => ?_, fun source tokens known calls n u hlex h => ?_⟩
  · obtain ⟨known, defs, rest, hstatement, -⟩ := next_eq_some h
    exact hstatement.wellFormed
  · have hread : n.IsExpression ∧ n.Everywhere Term.HasMeaning := by
      rcases h with h | h
      · obtain ⟨rest, -, hexpression, -⟩ := Grammar.expression_eq_ok_iff.mp h
        exact ⟨hexpression.isExpression, hexpression.hasMeaning⟩
      · obtain ⟨rest, -, hfactor, -⟩ := Grammar.factor_reads h
        exact ⟨hfactor.isExpression, hfactor.hasMeaning⟩
    exact ⟨hread.1, fun _ _ _ => hread.2.not_unknown⟩
  · obtain ⟨known', defs, rest, hstatement, -⟩ := next_eq_some h
    have hlexed := lexed_of_tokens .start source.toList hlex
    refine .of_readFrom ((hstatement.built (List.Subset.refl _)).imp fun _ ht => ht.2) fun t ht => ?_
    rcases State.mem_of_afterCalls ht with hend | ht
    · exact .inl hend
    · exact hlexed t ht

/-- `if a } true { b }`: the closing brace stands between the two factors of the condition, where it is taken for an
operator. -/
theorem trees_wellFormed_closing_brace :
    let source := "if a \x7d true \x7b b \x7d"
    let tree : Term :=
      .ifElse (.binary (.unknown '\x7d') (.var "a") (.boolean true)) (.braced (.block [.var "b"])) none
    (∃ tokens u, lex source = .ok tokens ∧ next (State.ofTokens tokens []) = (.ok (some tree), u)) ∧
      tree.WellFormed ∧ tree.FromText ∧ (Term.var "a").IsExpression := by
  intro source tree
  let tokens : List Token :=
    [⟨.identifier, "if", ⟨1, 1⟩⟩, ⟨.identifier, "a", ⟨1, 4⟩⟩, ⟨.operator, "\x7d", ⟨1, 6⟩⟩, ⟨.boolean, "true", ⟨1, 8⟩⟩,
      ⟨.operator, "\x7b", ⟨1, 13⟩⟩, ⟨.identifier, "b", ⟨1, 15⟩⟩, ⟨.operator, "\x7d", ⟨1, 17⟩⟩, .finish ⟨1, 18⟩]
  have hlex : lex source = .ok tokens := by
    rw [lex_eq_tokensWithin]
    subst source tokens
    rfl
  have hnext : next (State.ofTokens tokens []) =
      (.ok (some tree), (State.ofTokens tokens []).checked.behind [] [] []) := by
    subst tokens tree
    rfl
  have hfactor : factor (State.ofTokens tokens []).next = (.ok (.var "a"), (State.ofTokens tokens []).next.next) := by
    subst tokens
    rfl
  obtain ⟨hstatements, hexpressions, htexts⟩ := trees_wellFormed
  exact ⟨⟨tokens, _, hlex, hnext⟩, hstatements _ _ _ hnext, htexts _ _ _ [] _ _ hlex hnext,
    (hexpressions _ _ _ (.inr hfactor)).1⟩

end Parse
end Abacus
