import Mathlib.Data.List.Chain
import Mathlib.Data.List.Infix
import Abacus.Proofs.Grammar.StatementReading

/-!
# `Grammar.Precedence` — operators in conditions and in expressions

Conditions and expressions are read by different rules. A condition takes the operators between its factors as they
come and groups to the left; an expression has a level for each kind of operator. On the same tokens both rules
succeed, and they stop at the same brace. They build the same tree exactly when **no operator binds tighter than the
one in front of it**.

The tree of an expression is described from its root: that is the last operator of the loosest level, with everything
in front of it on the left. In a condition the root is the last operator of all. If the two are different tokens, they
stand on different levels, so the trees differ at the root already, whatever the factors look like.

## Contents
- `Link`, `leftNested` — factors joined by operators;
- `Condition.join_links` — as a condition;
- `rank` — how tightly operators bind;
- `Grouped` — as an expression, one level after the other;
- `Grouped.eq_leftNested_iff` — when the levels make no difference.
-/

namespace Abacus
namespace Grammar

open Parse

/-! ## Factors joined by operators -/

/-- The operators that join factors. -/
def joiners : List Operator :=
  [.add, .sub, .lt, .gt, .le, .ge, .eq, .ne, .and, .xor, .or]

/-- How tightly an operator binds: the place of its level in the ladder, the loosest first. -/
def rank (op : Operator) : Nat := levels.findIdx (·.contains op)

example : joiners.map rank = [5, 5, 4, 4, 4, 4, 3, 3, 2, 1, 0] := by decide

/-- `ts` is used up whole when a factor is read, and gives the term `n`. -/
def FactorPhrase (s : State) (ts : List Token) (n : Term) : Prop :=
  factor (s.withTokens ts) = (.ok n, s.withTokens [])

/-- An operator and the factor behind it, each with its tokens. -/
structure Link where
  symbol : Token
  op : Operator
  phrase : List Token
  factor : Term

namespace Link

/-- The tokens of the operator and of the factor. -/
def tokens (link : Link) : List Token := link.symbol :: link.phrase

/-- The operator is one that joins factors, and the factor is read whole. -/
structure Joins (s : State) (link : Link) : Prop where
  symbol : link.symbol.isOperator link.op.symbol = true
  op : link.op ∈ joiners
  phrase : FactorPhrase s link.phrase link.factor

end Link

/-- The tree that groups to the left whatever the operators are. -/
def leftNested (first : Term) (links : List Link) : Term :=
  links.foldl (fun left link => .binary link.op left link.factor) first

theorem leftNested_append (first : Term) (links more : List Link) :
    leftNested first (links ++ more) = leftNested (leftNested first links) more :=
  List.foldl_append

/-- The last operator is the root. -/
theorem leftNested_concat (first : Term) (links : List Link) (link : Link) :
    leftNested first (links ++ [link]) = .binary link.op (leftNested first links) link.factor :=
  leftNested_append first links [link]

section Phrases

variable {s : State}

/-- A factor is read from the same tokens whatever follows. -/
theorem FactorPhrase.operation {ts : List Token} {n : Term} (h : FactorPhrase s ts n) (rest : List Token) :
    Operation s.known [factorLevel] (ts ++ rest) n rest := by
  obtain ⟨left, hleft, hoperation, -, -⟩ := factor_reads h
  have hnil : left = [] := (congrArg State.tokens hleft).symm
  subst hnil
  exact hoperation.append rest

variable {link : Link} (h : link.Joins s)

include h

theorem Link.Joins.joinsFactors : joinsFactors link.symbol = true := by
  have hall : ∀ op ∈ joiners, op.symbol ≠ openBrace := by decide
  have hsymbol := h.symbol
  simp only [Token.isOperator, Bool.and_eq_true, decide_eq_true_eq] at hsymbol
  simp [Parse.joinsFactors, Token.is, Token.isOperator, hsymbol, hall link.op h.op]

theorem Link.Joins.ofText : Operator.ofText link.symbol.text = link.op := by
  have hall : ∀ op ∈ joiners, Operator.ofText op.symbol = op := by decide +kernel
  have hsymbol := h.symbol
  simp only [Token.isOperator, Bool.and_eq_true, decide_eq_true_eq] at hsymbol
  rw [hsymbol.2]
  exact hall link.op h.op

/-- An operator that joins factors is none of those inside factors. -/
theorem Link.Joins.noOperator (rest : List Token) : NoOperator [factorLevel] (link.symbol :: rest) := by
  have hall : ∀ op ∈ joiners, ∀ other ∈ factorLevel, op.symbol ≠ other.symbol := by decide
  have hsymbol := h.symbol
  simp only [Token.isOperator, Bool.and_eq_true, decide_eq_true_eq] at hsymbol
  intro t ht level hlevel op hop
  cases ht
  rw [List.mem_singleton.mp hlevel] at hop
  simp [Token.isOperator, hsymbol, hall link.op h.op op hop]

end Phrases

/-! ## As a condition -/

/-- A condition goes on with every operator. -/
theorem Condition.join_links {s : State} {ts rest : List Token} {left : Term} {links : List Link}
    (hlinks : ∀ link ∈ links, link.Joins s)
    (h : Condition s.known ts left (links.flatMap Link.tokens ++ rest)) :
    Condition s.known ts (leftNested left links) rest := by
  induction links generalizing left with
  | nil => exact h
  | cons link links ih =>
      have hlink := hlinks link (List.mem_cons_self ..)
      simp only [List.flatMap_cons, Link.tokens, List.cons_append, List.append_assoc] at h
      have hjoin := Condition.join h hlink.joinsFactors (hlink.noOperator _) (hlink.phrase.operation _)
      rw [hlink.ofText] at hjoin
      exact ih (fun link hmem => hlinks link (List.mem_cons_of_mem _ hmem)) hjoin

/-! ## As an expression -/

/-- A tighter level has a higher rank. -/
theorem rank_lt_rank {level : List Operator} {tighter : List (List Operator)} (hL : level :: tighter <:+ levels)
    {op other : Operator} (hop : op ∈ level) (hother : ∃ level ∈ tighter, other ∈ level) :
    rank op < rank other := by
  have hall : ∀ L ∈ levels.tails, ∀ level ∈ L.head?, ∀ op ∈ level, ∀ level' ∈ L.tail, ∀ other ∈ level',
      rank op < rank other := by decide
  obtain ⟨level', hlevel', hother⟩ := hother
  exact hall _ ((List.mem_tails _ _).mpr hL) level rfl op hop level' hlevel' other hother

theorem rank_eq_rank {level : List Operator} (hlevel : level ∈ levels) {op other : Operator} (hop : op ∈ level)
    (hother : other ∈ level) : rank op = rank other := by
  have hall : ∀ level ∈ levels, ∀ op ∈ level, ∀ other ∈ level, rank op = rank other := by decide
  exact hall level hlevel op hop other hother

/-- The last element that satisfies a condition, if there is one. -/
theorem split_last {α : Type} (p : α → Prop) [DecidablePred p] (xs : List α) :
    (∀ x ∈ xs, ¬p x) ∨ ∃ pre x post, xs = pre ++ x :: post ∧ p x ∧ ∀ y ∈ post, ¬p y := by
  induction xs with
  | nil => exact .inl nofun
  | cons x xs ih =>
      rcases ih with hnone | ⟨pre, y, post, rfl, hy, hpost⟩
      · by_cases hx : p x
        · exact .inr ⟨[], x, xs, rfl, hx, hnone⟩
        · exact .inl (List.forall_mem_cons.mpr ⟨hx, hnone⟩)
      · exact .inr ⟨x :: pre, y, post, rfl, hy, hpost⟩

/-- The tree that the levels `L` give to a factor and the links behind it. -/
inductive Grouped : List (List Operator) → Term → List Link → Term → Prop where
  | factor (first : Term) : Grouped [factorLevel] first [] first
  | tighter {level : List Operator} {tighter : List (List Operator)} {first tree : Term} {links : List Link} :
      Grouped tighter first links tree → Grouped (level :: tighter) first links tree
  | split {level : List Operator} {tighter : List (List Operator)} {first left right : Term}
      {pre post : List Link} {link : Link} :
      link.op ∈ level → Grouped (level :: tighter) first pre left → Grouped tighter link.factor post right →
      Grouped (level :: tighter) first (pre ++ link :: post) (.binary link.op left right)

namespace Grouped

variable {L : List (List Operator)} {first tree : Term} {links : List Link}

/-- Every operator stands on one of the levels. -/
theorem exists_level (h : Grouped L first links tree) : ∀ link ∈ links, ∃ level ∈ L, link.op ∈ level := by
  induction h with
  | factor => nofun
  | tighter _ ih =>
      intro link hmem
      obtain ⟨level, hlevel, hop⟩ := ih link hmem
      exact ⟨level, List.mem_cons_of_mem _ hlevel, hop⟩
  | split hop _ _ ihpre ihpost =>
      intro link hmem
      rcases List.mem_append.mp hmem with hmem | hmem
      · exact ihpre link hmem
      · rcases List.mem_cons.mp hmem with rfl | hmem
        · exact ⟨_, List.mem_cons_self .., hop⟩
        · obtain ⟨level, hlevel, hop⟩ := ihpost link hmem
          exact ⟨level, List.mem_cons_of_mem _ hlevel, hop⟩

/-- The tree is one that the grammar gives to the tokens. -/
theorem operation {s : State} (h : Grouped L first links tree) (hlinks : ∀ link ∈ links, link.Joins s)
    {ts : List Token} (hfirst : ∀ rest, Operation s.known [factorLevel] (ts ++ rest) first rest)
    (rest : List Token) :
    Operation s.known L (ts ++ (links.flatMap Link.tokens ++ rest)) tree rest := by
  induction h generalizing ts rest with
  | factor => exact hfirst rest
  | tighter _ ih => exact .tighter (ih hlinks hfirst rest)
  | @split level tighter first left right pre post link hop _ _ ihpre ihpost =>
      have hlink := hlinks link (by simp)
      have hleft := ihpre (fun l hl => hlinks l (by simp [hl])) hfirst
        (link.symbol :: (link.phrase ++ (post.flatMap Link.tokens ++ rest)))
      have hright := ihpost (fun l hl => hlinks l (by simp [hl])) hlink.phrase.operation rest
      have htree := Operation.binary hleft hlink.symbol hop hright
      simpa [Link.tokens] using htree

/-- **The tree groups to the left exactly when no operator binds tighter than one in front of it.** -/
theorem eq_leftNested_iff (h : Grouped L first links tree) (hL : L <:+ levels) :
    tree = leftNested first links ↔ (links.map Link.op).Pairwise fun left right => rank right ≤ rank left := by
  induction h with
  | factor => exact ⟨fun _ => .nil, fun _ => rfl⟩
  | tighter _ ih => exact ih ((List.suffix_cons _ _).trans hL)
  | @split level tighter first left right pre post link hop hpre hpost ihpre ihpost =>
      have htighter := (List.suffix_cons level tighter).trans hL
      rcases List.eq_nil_or_concat post with rfl | ⟨post, last, rfl⟩
      · -- the root is the last operator, and none is looser
        have hright : right = link.factor := (ihpost htighter).mpr .nil
        have hloosest : ∀ other ∈ pre, rank link.op ≤ rank other.op := by
          intro other hother
          obtain ⟨level', hlevel', hop'⟩ := hpre.exists_level other hother
          rcases List.mem_cons.mp hlevel' with rfl | hmem
          · exact (rank_eq_rank (hL.subset (List.mem_cons_self ..)) hop hop').le
          · exact (rank_lt_rank hL hop ⟨level', hmem, hop'⟩).le
        rw [leftNested_concat, hright, Term.binary.injEq, ihpre hL, List.map_append, List.pairwise_append]
        simp only [true_and, and_true, List.map_cons, List.map_nil, List.pairwise_singleton,
          List.mem_singleton, List.mem_map, forall_exists_index, and_imp, forall_apply_eq_imp_iff₂, forall_eq]
        exact ⟨fun hpairs => ⟨hpairs, hloosest⟩, fun hpairs => hpairs.1⟩
      · -- a tighter operator comes behind the root, and it is the root of the other tree
        have hlast : rank link.op < rank last.op :=
          rank_lt_rank hL hop (hpost.exists_level last (by simp))
        have happend : pre ++ link :: post.concat last = (pre ++ link :: post) ++ [last] := by simp
        rw [happend, leftNested_concat]
        constructor
        · intro htree
          injection htree with hroot
          rw [hroot] at hlast
          exact absurd hlast (Nat.lt_irrefl _)
        · intro hpairs
          have hle : rank last.op ≤ rank link.op := by
            rw [List.map_append, List.pairwise_append] at hpairs
            exact hpairs.2.2 link.op (by simp) last.op (by simp)
          exact absurd hlast (Nat.not_lt.mpr hle)

end Grouped

/-- Whatever the operators are, the levels give a tree. -/
theorem exists_grouped {L : List (List Operator)} (hL : [factorLevel] <:+ L) (first : Term) (links : List Link)
    (hlinks : ∀ link ∈ links, link.op ∈ joiners ∧ ∃ level ∈ L, link.op ∈ level) :
    ∃ tree, Grouped L first links tree := by
  induction L generalizing first links with
  | nil => exact absurd (List.suffix_nil.mp hL) (by simp)
  | cons level tighter ihtighter =>
      rcases List.suffix_cons_iff.mp hL with heq | hsuf
      · -- inside a factor no operator is left
        cases heq
        have hnone : ∀ op ∈ joiners, op ∉ factorLevel := by decide
        cases links with
        | nil => exact ⟨first, .factor first⟩
        | cons link links =>
            obtain ⟨hjoins, level, hlevel, hop⟩ := hlinks link (List.mem_cons_self ..)
            rw [List.mem_singleton.mp hlevel] at hop
            exact absurd hop (hnone link.op hjoins)
      · induction hlength : links.length using Nat.strongRecOn generalizing links with
        | ind length ih =>
            have htighter : ∀ links' : List Link, (∀ link ∈ links', link ∈ links ∧ link.op ∉ level) →
                ∀ link ∈ links', link.op ∈ joiners ∧ ∃ level ∈ tighter, link.op ∈ level := by
              intro links' hsub link hmem
              obtain ⟨hmem', hnot⟩ := hsub link hmem
              obtain ⟨hjoins, level', hlevel', hop⟩ := hlinks link hmem'
              rcases List.mem_cons.mp hlevel' with rfl | hlevel'
              · exact absurd hop hnot
              · exact ⟨hjoins, level', hlevel', hop⟩
            rcases split_last (fun link : Link => link.op ∈ level) links with
              hnone | ⟨pre, link, post, rfl, hop, hpost⟩
            · obtain ⟨tree, htree⟩ := ihtighter hsuf first links (htighter links fun l hl => ⟨hl, hnone l hl⟩)
              exact ⟨tree, .tighter htree⟩
            · have hshorter : pre.length < length := by
                rw [← hlength, List.length_append, List.length_cons]
                omega
              obtain ⟨left, hleft⟩ := ih pre.length hshorter pre (fun l hl => hlinks l (by simp [hl])) rfl
              obtain ⟨right, hright⟩ := ihtighter hsuf link.factor post
                (htighter post fun l hl => ⟨by simp [hl], hpost l hl⟩)
              exact ⟨_, .split hop hleft hright⟩

/-! ## Both -/

/-- **Conditions and expressions agree exactly when precedence never tightens.** Let factors be joined by operators in
front of an opening brace. Read as a condition they give the tree that groups to the left, and read as an expression
they give a tree; both stop at the brace. The two trees are equal exactly when each operator binds no tighter than the
one in front of it. -/
theorem condition_agrees_iff_never_tightens (s : State) {first : List Token} {n : Term} {links : List Link}
    {brace : Token} (rest : List Token) (hfirst : FactorPhrase s first n)
    (hlinks : ∀ link ∈ links, link.Joins s) (hbrace : brace.isOperator openBrace = true) :
    let tokens := first ++ links.flatMap Link.tokens ++ brace :: rest
    condition (s.withTokens tokens) = (.ok (leftNested n links), s.withTokens (brace :: rest)) ∧
      ∃ tree, expression (s.withTokens tokens) = (.ok tree, s.withTokens (brace :: rest)) ∧
        (tree = leftNested n links ↔
          (links.map Link.op).IsChain fun left right => rank right ≤ rank left) := by
  intro tokens
  have htokens : tokens = first ++ (links.flatMap Link.tokens ++ brace :: rest) := List.append_assoc ..
  rw [htokens]
  constructor
  · exact ((Condition.factor (hfirst.operation _)).join_links hlinks).read hbrace
  · have hjoiners : ∀ op ∈ joiners, ∃ level ∈ levels, op ∈ level := by decide
    obtain ⟨tree, htree⟩ := exists_grouped (L := levels) (by decide) n links
      fun link hmem => ⟨(hlinks link hmem).op, hjoiners _ (hlinks link hmem).op⟩
    have hends : Ends (first ++ (links.flatMap Link.tokens ++ brace :: rest)) (brace :: rest) := by
      have hkind := Token.isOperator_kind hbrace
      refine ⟨openBrace_noOperator (List.suffix_refl _) hbrace, ?_, .of_next hkind (by decide)⟩
      intro t ht
      cases ht
      rw [hkind]
      decide
    have hoperation := htree.operation hlinks hfirst.operation (brace :: rest)
    have htrans : Trans (fun left right : Operator => rank right ≤ rank left)
        (fun left right => rank right ≤ rank left) (fun left right => rank right ≤ rank left) :=
      ⟨fun hab hbc => Nat.le_trans hbc hab⟩
    refine ⟨tree, (Expression.operation hoperation).read hends, ?_⟩
    rw [List.isChain_iff_pairwise]
    exact htree.eq_leftNested_iff (List.suffix_refl _)

/-- In `a | (a & a) & a` the second operator binds tighter, so the trees differ, although the factor in parentheses
looks like what an expression has on the right. -/
theorem condition_agrees_iff_never_tightens_parentheses :
    let s : State := ⟨[], .finish .start, [], [], true, rfl⟩
    let a : Token := ⟨.identifier, "a", .start⟩
    let brace : Token := ⟨.operator, openBrace, .start⟩
    let inside : List Token := [⟨.leftParen, "(", .start⟩, a, ⟨.operator, "&", .start⟩, a, ⟨.rightParen, ")", .start⟩]
    let tokens := [a, ⟨.operator, "|", .start⟩] ++ inside ++ [⟨.operator, "&", .start⟩, a, brace]
    let both : Term := .binary .and (.var "a") (.var "a")
    ∃ tree, condition (s.withTokens tokens) =
        (.ok (.binary .and (.binary .or (.var "a") both) (.var "a")), s.withTokens [brace]) ∧
      expression (s.withTokens tokens) = (.ok tree, s.withTokens [brace]) ∧
      tree ≠ .binary .and (.binary .or (.var "a") both) (.var "a") := by
  intro s a brace inside tokens both
  let links : List Link :=
    [⟨⟨.operator, "|", .start⟩, .or, inside, both⟩, ⟨⟨.operator, "&", .start⟩, .and, [a], .var "a"⟩]
  have hfirst : FactorPhrase s [a] (.var "a") := by
    subst s a
    rfl
  have hinside : FactorPhrase s inside both := by
    subst s inside both a
    rfl
  have hlinks : ∀ link ∈ links, link.Joins s := by
    simp only [links, List.forall_mem_cons, List.not_mem_nil, false_imp_iff, implies_true, and_true]
    exact ⟨⟨by decide, by decide, hinside⟩, ⟨by decide, by decide, hfirst⟩⟩
  have hbrace : brace.isOperator openBrace = true := by decide
  obtain ⟨hcondition, tree, hexpression, hiff⟩ :=
    condition_agrees_iff_never_tightens s [] hfirst hlinks hbrace
  refine ⟨tree, hcondition, hexpression, fun htree => ?_⟩
  have hchain := hiff.mp htree
  revert hchain
  decide

end Grammar
end Abacus
