import Abacus.Proofs.Grammar.Expression
import Abacus.Proofs.Parse.Rules

/-!
# `Grammar.ExpressionReading` — the rules for expressions accept the grammar of expressions

**Soundness**: what a rule accepts is a phrase, and the phrase ends where the rule stopped. The proof follows
the rules; a failure inside a rule needs no attention.

**Completeness**: a phrase that ends is accepted whole. The proof follows the derivation. A left-recursive level
is read by a loop, so the induction says that reading the phrase so far leads *into* the loop, with the tree
so far on its left (`Operation.resume`).

Together they are `expression_eq_ok_iff`, which is then said of cursors into the tokens.
-/

namespace Abacus
namespace Grammar

open Parse

variable {α : Type}

/-! ## Operators and their tokens -/

/-- Every operator of a level has a meaning. -/
theorem mem_meaningful {L : List (List Operator)} (hL : L <:+ levels) {level : List Operator}
    (hlevel : level ∈ L) {op : Operator} (hop : op ∈ level) : op ∈ Operator.meaningful := by
  have hall : ∀ level ∈ levels, ∀ op ∈ level, op ∈ Operator.meaningful := by decide
  exact hall level (hL.subset hlevel) op hop

/-- No operator stands on two levels. -/
theorem not_mem_tighter {level : List Operator} {tighter : List (List Operator)}
    (hL : level :: tighter <:+ levels) {op : Operator} (hop : op ∈ level) :
    ∀ level' ∈ tighter, op ∉ level' := by
  have hall : levels.Pairwise (fun a b => ∀ op ∈ a, op ∉ b) := by decide
  intro level' hlevel'
  exact (List.rel_of_pairwise_cons (hall.sublist hL.sublist) hlevel') op hop

/-- Two operators that have a meaning are written differently. -/
theorem symbol_injective {a b : Operator} (ha : a ∈ Operator.meaningful)
    (hb : b ∈ Operator.meaningful) (h : a.symbol = b.symbol) : a = b := by
  have hread := Operator.ofSymbol?_symbol ha
  rw [h, Operator.ofSymbol?_symbol hb] at hread
  exact (Option.some.inj hread).symm

theorem operatorOf?_eq_some {t : Token} {op : Operator} :
    operatorOf? t = some op ↔ t.isOperator op.symbol = true ∧ op ∈ Operator.meaningful := by
  unfold operatorOf? Token.isOperator
  constructor
  · intro h
    split at h
    · next hkind =>
      have hsym := List.find?_some h
      simp only [decide_eq_true_eq] at hsym
      exact ⟨by simp [hkind, hsym], List.mem_of_find?_eq_some h⟩
    · cases h
  · rintro ⟨h, hop⟩
    simp only [Bool.and_eq_true, decide_eq_true_eq] at h
    rw [if_pos h.1, h.2]
    exact Operator.ofSymbol?_symbol hop

/-- A loop goes on at the operators of its level. -/
theorem filter_operatorOf?_eq_some {t : Token} {level : List Operator} {op : Operator} :
    (operatorOf? t).filter level.contains = some op ↔
      (t.isOperator op.symbol = true ∧ op ∈ Operator.meaningful) ∧ op ∈ level := by
  rw [Option.filter_eq_some_iff, operatorOf?_eq_some, List.contains_iff_mem]

/-- A loop stops at every other token. -/
theorem filter_operatorOf?_eq_none {t : Token} {level : List Operator} :
    (operatorOf? t).filter level.contains = none ↔
      ∀ op ∈ level, op ∈ Operator.meaningful → t.isOperator op.symbol = false := by
  rw [Option.eq_none_iff_forall_ne_some]
  constructor
  · intro h op hop hmean
    rw [Bool.eq_false_iff]
    intro ht
    exact h op (filter_operatorOf?_eq_some.mpr ⟨⟨ht, hmean⟩, hop⟩)
  · intro h op hop
    obtain ⟨⟨ht, hmean⟩, hmem⟩ := filter_operatorOf?_eq_some.mp hop
    rw [h op hmem hmean] at ht
    cases ht

theorem NoOperator.cons {level : List Operator} {tighter : List (List Operator)} {rest : List Token}
    (h : ∀ t ∈ rest.head?, ∀ op ∈ level, t.isOperator op.symbol = false)
    (h' : NoOperator tighter rest) : NoOperator (level :: tighter) rest := by
  intro t ht level' hlevel' op hop
  rcases List.mem_cons.mp hlevel' with rfl | hmem
  · exact h t ht op hop
  · exact h' t ht level' hmem op hop

theorem NoOperator.tail {L : List (List Operator)} {rest : List Token} (h : NoOperator L rest) :
    NoOperator L.tail rest :=
  fun t ht level hlevel => h t ht level (List.mem_of_mem_tail hlevel)

/-! ## The rules, run on a state -/

section Running

variable (p : Parse Term) (s : State)

theorem number_apply : number s = match Number.read? s.current.text with
    | some value => (.ok (.number value), s.next)
    | none => (.error (.ofToken s.current), s) := by
  unfold number
  rw [look_bind]
  cases Number.read? s.current.text <;> rfl

/-- The current token decides what an operand is. -/
theorem operand_apply : operand p s = match s.current.kind with
    | .number => number s
    | .boolean => (.ok (.boolean (s.current.text = "true")), s.next)
    | .identifier => named p s
    | .leftParen => (do let inner ← p; let _ ← expect (Token.is .rightParen); return inner) s.next
    | .leftBracket => array p s
    | _ => (.error (.ofToken s.current), s) := by
  unfold operand
  rw [look_bind]
  cases s.current.kind <;> rfl

theorem chainStep_apply (level : List Operator) (more : Term → Parse Term) (left : Term) :
    chainStep level p more left s = match (operatorOf? s.current).filter level.contains with
      | some op => (do let right ← p; more (.binary op left right)) s.next
      | none => (.ok left, s) := by
  unfold chainStep
  rw [look_bind]
  cases (operatorOf? s.current).filter level.contains <;> rfl

/-- The next token decides whether something is assigned. -/
theorem assignTo_apply (target : Term) : assignTo p target s =
    if s.current.is .assignment then
      match target with
      | .var name => (do return Term.assign name (← p)) s.next
      | .lookup name index => (do return Term.store name index (← p)) s.next
      | _ => (.error (.ofToken s.current), s)
    else (.ok target, s) := by
  unfold assignTo
  rw [look_bind]
  split
  · cases target <;> rfl
  · rfl

end Running

/-! ## Soundness -/

/-- What `p` accepts is a phrase of the given kind, and only tokens are used up. -/
def Reads (p : Parse α) (R : List String → List Token → α → List Token → Prop) : Prop :=
  ∀ ⦃s u : State⦄ ⦃a : α⦄, p s = (.ok a, u) →
    ∃ rest, u = s.withTokens rest ∧ R s.known s.tokens a rest

namespace Reads

variable {item : Parse α} {I : List String → List Token → α → List Token → Prop}
  {R R' : List String → List Token → List α → List Token → Prop} {closing : Token.Kind}

theorem imp {p : Parse (List α)} (h : Reads p R) (hR : ∀ {known ts xs rest}, R known ts xs rest → R' known ts xs rest) :
    Reads p R' := by
  intro s u xs hs
  obtain ⟨rest, rfl, hxs⟩ := h hs
  exact ⟨rest, rfl, hR hxs⟩

/-- Items with commas between them, whatever the items are. -/
theorem items (hitem : Reads item I) (hc : closing ≠ .finish)
    (last : ∀ {known ts x t rest}, I known ts x (t :: rest) → t.kind = closing → R known ts [x] rest)
    (cons : ∀ {known ts x comma mid xs rest}, I known ts x (comma :: mid) → comma.kind = .comma →
      R known mid xs rest → R known ts (x :: xs) rest) :
    Reads (items closing item) R := by
  intro s u xs h
  refine recurse_eq_ok (Q := fun _ s xs u =>
    ∃ rest, u = s.withTokens rest ∧ R s.known s.tokens xs rest) (fun more ih => ?_) h
  intro _ s xs u h
  obtain ⟨x, v, hx, h⟩ := bind_eq_ok.mp h
  obtain ⟨ts, rfl, hitem⟩ := hitem hx
  rcases accept_bind_eq_ok (.is _ (by decide)) h with ⟨comma, mid, hts, hcomma, h⟩ | ⟨-, h⟩
  · obtain ⟨tail, w, hmore, h⟩ := bind_eq_ok.mp h
    obtain ⟨rest, rfl, htail⟩ := ih hmore
    cases h
    rw [State.withTokens_tokens] at hts
    rw [hts] at hitem
    exact ⟨rest, rfl, cons hitem (is_iff.mp hcomma) htail⟩
  · obtain ⟨t, w, hclose, h⟩ := bind_eq_ok.mp h
    obtain ⟨ht, rest, hts, rfl⟩ := expect_eq_ok (.is _ hc) hclose
    cases h
    rw [State.withTokens_tokens] at hts
    rw [hts] at hitem
    exact ⟨rest, rfl, last hitem (is_iff.mp ht)⟩

/-- The list may be empty. -/
theorem commaList (hc : closing ≠ .finish)
    (empty : ∀ {known t rest}, t.kind = closing → R known (t :: rest) [] rest)
    (hitems : Reads (Parse.items closing item) R) : Reads (commaList closing item) R := by
  intro s u xs h
  rcases accept_bind_eq_ok (.is _ hc) h with ⟨t, rest, hts, ht, h⟩ | ⟨-, h⟩
  · cases h
    rw [hts]
    exact ⟨rest, rfl, empty (is_iff.mp ht)⟩
  · exact hitems h

end Reads

section Soundness

variable {p q : Parse Term} (hp : Reads p Expression)

section

include hp

theorem items_reads {closing : Token.Kind} (hc : closing ≠ .finish) :
    Reads (items closing p) (Items · closing) :=
  hp.items hc .last .cons

theorem commaList_reads {closing : Token.Kind} (hc : closing ≠ .finish) :
    Reads (commaList closing p) (Arguments · closing) :=
  .commaList hc .empty ((items_reads hp hc).imp .items)

theorem array_reads : Reads (array p) (fun known ts n rest =>
    Operand known ts n rest ∧ NoBracket ts rest) := by
  intro s u n h
  obtain ⟨t, v, ht, h⟩ := bind_eq_ok.mp h
  obtain ⟨hopen, ts, hts, rfl⟩ := expect_eq_ok (.is _ (by decide)) ht
  obtain ⟨elements, w, hlist, h⟩ := bind_eq_ok.mp h
  obtain ⟨rest, rfl, hargs⟩ := commaList_reads hp (by decide) hlist
  cases h
  rw [hts]
  exact ⟨rest, rfl, .array (is_iff.mp hopen) hargs,
    (hargs.noBracket (by decide)).of_suffix (List.suffix_cons _ _) hargs.before⟩

theorem named_reads : Reads (named p) (fun known ts n rest =>
    Operand known ts n rest ∧ NoBracket ts rest) := by
  intro s u n h
  obtain ⟨x, v, hx, h⟩ := bind_eq_ok.mp h
  obtain ⟨t, ts, hts, hname, rfl, rfl⟩ := name_eq_ok hx
  rw [hts]
  rcases accept_bind_eq_ok (.is _ (by decide)) h with ⟨opening, mid, hmid, hopen, h⟩ | ⟨hparen, h⟩
  · -- a call, whether the function is known or not
    obtain ⟨args, w, hlist, h⟩ := bind_eq_ok.mp h
    obtain ⟨rest, rfl, hargs⟩ := commaList_reads hp (by decide) hlist
    cases h
    rw [State.withTokens_tokens] at hmid
    subst hmid
    exact ⟨rest, rfl, .call hname (is_iff.mp hopen) hargs,
      (hargs.noBracket (by decide)).of_suffix ⟨[t, opening], rfl⟩ hargs.before⟩
  · obtain ⟨known, w, hknown, h⟩ := bind_eq_ok.mp h
    cases hknown
    split at h
    · next hmem =>
      -- a function that is not called stands in front of a semicolon
      have hmem' : t.text ∈ s.known := List.contains_iff_mem.mp hmem
      rw [look_bind] at h
      split at h
      · next hsemi =>
        cases h
        have hkind := is_iff.mp hsemi
        have hcons := State.tokens_eq_cons (s := s.withTokens ts) (by rw [hkind]; decide)
        rw [State.withTokens_tokens] at hcons
        rw [hcons]
        exact ⟨_, rfl, .function hname hmem' hkind, .of_next hkind (by decide)⟩
      · cases h
    · next hmem =>
      have hmem' : t.text ∉ s.known := fun hin => hmem (List.contains_iff_mem.mpr hin)
      rcases accept_bind_eq_ok (.is _ (by decide)) h with ⟨opening, mid, hmid, hopen, h⟩ | ⟨hbracket, h⟩
      · obtain ⟨index, w, hindex, h⟩ := bind_eq_ok.mp h
        obtain ⟨mid', rfl, hexpr⟩ := hp hindex
        obtain ⟨closing, w, hclose, h⟩ := bind_eq_ok.mp h
        obtain ⟨hc, rest, hrest, rfl⟩ := expect_eq_ok (.is _ (by decide)) hclose
        cases h
        rw [State.withTokens_tokens] at hmid hrest
        rw [hrest] at hexpr
        subst hmid
        have hbefore := (Before.cons t _).trans ((Before.cons opening _).trans hexpr.before)
        exact ⟨rest, rfl, .lookup hname hmem' (is_iff.mp hopen) hexpr (is_iff.mp hc),
          .of_last (.of_before hbefore (.of_kind (is_iff.mp hc) (by decide)))⟩
      · -- both brackets have been tried, so neither comes next
        cases h
        refine ⟨ts, rfl, .variable hname hmem', ?_⟩
        intro _ _ _ _ next hnext
        have hcurrent : (s.withTokens ts).current = next := State.current_of_mem hnext
        rw [hcurrent] at hparen hbracket
        exact ⟨is_eq_false_iff.mp hparen, is_eq_false_iff.mp hbracket⟩

theorem operand_reads : Reads (operand p) (fun known ts n rest =>
    Operand known ts n rest ∧ NoBracket ts rest) := by
  intro s u n h
  rw [operand_apply] at h
  -- a token that begins an operand is passed, so it is not the last one
  have first : ∀ {kind}, s.current.kind = kind → kind ≠ .finish →
      ∃ ts, s.tokens = s.current :: ts ∧ s.next = s.withTokens ts := by
    intro kind hkind hne
    have hts := State.tokens_eq_cons (s := s) (by rw [hkind]; exact hne)
    exact ⟨_, hts, State.next_eq hts⟩
  split at h
  · next hkind =>
    obtain ⟨ts, hts, hnext⟩ := first hkind (by decide)
    rw [number_apply, hnext] at h
    split at h
    · next value hread =>
      cases h
      rw [hts]
      exact ⟨ts, rfl, .number hkind hread, .of_last (.of_kind hkind (by decide))⟩
    · cases h
  · next hkind =>
    obtain ⟨ts, hts, hnext⟩ := first hkind (by decide)
    rw [hnext] at h
    cases h
    rw [hts]
    exact ⟨ts, rfl, .boolean hkind, .of_last (.of_kind hkind (by decide))⟩
  · exact named_reads hp h
  · next hkind =>
    obtain ⟨ts, hts, hnext⟩ := first hkind (by decide)
    rw [hnext] at h
    obtain ⟨inner, w, hinner, h⟩ := bind_eq_ok.mp h
    obtain ⟨mid, rfl, hexpr⟩ := hp hinner
    obtain ⟨closing, w, hclose, h⟩ := bind_eq_ok.mp h
    obtain ⟨hc, rest, hrest, rfl⟩ := expect_eq_ok (.is _ (by decide)) hclose
    cases h
    rw [State.withTokens_tokens] at hrest
    rw [hrest] at hexpr
    rw [hts]
    exact ⟨rest, rfl, .group hkind hexpr (is_iff.mp hc),
      .of_last (.of_before ((Before.cons _ _).trans hexpr.before) (.of_kind (is_iff.mp hc) (by decide)))⟩
  · exact array_reads hp h
  · cases h

end

/-- A loop extends the operation on its left, and stops where no operator of its level comes next. -/
theorem chainRest_reads {level : List Operator} {tighter : List (List Operator)}
    (hL : level :: tighter <:+ levels)
    (hq : Reads q (fun known ts n rest =>
      Operation known tighter ts n rest ∧ NoBracket ts rest ∧ NoOperator tighter rest))
    {left n : Term} {s u : State} (h : chainRest level q left s = (.ok n, u)) :
    ∀ ts, Operation s.known (level :: tighter) ts left s.tokens → NoBracket ts s.tokens →
      NoOperator tighter s.tokens → ∃ rest, u = s.withTokens rest ∧
        Operation s.known (level :: tighter) ts n rest ∧ NoBracket ts rest ∧
        NoOperator (level :: tighter) rest := by
  refine recurse_eq_ok (Q := fun left s n u =>
    ∀ ts, Operation s.known (level :: tighter) ts left s.tokens → NoBracket ts s.tokens →
      NoOperator tighter s.tokens → ∃ rest, u = s.withTokens rest ∧
        Operation s.known (level :: tighter) ts n rest ∧ NoBracket ts rest ∧
        NoOperator (level :: tighter) rest) (fun more ih => ?_) h
  intro left s n u h ts hleft hbracket hop
  rw [chainStep_apply] at h
  split at h
  · next op hfilter =>
    -- the tree so far becomes the left operand, and the phrase still begins at `ts`
    obtain ⟨⟨hsym, -⟩, hmem⟩ := filter_operatorOf?_eq_some.mp hfilter
    have hcons := State.tokens_eq_cons (s := s) ((WordTest.isOperator _).refuses hsym)
    rw [State.next_eq hcons] at h
    obtain ⟨right, w, hright, h⟩ := bind_eq_ok.mp h
    obtain ⟨mid, rfl, hoper, hbracket', hop'⟩ := hq hright
    rw [hcons] at hleft
    have hsuf := (hleft.before.trans (.cons _ _)).suffix
    exact ih h ts (.binary hleft hsym hmem hoper) (hbracket'.of_suffix hsuf hoper.before) hop'
  · next hfilter =>
    -- the loop stops in front of no operator of its own; the tighter ones were tried on the right
    cases h
    refine ⟨s.tokens, rfl, hleft, hbracket, .cons ?_ hop⟩
    intro t ht op hmem
    have hmean := mem_meaningful hL (List.mem_cons_self ..) hmem
    rw [← State.current_of_mem ht]
    exact filter_operatorOf?_eq_none.mp hfilter op hmem hmean

section

include hp

theorem ladder_reads {L : List (List Operator)} (hL : L <:+ levels) :
    Reads (ladder L (operand p)) (fun known ts n rest =>
      Operation known L ts n rest ∧ NoBracket ts rest ∧ NoOperator L rest) := by
  induction L with
  | nil =>
      intro s u n h
      obtain ⟨rest, rfl, hoperand, hbracket⟩ := operand_reads hp h
      exact ⟨rest, rfl, .operand hoperand, hbracket, fun _ _ _ hmem => absurd hmem (by simp)⟩
  | cons level tighter ih =>
      intro s u n h
      obtain ⟨first, v, hfirst, h⟩ := bind_eq_ok.mp h
      have htighter := ih ((List.suffix_cons _ _).trans hL)
      obtain ⟨mid, rfl, hoper, hbracket, hop⟩ := htighter hfirst
      exact chainRest_reads hL htighter h s.tokens (.tighter hoper) hbracket hop

end

theorem assignment_reads (hp : Reads p (fun known ts n rest => Expression known ts n rest ∧ Ends ts rest)) :
    Reads (assignment p) (fun known ts n rest => Expression known ts n rest ∧ Ends ts rest) := by
  have hp' : Reads p Expression := by
    intro s u n h
    obtain ⟨rest, hu, hexpr, -⟩ := hp h
    exact ⟨rest, hu, hexpr⟩
  intro s u n h
  obtain ⟨target, v, htarget, h⟩ := bind_eq_ok.mp h
  obtain ⟨mid, rfl, hoper, hbracket, hop⟩ := ladder_reads hp' (List.suffix_refl _) htarget
  rw [assignTo_apply] at h
  split at h
  · next hequals =>
    have hkind := is_iff.mp hequals
    have hcons := State.tokens_eq_cons (s := s.withTokens mid) (by rw [hkind]; decide)
    rw [State.next_eq hcons] at h
    rw [State.withTokens_tokens] at hcons
    rw [hcons] at hoper
    have hsuf := (hoper.before.trans (.cons _ _)).suffix
    -- what stands on the left decides what is assigned to
    split at h
    · next name =>
      obtain ⟨value, w, hvalue, h⟩ := bind_eq_ok.mp h
      obtain ⟨rest, rfl, hexpr, hends⟩ := hp hvalue
      cases h
      exact ⟨rest, rfl, .assign hoper hkind hexpr, hends.of_suffix hsuf hexpr.before⟩
    · next name index =>
      obtain ⟨value, w, hvalue, h⟩ := bind_eq_ok.mp h
      obtain ⟨rest, rfl, hexpr, hends⟩ := hp hvalue
      cases h
      exact ⟨rest, rfl, .store hoper hkind hexpr, hends.of_suffix hsuf hexpr.before⟩
    · cases h
  · next hequals =>
    cases h
    refine ⟨mid, rfl, .operation hoper, hop, ?_, hbracket⟩
    intro t ht hkind
    rw [State.current_of_mem (s := s.withTokens mid) ht] at hequals
    exact hequals (is_iff.mpr hkind)

/-- **Soundness.** What is read as an expression is one, and it ends where reading stopped. -/
theorem expression_reads :
    Reads expression (fun known ts n rest => Expression known ts n rest ∧ Ends ts rest) := by
  intro s u n h
  refine recurse_eq_ok (Q := fun _ s n u => ∃ rest, u = s.withTokens rest ∧
    Expression s.known s.tokens n rest ∧ Ends s.tokens rest) (fun f ih => ?_) h
  intro _ s n u h
  exact assignment_reads (p := f ()) (fun _ _ _ h => ih h) h

end Soundness

/-! ## Completeness -/

/-- Where reading an operation stands once a phrase of it has been read: behind an operand, or in the loop of
the loosest level. -/
def resume (operand : Parse Term) : List (List Operator) → Term → Parse Term
  | [], n => return n
  | level :: tighter, n => chainRest level (ladder tighter operand) n

/-- The operands of the grammar, as a rule. -/
def wholeOperand : Parse Term := operand expression

theorem ladder_wholeOperand_follows (L : List (List Operator)) (n : Nat) :
    Follows .refl anyToken 1 n (ladder L wholeOperand) (ladder L wholeOperand) :=
  ladder_follows (operand_follows expression_follows.loose) L

section Completeness

variable {s : State}

/-- The loop goes on with an operator of its level. -/
theorem chainRest_operator {level : List Operator} {tighter : List (List Operator)}
    (hL : level :: tighter <:+ levels) {symbol : Token} {op : Operator} {left : Term}
    {mid : List Token} (hsym : symbol.isOperator op.symbol = true) (hop : op ∈ level) :
    chainRest level (ladder tighter wholeOperand) left (s.withTokens (symbol :: mid)) =
      (do let right ← ladder tighter wholeOperand
          chainRest level (ladder tighter wholeOperand) (.binary op left right)) (s.withTokens mid) := by
  have hfilter : (operatorOf? symbol).filter level.contains = some op :=
    filter_operatorOf?_eq_some.mpr ⟨⟨hsym, mem_meaningful hL (List.mem_cons_self ..) hop⟩, hop⟩
  rw [chainRest_eq (ladder_wholeOperand_follows tighter), chainStep_apply, State.current_cons, hfilter]
  rfl

/-- Where no operator of the levels comes next, the operation is complete. -/
theorem resume_stops {L : List (List Operator)} {n : Term} {rest : List Token}
    (h : NoOperator L rest) :
    resume wholeOperand L n (s.withTokens rest) = (.ok n, s.withTokens rest) := by
  cases L with
  | nil => rfl
  | cons level tighter =>
      have hfilter : (operatorOf? (s.withTokens rest).current).filter level.contains = none := by
        rw [filter_operatorOf?_eq_none]
        intro op hop _
        exact (WordTest.isOperator _).current fun t ht => h t ht level (List.mem_cons_self ..) op hop
      show chainRest level (ladder tighter wholeOperand) n _ = _
      rw [chainRest_eq (ladder_wholeOperand_follows tighter), chainStep_apply, hfilter]

/-- An operator of a level is none of the tighter levels. -/
theorem noOperator_tighter {level : List Operator} {tighter : List (List Operator)}
    (hL : level :: tighter <:+ levels) {symbol : Token} {op : Operator} {mid : List Token}
    (hsym : symbol.isOperator op.symbol = true) (hop : op ∈ level) :
    NoOperator tighter (symbol :: mid) := by
  intro t ht level' hlevel' op' hop'
  cases ht
  rw [Bool.eq_false_iff]
  intro hsym'
  simp only [Token.isOperator, Bool.and_eq_true, decide_eq_true_eq] at hsym hsym'
  have hsame : op = op' := symbol_injective (mem_meaningful hL (List.mem_cons_self ..) hop)
    (mem_meaningful hL (List.mem_cons_of_mem _ hlevel') hop') (hsym.2.symm.trans hsym'.2)
  exact not_mem_tighter hL hop level' hlevel' (hsame ▸ hop')

/-- An operation that has been read into its loop, and does not go on, has been read. -/
theorem ladder_of_resume {L : List (List Operator)} {ts rest : List Token} {n : Term}
    (h : ladder L wholeOperand (s.withTokens ts) = resume wholeOperand L n (s.withTokens rest))
    (hop : NoOperator L rest) :
    ladder L wholeOperand (s.withTokens ts) = (.ok n, s.withTokens rest) :=
  h.trans (resume_stops hop)

/-- What is assigned to `target` is read behind the equals sign. -/
theorem expression_of_target {ts mid : List Token} {equals : Token} {target : Term}
    (h : ladder levels wholeOperand (s.withTokens ts) = (.ok target, s.withTokens (equals :: mid))) :
    expression (s.withTokens ts) = assignTo expression target (s.withTokens (equals :: mid)) := by
  exact (congrFun expression_eq _).trans (bind_of_ok h)

/-- What begins with a name is decided by the token behind the name. -/
theorem wholeOperand_name {t : Token} {ts : List Token} (hname : t.isName = true) :
    wholeOperand (s.withTokens (t :: ts)) = (do
      if ← accept (Token.is .leftParen) then
        return .call t.text (← commaList .rightParen expression)
      else if ← isKnown t.text then
        let next ← look
        if next.is .semicolon then
          return .var t.text
        else
          unexpected
      else if ← accept (Token.is .leftBracket) then
        let index ← expression
        let _ ← expect (Token.is .rightBracket)
        return .lookup t.text index
      else
        return .var t.text : Parse Term) (s.withTokens ts) := by
  rw [wholeOperand, operand_apply, State.current_cons, Token.isName_kind hname]
  exact bind_of_ok (name_cons hname)

/-- A list that is not empty begins with no closing bracket. -/
theorem Items.commaList_eq {known : List String} {closing : Token.Kind} {ts rest : List Token}
    {args : List Term} (h : Items known closing ts args rest)
    (hc : closing = .rightParen ∨ closing = .rightBracket) :
    commaList closing expression (s.withTokens ts) = items closing expression (s.withTokens ts) := by
  obtain ⟨t, us, rfl, hbegins⟩ := h.begins
  have hfirst : t.kind ≠ closing := by
    intro ht
    have hkind := hbegins.kind
    rw [ht] at hkind
    rcases hc with rfl | rfl <;> revert hkind <;> decide
  rw [commaList, accept_ite_no (is_eq_false_iff.mpr hfirst)]

mutual

/-- **Completeness.** An expression that does not go on is read whole. -/
theorem Expression.read {ts rest : List Token} {n : Term} :
    Expression s.known ts n rest → Ends ts rest →
    expression (s.withTokens ts) = (.ok n, s.withTokens rest)
  | .operation h, hends => by
      have hread := ladder_of_resume (h.resume (List.suffix_refl _) hends.noOperator.tail
        hends.noBracket) hends.noOperator
      have hequals : Token.is .assignment (s.withTokens rest).current = false :=
        State.is_current_eq_false hends.noAssignment (by decide)
      rw [expression_eq]
      refine (bind_of_ok hread).trans ?_
      rw [assignTo_apply, if_neg (by simp [hequals])]
  | @Expression.assign _ ts mid rest equals name value h hequals h', hends => by
      have hop : NoOperator levels (equals :: mid) := .of_kind hequals (by decide)
      have hread := ladder_of_resume (h.resume (List.suffix_refl _) hop.tail
        (.of_next hequals (by decide))) hop
      have hends' : Ends mid rest := hends.suffix (h.before.trans (.cons _ _)).suffix
      rw [expression_of_target hread, assignTo_apply, State.current_cons, if_pos (is_iff.mpr hequals)]
      exact bind_of_ok (h'.read hends')
  | @Expression.store _ ts mid rest equals name index value h hequals h', hends => by
      have hop : NoOperator levels (equals :: mid) := .of_kind hequals (by decide)
      have hread := ladder_of_resume (h.resume (List.suffix_refl _) hop.tail
        (.of_next hequals (by decide))) hop
      have hends' : Ends mid rest := hends.suffix (h.before.trans (.cons _ _)).suffix
      rw [expression_of_target hread, assignTo_apply, State.current_cons, if_pos (is_iff.mpr hequals)]
      exact bind_of_ok (h'.read hends')

/-- Reading an operation leads into the loop of its loosest level, with its tree on the left. -/
theorem Operation.resume {L : List (List Operator)} {ts rest : List Token} {n : Term} :
    Operation s.known L ts n rest → L <:+ levels → NoOperator L.tail rest → NoBracket ts rest →
    ladder L wholeOperand (s.withTokens ts) = Grammar.resume wholeOperand L n (s.withTokens rest)
  | .operand h, _, _, hbracket => h.read hbracket
  | .tighter h, hL, hop, hbracket =>
      bind_of_ok (ladder_of_resume
        (h.resume ((List.suffix_cons _ _).trans hL) hop.tail hbracket) hop)
  | @Operation.binary _ level tighter ts mid rest symbol op left right h hsym hmem h', hL, hop, hbracket => by
      -- the left operand ends in the same loop, in front of the symbol
      have hleft := h.resume hL (noOperator_tighter hL hsym hmem)
        (.of_next (Token.isOperator_kind hsym) (by decide))
      have hright := ladder_of_resume (h'.resume ((List.suffix_cons _ _).trans hL) hop.tail
        (hbracket.suffix (h.before.trans (.cons _ _)).suffix)) hop
      rw [hleft]
      show chainRest level (ladder tighter wholeOperand) left _ = _
      rw [chainRest_operator hL hsym hmem]
      exact bind_of_ok hright

theorem Operand.read {ts rest : List Token} {n : Term} :
    Operand s.known ts n rest → NoBracket ts rest →
    wholeOperand (s.withTokens ts) = (.ok n, s.withTokens rest)
  | @Operand.number _ t rest value hkind hread, _ => by
      rw [wholeOperand, operand_apply, State.current_cons, hkind]
      simp only [number_apply, State.current_cons, hread, State.next_cons]
  | @Operand.boolean _ t rest hkind, _ => by
      rw [wholeOperand, operand_apply, State.current_cons, hkind]
      rfl
  | @Operand.call _ t opening ts rest args hname hopen h, _ => by
      rw [wholeOperand_name hname, accept_ite_yes (is_iff.mpr hopen)]
      exact bind_of_ok (h.read (.inl rfl))
  | @Operand.lookup _ t opening closing ts rest index hname hknown hopen h hclose, _ => by
      have hends : Ends ts (closing :: rest) := .of_kind hclose (by decide)
      have hindex := h.read hends
      rw [wholeOperand_name hname, accept_ite_no (is_eq_false hopen (by decide)), isKnown_ite_no hknown,
        accept_ite_yes (is_iff.mpr hopen), bind_of_ok hindex, expect_bind (is_iff.mpr hclose)]
      rfl
  | @Operand.variable _ t rest hname hknown, hbracket => by
      -- the name is the last token of the phrase, so no bracket comes next
      have hnext := hbracket [] t rfl (Token.isName_kind hname)
      have hparen : Token.is .leftParen (s.withTokens rest).current = false :=
        State.is_current_eq_false (fun u hu => (hnext u hu).1) (by decide)
      have hbracket' : Token.is .leftBracket (s.withTokens rest).current = false :=
        State.is_current_eq_false (fun u hu => (hnext u hu).2) (by decide)
      rw [wholeOperand_name hname, accept_ite_current hparen, isKnown_ite_no hknown,
        accept_ite_current hbracket']
      rfl
  | @Operand.function _ t semicolon rest hname hknown hsemi, _ => by
      rw [wholeOperand_name hname, accept_ite_no (is_eq_false hsemi (by decide)), isKnown_ite_yes hknown,
        look_ite_yes (is_iff.mpr hsemi)]
      rfl
  | @Operand.group _ opening closing ts rest n hopen h hclose, _ => by
      have hinner := h.read (.of_kind hclose (by decide))
      rw [wholeOperand, operand_apply, State.current_cons, hopen]
      show (do let inner ← expression; let _ ← expect (Token.is .rightParen); return inner) _ = _
      rw [State.next_cons, bind_of_ok hinner, expect_bind (is_iff.mpr hclose)]
      rfl
  | @Operand.array _ opening ts rest elements hopen h, _ => by
      rw [wholeOperand, operand_apply, State.current_cons, hopen]
      show (do let _ ← expect (Token.is .leftBracket)
               return Term.array (← commaList .rightBracket expression)) _ = _
      rw [expect_bind (is_iff.mpr hopen)]
      exact bind_of_ok (h.read (.inr rfl))

theorem Arguments.read {closing : Token.Kind} {ts rest : List Token} {args : List Term} :
    Arguments s.known closing ts args rest → closing = .rightParen ∨ closing = .rightBracket →
    commaList closing expression (s.withTokens ts) = (.ok args, s.withTokens rest)
  | .empty ht, _ => by
      rw [commaList, accept_ite_yes (is_iff.mpr ht)]
      rfl
  | .items h, hc => by
      have hlist := h.commaList_eq (s := s) hc
      rw [hlist]
      exact h.read hc

theorem Items.read {closing : Token.Kind} {ts rest : List Token} {args : List Term} :
    Items s.known closing ts args rest → closing = .rightParen ∨ closing = .rightBracket →
    items closing expression (s.withTokens ts) = (.ok args, s.withTokens rest)
  | @Items.last _ closing t ts rest n h ht, hc => by
      have hne : closing ≠ .finish := by rcases hc with rfl | rfl <;> decide
      have hcomma : t.kind ≠ .comma := by rw [ht]; rcases hc with rfl | rfl <;> decide
      have hends : Ends ts (t :: rest) :=
        .of_kind ht (by rcases hc with rfl | rfl <;> decide)
      rw [items_eq hne (fun n => expression_follows), itemsStep, bind_of_ok (h.read hends),
        accept_ite_no (is_eq_false_iff.mpr hcomma), expect_bind (is_iff.mpr ht)]
      rfl
  | @Items.cons _ closing comma ts mid rest n args h hcomma h', hc => by
      have hne : closing ≠ .finish := by rcases hc with rfl | rfl <;> decide
      have hends : Ends ts (comma :: mid) := .of_kind hcomma (by decide)
      rw [items_eq hne (fun n => expression_follows), itemsStep, bind_of_ok (h.read hends),
        accept_ite_yes (is_iff.mpr hcomma)]
      exact bind_of_ok (h'.read hc)

end

end Completeness

/-! ## Exactly the grammar -/

/-- An expression is read exactly where there is one that ends. -/
theorem expression_eq_ok_iff {s u : State} {n : Term} :
    expression s = (.ok n, u) ↔ ∃ rest, u = s.withTokens rest ∧
      Expression s.known s.tokens n rest ∧ Ends s.tokens rest := by
  constructor
  · intro h
    exact expression_reads h
  · rintro ⟨rest, rfl, h, hends⟩
    exact h.read hends

/-- A cursor into the tokens: the state in which the first `i` of them have been passed. -/
def cursor (s : State) (i : Nat) : State := s.withTokens (s.tokens.drop i)

/-- What is left behind a phrase is what is left at a later cursor. -/
theorem Before.exists_drop {ts rest : List Token} {i : Nat} (h : Before (ts.drop i) rest) :
    ∃ j, i < j ∧ j ≤ ts.length ∧ rest = ts.drop j := by
  obtain ⟨front, t, hts⟩ := h
  have hlen : front.length + rest.length + 1 = ts.length - i := by
    have := congrArg List.length hts
    simp only [List.length_drop, List.length_append, List.length_cons] at this
    omega
  refine ⟨i + (front.length + 1), by omega, by omega, ?_⟩
  rw [← List.drop_drop, hts, List.drop_append]
  simp

/-- **The expression parser accepts exactly the precedence-ladder grammar.** From cursor `i` it succeeds with
the tree `n` and stops at cursor `j` exactly when the tokens from `i` to `j` are a phrase of the grammar with
that tree, and the token at `j` does not make the phrase go on. Besides the cursor nothing changes. -/
theorem expression_accepts_iff_derives (s : State) (i : Nat) (n : Term) (u : State) :
    expression (cursor s i) = (.ok n, u) ↔
      ∃ j, i < j ∧ j ≤ s.tokens.length ∧ u = cursor s j ∧
        Expression s.known (s.tokens.drop i) n (s.tokens.drop j) ∧
        Ends (s.tokens.drop i) (s.tokens.drop j) := by
  rw [expression_eq_ok_iff]
  constructor
  · rintro ⟨rest, rfl, h, hends⟩
    obtain ⟨j, hij, hj, rfl⟩ := h.before.exists_drop
    exact ⟨j, hij, hj, rfl, h, hends⟩
  · rintro ⟨j, -, -, rfl, h, hends⟩
    exact ⟨s.tokens.drop j, rfl, h, hends⟩

end Grammar
end Abacus
