import Abacus.Proofs.Grammar.ExpressionReading
import Abacus.Proofs.Grammar.Statement

/-!
# `Grammar.StatementReading` — the rules for statements accept the grammar of statements

As for expressions: soundness follows the rules, completeness follows the derivation. A rule for statements
changes more of the state than the tokens, so its lemmas say what it leaves behind: `State.behind`.
-/

namespace Abacus

/-- The state behind a statement: `rest` is left, the functions in `known` are known, and `defs` have been
queued. -/
def Parse.State.behind (s : State) (known : List String) (defs : List Definition) (rest : List Token) :
    State :=
  { s with tokens := rest, known, queued := s.queued ++ defs }

namespace Parse.State

variable (s : State) (known known' : List String) (defs defs' : List Definition) (rest rest' : List Token)

@[simp] theorem behind_tokens : (s.behind known defs rest).tokens = rest := rfl
@[simp] theorem behind_known : (s.behind known defs rest).known = known := rfl

/-- The definitions are queued in the order in which they are read. -/
@[simp] theorem behind_behind : (s.behind known defs rest).behind known' defs' rest' =
    s.behind known' (defs ++ defs') rest' := by
  simp [behind]

@[simp] theorem behind_withTokens :
    (s.behind known defs rest).withTokens rest' = s.behind known defs rest' := rfl

@[simp] theorem withTokens_behind :
    (s.withTokens rest).behind known defs rest' = s.behind known defs rest' := rfl

/-- Where nothing was learned or queued, only tokens were used up. -/
theorem withTokens_eq_behind : s.withTokens rest = s.behind s.known [] rest := by
  simp [behind, withTokens]

end Parse.State

namespace Grammar

open Parse

variable {α : Type}

/-! ## Soundness: heads -/

theorem name_reads : Reads name (fun _ ts x rest => ∃ t, ts = t :: rest ∧ t.isName = true ∧ x = t.text) := by
  intro s u x h
  obtain ⟨t, rest, hts, hname, hx, rfl⟩ := name_eq_ok h
  exact ⟨rest, rfl, t, hts, hname, hx⟩

/-- Names with commas between them, up to the parenthesis. -/
theorem names_reads : Reads (items .rightParen name) (fun _ => Names) := by
  refine name_reads.items (by decide) ?_ ?_
  · rintro known _ _ closing rest ⟨t, rfl, hname, rfl⟩ hclosing
    exact .last hname hclosing
  · rintro known _ _ comma ts names rest ⟨t, rfl, hname, rfl⟩ hcomma hnames
    exact .cons hname hcomma hnames

theorem params_reads : Reads (commaList .rightParen name) (fun _ => Params) :=
  .commaList (by decide) .empty (names_reads.imp .names)

/-- What an expression has read is a phrase of the grammar. -/
theorem expression_reads_phrase : Reads expression Expression := by
  intro s u n h
  obtain ⟨rest, hu, hexpr, -⟩ := expression_reads h
  exact ⟨rest, hu, hexpr⟩

/-- A factor is an operation of the tightest level. -/
theorem factor_reads : Reads factor (fun known ts n rest =>
    Operation known [factorLevel] ts n rest ∧ NoBracket ts rest ∧ NoOperator [factorLevel] rest) :=
  ladder_reads (L := [factorLevel]) expression_reads_phrase (by decide)

/-- The round of a condition on a state: either an operator joins another factor, or the round is over. -/
theorem conditionStep_apply (more : Term → Parse Term) (left : Term) (s : State) :
    conditionStep more left s =
      if joinsFactors s.current then
        (do let right ← factor; more (.binary (.ofText s.current.text) left right)) s.next
      else (.ok left, s) := by
  unfold conditionStep
  rw [look_bind]
  split <;> rfl

/-- The loop extends the condition on its left. -/
theorem conditionRest_reads {left n : Term} {s u : State} (h : conditionRest left s = (.ok n, u)) :
    ∀ ts, Condition s.known ts left s.tokens → NoOperator [factorLevel] s.tokens →
      ∃ rest, u = s.withTokens rest ∧ Condition s.known ts n rest := by
  refine recurse_eq_ok (Q := fun left s n u => ∀ ts, Condition s.known ts left s.tokens →
    NoOperator [factorLevel] s.tokens → ∃ rest, u = s.withTokens rest ∧
      Condition s.known ts n rest) (fun more ih => ?_) h
  intro left s n u h ts hleft hop
  rw [conditionStep_apply] at h
  split at h
  · next hjoins =>
    have hkind := (WordTest.is .operator (by decide)).refuses (Bool.and_eq_true_iff.mp hjoins).1
    have hcons := State.tokens_eq_cons hkind
    rw [State.next_eq hcons] at h
    obtain ⟨right, w, hright, h⟩ := bind_eq_ok.mp h
    obtain ⟨mid, rfl, hoper, -, hop'⟩ := factor_reads hright
    rw [hcons] at hleft hop
    exact ih h ts (.join hleft hjoins hop hoper) hop'
  · cases h
    exact ⟨s.tokens, rfl, hleft⟩

/-- The loop of a condition is read from the left, as its phrases are built. -/
theorem condition_reads : Reads condition Condition := by
  intro s u n h
  obtain ⟨first, v, hfirst, h⟩ := bind_eq_ok.mp h
  obtain ⟨mid, rfl, hoper, -, hop⟩ := factor_reads hfirst
  exact conditionRest_reads h s.tokens (.factor hoper) hop

/-! ## Soundness: statements -/

/-- What `p` accepts is a phrase of the given kind, and the state behind it is as the phrase says. -/
def Gathers (p : Parse α)
    (R : List String → List Token → α → List String → List Definition → List Token → Prop) : Prop :=
  ∀ ⦃s u : State⦄ ⦃a : α⦄, p s = (.ok a, u) →
    ∃ known defs rest, u = s.behind known defs rest ∧ R s.known s.tokens a known defs rest

theorem semicolon_eq_ok {s u : State} {v : Unit} (h : semicolon s = (.ok v, u)) :
    ∃ t rest, s.tokens = t :: rest ∧ t.kind = .semicolon ∧ u = s.withTokens rest := by
  obtain ⟨t, w, ht, h⟩ := bind_eq_ok.mp h
  obtain ⟨hsemi, rest, hrest, rfl⟩ := expect_eq_ok (.is _ (by decide)) ht
  cases h
  exact ⟨t, rest, hrest, is_iff.mp hsemi, rfl⟩

/-- The semicolon is there, or the next token is none. -/
theorem optionalSemicolon_eq_ok {s u : State} {v : Unit} (h : optionalSemicolon s = (.ok v, u)) :
    (∃ t rest, s.tokens = t :: rest ∧ t.kind = .semicolon ∧ u = s.withTokens rest) ∨
      (u = s ∧ ∀ t ∈ s.tokens.head?, t.kind ≠ .semicolon) := by
  rcases accept_bind_eq_ok (.is _ (by decide)) h with ⟨t, rest, hts, ht, h⟩ | ⟨hnot, h⟩
  · cases h
    exact .inl ⟨t, rest, hts, is_iff.mp ht, rfl⟩
  · cases h
    refine .inr ⟨rfl, fun t ht => ?_⟩
    rw [State.current_of_mem ht] at hnot
    exact is_eq_false_iff.mp hnot

/-- A phrase that stands alone, with a semicolon where one has to be or is, is a statement. -/
theorem Alone.gathers {s u v : State} {n : Term} {mid : List Token} {x : Unit}
    (h : Alone s.known s.tokens n mid) (hv : v = s.withTokens mid)
    (hend : (if isAssignment n then semicolon else optionalSemicolon) v = (.ok x, u)) :
    ∃ known defs rest, u = s.behind known defs rest ∧
      Statement s.known s.tokens n known defs rest := by
  subst hv
  have hended : ∀ {t rest}, mid = t :: rest → t.kind = .semicolon → u = s.withTokens rest →
      ∃ known defs rest, u = s.behind known defs rest ∧
        Statement s.known s.tokens n known defs rest := by
    rintro t rest rfl hsemi rfl
    exact ⟨_, _, rest, s.withTokens_eq_behind rest, .ended h hsemi⟩
  split at hend
  · obtain ⟨t, rest, hmid, hsemi, hu⟩ := semicolon_eq_ok hend
    exact hended hmid hsemi hu
  · next hassign =>
    rcases optionalSemicolon_eq_ok hend with ⟨t, rest, hmid, hsemi, hu⟩ | ⟨rfl, hnot⟩
    · exact hended hmid hsemi hu
    · exact ⟨_, _, mid, s.withTokens_eq_behind mid, .bare h (by simpa using hassign) hnot⟩

/-- An array is a statement with a semicolon behind it and without one. -/
theorem arrayStatement_gathers {s u : State} {n : Term} (h : arrayStatement s = (.ok n, u)) :
    ∃ known defs rest, u = s.behind known defs rest ∧
      Statement s.known s.tokens n known defs rest := by
  obtain ⟨literal, v, hliteral, h⟩ := bind_eq_ok.mp h
  obtain ⟨t, w, ht, hliteral⟩ := bind_eq_ok.mp hliteral
  obtain ⟨hopen, ts, hts, rfl⟩ := expect_eq_ok (.is _ (by decide)) ht
  obtain ⟨elements, w, hlist, hliteral⟩ := bind_eq_ok.mp hliteral
  obtain ⟨mid, rfl, hargs⟩ := commaList_reads expression_reads_phrase (by decide) hlist
  cases hliteral
  obtain ⟨x, w, hend, h⟩ := bind_eq_ok.mp h
  cases h
  have halone : Alone s.known s.tokens (.array elements) mid := by
    rw [hts]
    exact .array (is_iff.mp hopen) hargs
  exact halone.gathers rfl hend

/-- Only an assignment needs a semicolon, so an expression without one was none. -/
theorem expressionStatement_gathers {s u : State} {n : Term} (hfirst : s.current.kind ≠ .leftBracket)
    (h : expressionStatement s = (.ok n, u)) :
    ∃ known defs rest, u = s.behind known defs rest ∧
      Statement s.known s.tokens n known defs rest := by
  obtain ⟨term, v, hterm, h⟩ := bind_eq_ok.mp h
  obtain ⟨mid, rfl, hexpr, hends⟩ := expression_reads hterm
  have halone : Alone s.known s.tokens term mid := by
    obtain ⟨t, us, hts, -⟩ := hexpr.begins
    rw [State.current_eq hts] at hfirst
    rw [hts] at hexpr hends ⊢
    exact .expression hfirst hexpr hends
  -- both ways to end are the same action with the test moved inside
  have hend : ∃ x, (if isAssignment term then semicolon else optionalSemicolon) (s.withTokens mid) =
      (.ok x, u) ∧ n = term := by
    split at h
    · next hassign =>
      obtain ⟨x, w, hx, h⟩ := bind_eq_ok.mp h
      cases h
      exact ⟨x, by rw [if_pos hassign]; exact hx, rfl⟩
    · next hassign =>
      obtain ⟨x, w, hx, h⟩ := bind_eq_ok.mp h
      cases h
      exact ⟨x, by rw [if_neg hassign]; exact hx, rfl⟩
  obtain ⟨x, hend, rfl⟩ := hend
  exact halone.gathers rfl hend

/-- An expression was read up to a semicolon. -/
theorem expression_semicolon_eq_ok {s u : State} {β : Type} {f : Term → Parse β} {b : β}
    (h : (do let value ← expression; semicolon; f value) s = (.ok b, u)) :
    ∃ value t rest, Expression s.known s.tokens value (t :: rest) ∧ t.kind = .semicolon ∧
      f value (s.withTokens rest) = (.ok b, u) := by
  obtain ⟨value, v, hvalue, h⟩ := bind_eq_ok.mp h
  obtain ⟨mid, rfl, hexpr, -⟩ := expression_reads hvalue
  obtain ⟨x, w, hx, h⟩ := bind_eq_ok.mp h
  obtain ⟨t, rest, hmid, hsemi, rfl⟩ := semicolon_eq_ok hx
  rw [State.withTokens_tokens] at hmid
  rw [hmid] at hexpr
  exact ⟨value, t, rest, hexpr, hsemi, h⟩

section Words

variable {p : Parse Term} (hp : Gathers p Statement)

theorem printStatement_gathers {s u : State} {n : Term} {word : Token} {ts : List Token}
    (hts : s.tokens = word :: ts) (hword : word.isWord "print" = true)
    (h : printStatement s = (.ok n, u)) :
    ∃ known defs rest, u = s.behind known defs rest ∧
      Statement s.known s.tokens n known defs rest := by
  unfold printStatement at h
  rw [advance_bind, State.next_eq hts] at h
  obtain ⟨value, t, rest, hexpr, hsemi, h⟩ := expression_semicolon_eq_ok h
  cases h
  rw [hts]
  exact ⟨_, _, rest, s.withTokens_eq_behind rest, .print hword hexpr hsemi⟩

/-- What was returned is read if there is no semicolon at once. -/
theorem returnStatement_gathers {s u : State} {n : Term} {word : Token} {ts : List Token}
    (hts : s.tokens = word :: ts) (hword : word.isWord "return" = true)
    (h : returnStatement s = (.ok n, u)) :
    ∃ known defs rest, u = s.behind known defs rest ∧
      Statement s.known s.tokens n known defs rest := by
  unfold returnStatement at h
  rw [advance_bind, State.next_eq hts] at h
  rw [hts]
  rcases accept_bind_eq_ok (.is _ (by decide)) h with ⟨t, rest, hrest, ht, h⟩ | ⟨-, h⟩
  · cases h
    rw [State.withTokens_tokens] at hrest
    subst hrest
    exact ⟨_, _, rest, s.withTokens_eq_behind rest, .giveBack hword (is_iff.mp ht)⟩
  · obtain ⟨value, t, rest, hexpr, hsemi, h⟩ := expression_semicolon_eq_ok h
    cases h
    exact ⟨_, _, rest, s.withTokens_eq_behind rest, .giveBackValue hword hexpr hsemi⟩

include hp

/-- The statements gather one behind the other what they learn and queue, up to the brace. -/
theorem statements_gathers : Gathers (statements p) Statements := by
  intro s u ns h
  refine recurse_eq_ok (Q := fun _ s ns u => ∃ known defs rest, u = s.behind known defs rest ∧
    Statements s.known s.tokens ns known defs rest) (fun more ih => ?_) h
  intro _ s ns u h
  obtain ⟨head, v, hhead, h⟩ := bind_eq_ok.mp h
  obtain ⟨known, defs, mid, rfl, hstatement⟩ := hp hhead
  rcases accept_bind_eq_ok (.isOperator _) h with ⟨closing, rest, hrest, hclose, h⟩ | ⟨-, h⟩
  · cases h
    rw [State.behind_tokens] at hrest
    subst hrest
    exact ⟨known, defs, rest, rfl, .last hstatement hclose⟩
  · obtain ⟨tail, w, hmore, h⟩ := bind_eq_ok.mp h
    obtain ⟨known', defs', rest, rfl, htail⟩ := ih hmore
    cases h
    exact ⟨known', defs ++ defs', rest, by simp, .cons hstatement htail⟩

/-- A block gathers what its statements do. -/
theorem block_gathers : Gathers (block p) Block := by
  intro s u n h
  obtain ⟨t, v, ht, h⟩ := bind_eq_ok.mp h
  obtain ⟨hopen, ts, hts, rfl⟩ := expect_eq_ok (.isOperator _) ht
  obtain ⟨inside, w, hinside, h⟩ := bind_eq_ok.mp h
  obtain ⟨known, defs, rest, rfl, hstatements⟩ := statements_gathers hp hinside
  cases h
  rw [hts]
  exact ⟨known, defs, rest, by simp, .braces hopen hstatements⟩

theorem elseClause_gathers : Gathers (elseClause p) ElseClause := by
  intro s u n h
  unfold elseClause at h
  rw [look_bind] at h
  split at h
  · next hword =>
    obtain ⟨nested, v, hnested, h⟩ := bind_eq_ok.mp h
    obtain ⟨known, defs, rest, rfl, hstatement⟩ := hp hnested
    cases h
    have hts := State.tokens_eq_cons ((WordTest.isWord _).refuses hword)
    rw [hts] at hstatement ⊢
    exact ⟨known, defs, rest, rfl, .nested hword hstatement⟩
  · obtain ⟨body, v, hbody, h⟩ := bind_eq_ok.mp h
    obtain ⟨known, defs, rest, rfl, hblock⟩ := block_gathers hp hbody
    cases h
    exact ⟨known, defs, rest, rfl, .block hblock⟩

/-- What the block has learnt is known in the branch behind it. -/
theorem ifStatement_gathers {s u : State} {n : Term} {word : Token} {ts : List Token}
    (hts : s.tokens = word :: ts) (hword : word.isWord "if" = true)
    (h : ifStatement p s = (.ok n, u)) :
    ∃ known defs rest, u = s.behind known defs rest ∧
      Statement s.known s.tokens n known defs rest := by
  unfold ifStatement at h
  rw [advance_bind, State.next_eq hts] at h
  obtain ⟨c, v, hc, h⟩ := bind_eq_ok.mp h
  obtain ⟨mid, rfl, hcondition⟩ := condition_reads hc
  obtain ⟨body, v, hbody, h⟩ := bind_eq_ok.mp h
  obtain ⟨known, defs, rest, rfl, hblock⟩ := block_gathers hp hbody
  rw [hts]
  rcases accept_bind_eq_ok (.isWord _) h with ⟨other, mid', hmid', hother, h⟩ | ⟨hnot, h⟩
  · obtain ⟨otherwise, v, hotherwise, h⟩ := bind_eq_ok.mp h
    obtain ⟨known', defs', rest', rfl, helse⟩ := elseClause_gathers hp hotherwise
    cases h
    rw [State.behind_tokens] at hmid'
    subst hmid'
    exact ⟨known', defs ++ defs', rest', by simp, .branches hword hcondition hblock hother helse⟩
  · -- no `else` comes next, which the grammar asks for too
    cases h
    refine ⟨known, defs, rest, by simp, .branch hword hcondition hblock fun t ht => ?_⟩
    rw [← State.current_of_mem (s := ((s.withTokens ts).withTokens mid).behind known defs rest) ht]
    exact hnot

theorem whileStatement_gathers {s u : State} {n : Term} {word : Token} {ts : List Token}
    (hts : s.tokens = word :: ts) (hword : word.isWord "while" = true)
    (h : whileStatement p s = (.ok n, u)) :
    ∃ known defs rest, u = s.behind known defs rest ∧
      Statement s.known s.tokens n known defs rest := by
  unfold whileStatement at h
  rw [advance_bind, State.next_eq hts] at h
  obtain ⟨c, v, hc, h⟩ := bind_eq_ok.mp h
  obtain ⟨mid, rfl, hcondition⟩ := condition_reads hc
  obtain ⟨body, v, hbody, h⟩ := bind_eq_ok.mp h
  obtain ⟨known, defs, rest, rfl, hblock⟩ := block_gathers hp hbody
  cases h
  rw [hts]
  exact ⟨known, defs, rest, by simp, .loop hword hcondition hblock⟩

/-- The name is known in its own body. The definition is queued behind those in the body. -/
theorem definition_gathers {s u : State} {n : Term} {word : Token} {ts : List Token}
    (hts : s.tokens = word :: ts) (hword : word.isWord "def" = true)
    (h : definition p s = (.ok n, u)) :
    ∃ known defs rest, u = s.behind known defs rest ∧
      Statement s.known s.tokens n known defs rest := by
  unfold definition at h
  rw [advance_bind, State.next_eq hts] at h
  obtain ⟨x, v, hx, h⟩ := bind_eq_ok.mp h
  obtain ⟨name, mid, hmid, hname, rfl, rfl⟩ := name_eq_ok hx
  -- from here on the state knows the name; this is where the body is read
  obtain ⟨_, v, hlearn, h⟩ := bind_eq_ok.mp h
  cases hlearn
  obtain ⟨opening, v, hopening, h⟩ := bind_eq_ok.mp h
  obtain ⟨hopen, mid', hmid', rfl⟩ := expect_eq_ok (.is _ (by decide)) hopening
  obtain ⟨params, v, hparams, h⟩ := bind_eq_ok.mp h
  obtain ⟨mid'', rfl, hparams'⟩ := params_reads hparams
  obtain ⟨body, v, hbody, h⟩ := bind_eq_ok.mp h
  obtain ⟨known, defs, rest, rfl, hblock⟩ := block_gathers hp hbody
  obtain ⟨_, v, henqueue, h⟩ := bind_eq_ok.mp h
  cases henqueue
  cases h
  rw [State.withTokens_tokens] at hmid
  change mid = opening :: mid' at hmid'
  subst hmid hmid'
  rw [hts]
  refine ⟨known, _, rest, ?_, .define hword hname (is_iff.mp hopen) hparams' hblock⟩
  simp [State.behind, State.withTokens]

/-- The current token decides what a statement is. -/
theorem statementStep_gathers : Gathers (statementStep p) Statement := by
  intro s u n h
  unfold statementStep at h
  rw [look_bind] at h
  have first : ∀ {word}, s.current.isWord word = true → s.tokens = s.current :: s.next.tokens :=
    fun hword => State.tokens_eq_cons ((WordTest.isWord _).refuses hword)
  split at h
  · exact arrayStatement_gathers h
  · next hbracket =>
    split at h
    · next hword => exact ifStatement_gathers hp (first hword) hword h
    · split at h
      · next hword => exact whileStatement_gathers hp (first hword) hword h
      · split at h
        · next hword => exact printStatement_gathers (first hword) hword h
        · split at h
          · next hword => exact definition_gathers hp (first hword) hword h
          · split at h
            · next hword => exact returnStatement_gathers (first hword) hword h
            · exact expressionStatement_gathers (fun hkind => hbracket (is_iff.mpr hkind)) h

end Words

/-- **Soundness.** What is read as a statement is one. -/
theorem statement_gathers : Gathers statement Statement := by
  intro s u n h
  refine recurse_eq_ok (Q := fun _ s n u => ∃ known defs rest, u = s.behind known defs rest ∧
    Statement s.known s.tokens n known defs rest) (fun f ih => ?_) h
  intro _ s n u h
  exact statementStep_gathers (p := f ()) (fun _ _ _ h => ih h) h

/-! ## Completeness: heads -/

section Completeness

variable {s : State}

theorem Names.read {ts rest : List Token} {names : List String} (h : Names ts names rest) :
    items .rightParen name (s.withTokens ts) = (.ok names, s.withTokens rest) := by
  induction h with
  | last hname hclose =>
      rw [items_eq (by decide) (fun n => name_follows), itemsStep, bind_of_ok (name_cons hname),
        accept_ite_no (is_eq_false hclose (by decide)), expect_bind (is_iff.mpr hclose)]
      rfl
  | cons hname hcomma _ ih =>
      rw [items_eq (by decide) (fun n => name_follows), itemsStep, bind_of_ok (name_cons hname),
        accept_ite_yes (is_iff.mpr hcomma)]
      exact bind_of_ok ih

/-- There is one name at least, so a list of names does not begin with what closes it. -/
theorem Names.begins {ts rest : List Token} {names : List String} (h : Names ts names rest) :
    ∃ t us, ts = t :: us ∧ t.isName = true := by
  cases h with
  | last hname _ => exact ⟨_, _, rfl, hname⟩
  | cons hname _ _ => exact ⟨_, _, rfl, hname⟩

theorem Params.read {ts rest : List Token} {params : List String} (h : Params ts params rest) :
    commaList .rightParen name (s.withTokens ts) = (.ok params, s.withTokens rest) := by
  cases h with
  | empty hclose =>
      rw [commaList, accept_ite_yes (is_iff.mpr hclose)]
      rfl
  | names h =>
      have hread := h.read (s := s)
      obtain ⟨t, us, rfl, hname⟩ := h.begins
      have hfirst : t.kind ≠ .rightParen := by
        rw [Token.isName_kind hname]
        decide
      rw [commaList, accept_ite_no (is_eq_false_iff.mpr hfirst)]
      exact hread

/-- A factor is read up to the first token that is no operator of its level. -/
theorem factor_read {ts rest : List Token} {n : Term} (h : Operation s.known [factorLevel] ts n rest)
    (hop : NoOperator [factorLevel] rest) (hbracket : NoBracket ts rest) :
    factor (s.withTokens ts) = (.ok n, s.withTokens rest) :=
  ladder_of_resume (h.resume (by decide) hop.tail hbracket) hop

/-- An operator that joins factors is no bracket. -/
theorem NoBracket.of_joinsFactors {ts mid : List Token} {symbol : Token}
    (h : joinsFactors symbol = true) : NoBracket ts (symbol :: mid) := by
  have hkind := is_iff.mp (Bool.and_eq_true_iff.mp h).1
  exact .of_next hkind (by decide)

/-- Reading a condition leads into its loop, with its tree on the left. -/
theorem Condition.resume {ts rest : List Token} {n : Term} (h : Condition s.known ts n rest) :
    NoOperator [factorLevel] rest → NoBracket ts rest →
    condition (s.withTokens ts) = conditionRest n (s.withTokens rest) := by
  induction h with
  | factor h =>
      intro hop hbracket
      exact bind_of_ok (factor_read h hop hbracket)
  | join hleft hjoins hop' hright ih =>
      intro hop hbracket
      have hfactor := factor_read hright hop
        (hbracket.suffix (hleft.before.trans (.cons _ _)).suffix)
      rw [ih hop' (.of_joinsFactors hjoins), conditionRest_eq, conditionStep_apply, State.current_cons,
        if_pos hjoins, State.next_cons]
      exact bind_of_ok hfactor

/-- The brace that opens a block is no operator of the ladder. -/
theorem openBrace_noOperator {L : List (List Operator)} (hL : L <:+ levels) {opening : Token}
    {rest : List Token} (h : opening.isOperator openBrace = true) : NoOperator L (opening :: rest) := by
  intro t ht level hlevel op hop
  cases ht
  have hall : ∀ level ∈ levels, ∀ op ∈ level, op.symbol ≠ openBrace := by decide
  simp only [Token.isOperator, Bool.and_eq_true, decide_eq_true_eq] at h
  simp [Token.isOperator, h.2, Ne.symm (hall level (hL.subset hlevel) op hop)]

/-- A condition is read up to the brace that opens the block. -/
theorem Condition.read {ts rest : List Token} {opening : Token} {n : Term}
    (h : Condition s.known ts n (opening :: rest)) (hopen : opening.isOperator openBrace = true) :
    condition (s.withTokens ts) = (.ok n, s.withTokens (opening :: rest)) := by
  have hkind := Token.isOperator_kind hopen
  have hjoins : joinsFactors opening = false := by simp [joinsFactors, hopen]
  rw [h.resume (openBrace_noOperator (by decide) hopen)
    (.of_next hkind (by decide)), conditionRest_eq, conditionStep_apply,
    State.current_cons, if_neg (by simp [hjoins])]

/-! ## Completeness: statements -/

/-- A word is no bracket. -/
theorem Token.is_leftBracket_of_isWord {t : Token} {word : String} (h : t.isWord word = true) :
    t.is .leftBracket = false := by
  rw [is_eq_false_iff, Token.isWord_kind h]
  decide

theorem Token.isWord_eq {t : Token} {word other : String} (h : t.isWord word = true) :
    t.isWord other = decide (word = other) := by
  simp only [Token.isWord, Token.isWord_kind h, Token.isWord_text h, decide_true, Bool.true_and]

/-- The current token decides what a statement is. -/
theorem statement_cons (t : Token) (ts : List Token) : statement (s.withTokens (t :: ts)) =
    if t.is .leftBracket then arrayStatement (s.withTokens (t :: ts))
    else if t.isWord "if" then ifStatement statement (s.withTokens (t :: ts))
    else if t.isWord "while" then whileStatement statement (s.withTokens (t :: ts))
    else if t.isWord "print" then printStatement (s.withTokens (t :: ts))
    else if t.isWord "def" then definition statement (s.withTokens (t :: ts))
    else if t.isWord "return" then returnStatement (s.withTokens (t :: ts))
    else expressionStatement (s.withTokens (t :: ts)) := by
  refine (congrFun statement_eq _).trans ?_
  rw [statementStep, look_bind, State.current_cons]
  repeat (split; rfl)
  rfl

/-- If it is a keyword, the keyword decides. -/
theorem statement_word {t : Token} {word : String} (h : t.isWord word = true) (ts : List Token) :
    statement (s.withTokens (t :: ts)) =
      (if word = "if" then ifStatement statement
      else if word = "while" then whileStatement statement
      else if word = "print" then printStatement
      else if word = "def" then definition statement
      else if word = "return" then returnStatement
      else expressionStatement) (s.withTokens (t :: ts)) := by
  rw [statement_cons, Token.is_leftBracket_of_isWord h, if_neg (by decide)]
  simp only [Token.isWord_eq h, decide_eq_true_eq]
  repeat (split; rfl)
  rfl

/-- In front of a semicolon an expression always ends. -/
theorem Expression.read_before {known : List String} {ts rest : List Token} {t : Token} {n : Term}
    (h : Expression known ts n (t :: rest)) (hs : s.known = known) (ht : t.kind = .semicolon) :
    expression (s.withTokens ts) = (.ok n, s.withTokens (t :: rest)) := by
  subst hs
  exact h.read (.of_kind ht (by decide))

theorem semicolon_cons {t : Token} {rest : List Token} (h : t.kind = .semicolon) :
    semicolon (s.withTokens (t :: rest)) = (.ok (), s.withTokens rest) :=
  expect_bind (is_iff.mpr h)

theorem optionalSemicolon_cons {t : Token} {rest : List Token} (h : t.kind = .semicolon) :
    optionalSemicolon (s.withTokens (t :: rest)) = (.ok (), s.withTokens rest) := by
  rw [optionalSemicolon, bind_apply, accept_apply, State.current_cons, if_pos (is_iff.mpr h),
    State.next_cons]
  rfl

/-- Without a semicolon nothing is passed. -/
theorem optionalSemicolon_none {rest : List Token} (h : ∀ t ∈ rest.head?, t.kind ≠ .semicolon) :
    optionalSemicolon (s.withTokens rest) = (.ok (), s.withTokens rest) := by
  have hnot : Token.is .semicolon (s.withTokens rest).current = false := State.is_current_eq_false h (by decide)
  rw [optionalSemicolon, bind_apply, accept_apply, if_neg (by simp [hnot])]
  rfl

/-- A phrase that stands alone is read, and then what ends it. -/
theorem Alone.read {known : List String} {ts mid rest : List Token} {n : Term}
    (h : Alone known ts n mid) (hs : s.known = known)
    (hassign : isAssignment n = true → semicolon (s.withTokens mid) = (.ok (), s.withTokens rest))
    (hoptional : optionalSemicolon (s.withTokens mid) = (.ok (), s.withTokens rest)) :
    statement (s.withTokens ts) = (.ok n, s.withTokens rest) := by
  subst hs
  cases h with
  | @array opening ts mid elements hopen hargs =>
      have hlist := hargs.read (s := s) (.inr rfl)
      have harray : Parse.array Parse.expression (s.withTokens (opening :: ts)) =
          (.ok (.array elements), s.withTokens mid) := by
        rw [Parse.array, expect_bind (is_iff.mpr hopen)]
        exact bind_of_ok hlist
      rw [statement_cons, if_pos (is_iff.mpr hopen), arrayStatement, bind_of_ok harray,
        bind_of_ok hoptional]
      rfl
  | @expression t ts mid n hfirst hexpr hends =>
      -- no expression begins with a word that begins another statement
      obtain ⟨t', us, heq, hbegins⟩ := hexpr.begins
      cases heq
      have hword : ∀ word ∈ keywords, ¬t.isWord word = true := by
        intro word hmem
        rw [hbegins.not_isWord hmem]
        decide
      rw [statement_cons, if_neg (by rw [is_iff]; exact hfirst), if_neg (hword _ (by decide)),
        if_neg (hword _ (by decide)), if_neg (hword _ (by decide)), if_neg (hword _ (by decide)),
        if_neg (hword _ (by decide)), expressionStatement, bind_of_ok (hexpr.read hends)]
      by_cases ha : isAssignment n = true
      · rw [if_pos ha, bind_of_ok (hassign ha)]
        rfl
      · rw [if_neg ha, bind_of_ok hoptional]
        rfl

end Completeness

/-- A state that a statement has led to, with its tokens apart. -/
theorem behind_eq_withTokens (s : State) (known : List String) (defs : List Definition)
    (rest : List Token) : s.behind known defs rest = (s.behind known defs []).withTokens rest := rfl

/-- A condition in front of a block is read. -/
theorem Block.condition_read {known known' : List String} {ts mid rest : List Token} {n body : Term}
    {defs : List Definition} {s : State} (h : Block known mid body known' defs rest)
    (hcondition : Condition known ts n mid) (hs : s.known = known) :
    condition (s.withTokens ts) = (.ok n, s.withTokens mid) := by
  subst hs
  cases h with
  | braces hopen _ => exact hcondition.read hopen

/-- No block begins with `if`. -/
theorem Block.not_if {known known' : List String} {ts rest : List Token} {body : Term}
    {defs : List Definition} (h : Block known ts body known' defs rest) (s : State) :
    ¬(s.withTokens ts).current.isWord "if" = true := by
  cases h with
  | braces hopen _ =>
      intro hword
      have hkind := Token.isWord_kind hword
      rw [State.current_cons, Token.isOperator_kind hopen] at hkind
      cases hkind

/-- No expression begins with a semicolon. -/
theorem Expression.not_semicolon {known : List String} {ts rest : List Token} {n : Term}
    (h : Expression known ts n rest) (s : State) :
    Token.is .semicolon (s.withTokens ts).current = false := by
  obtain ⟨t, us, rfl, hbegins⟩ := h.begins
  rw [is_eq_false_iff, State.current_cons]
  intro hsemi
  have hkind := hbegins.kind
  rw [hsemi] at hkind
  revert hkind
  decide

/-- No statement begins with a closing brace. -/
theorem Statements.not_closeBrace {known known₁ known₂ : List String} {ts rest : List Token}
    {ns : List Term} {defs₁ defs₂ : List Definition} (h : Statements known₁ ts ns known₂ defs₂ rest)
    (s : State) : Token.isOperator closeBrace (s.behind known defs₁ ts).current = false := by
  obtain ⟨t, us, rfl, hbegins⟩ := h.begins
  rw [State.current_eq (s := s.behind known defs₁ (t :: us)) rfl]
  simp [Token.isOperator, hbegins.kind_ne (by decide : .operator ∈ _)]

mutual

/-- **Completeness.** A statement is read whole, and what it defines is known and queued. -/
theorem Statement.read {known known' : List String} {ts rest : List Token} {n : Term}
    {defs : List Definition} :
    Statement known ts n known' defs rest → ∀ s : State, s.known = known →
      statement (s.withTokens ts) = (.ok n, s.behind known' defs rest)
  | .ended h hsemi, s, hs => by
      rw [← hs, ← State.withTokens_eq_behind]
      exact h.read hs (fun _ => semicolon_cons hsemi) (optionalSemicolon_cons hsemi)
  | .bare h hassign hnot, s, hs => by
      rw [← hs, ← State.withTokens_eq_behind]
      exact h.read hs (fun ha => absurd ha (by simp [hassign])) (optionalSemicolon_none hnot)
  | @Statement.branch known known' word ts mid rest condition body defs hword hcond h hnot, s, hs => by
      have hbody := h.read s hs
      have hhead := h.condition_read hcond hs
      rw [statement_word hword]
      show ifStatement statement _ = _
      rw [ifStatement, advance_bind, State.next_cons, bind_of_ok hhead, bind_of_ok hbody,
        accept_ite_current ((WordTest.isWord _).current hnot)]
      rfl
  | @Statement.branches known known₁ known₂ word other ts mid mid' rest condition body otherwise defs₁
        defs₂ hword hcond h hother h', s, hs => by
      have hbody := h.read s hs
      have hhead := h.condition_read hcond hs
      -- the second branch is read with what the first one has defined
      have helse := h'.read (s.behind known₁ defs₁ []) rfl
      rw [statement_word hword]
      show ifStatement statement _ = _
      rw [ifStatement, advance_bind, State.next_cons, bind_of_ok hhead, bind_of_ok hbody,
        behind_eq_withTokens, accept_ite_yes hother, bind_of_ok helse, State.behind_behind]
      rfl
  | @Statement.loop known known' word ts mid rest condition body defs hword hcond h, s, hs => by
      have hbody := h.read s hs
      have hhead := h.condition_read hcond hs
      rw [statement_word hword]
      show whileStatement statement _ = _
      rw [whileStatement, advance_bind, State.next_cons, bind_of_ok hhead, bind_of_ok hbody]
      rfl
  | .print hword h hsemi, s, hs => by
      have hvalue := h.read_before hs hsemi
      rw [statement_word hword]
      show printStatement _ = _
      rw [printStatement, advance_bind, State.next_cons, bind_of_ok hvalue,
        bind_of_ok (semicolon_cons hsemi), ← hs, ← State.withTokens_eq_behind]
      rfl
  | @Statement.define known known' word name opening ts mid rest params body defs hword hname hopen hparams
        h, s, hs => by
      have hbody := h.read { s with known := name.text :: s.known } (by rw [hs])
      have hlist := hparams.read (s := { s with known := name.text :: s.known })
      rw [statement_word hword]
      show definition statement _ = _
      rw [definition, advance_bind, State.next_cons, bind_of_ok (name_cons hname)]
      -- the name is known from here on, also in its own body
      show (do let _ ← expect (Token.is .leftParen)
               let params ← commaList .rightParen Parse.name
               let body ← block statement
               enqueue { name := name.text, params, body }
               return Term.define name.text params body)
          (({ s with known := name.text :: s.known } : State).withTokens (opening :: ts)) = _
      rw [expect_bind (is_iff.mpr hopen), bind_of_ok hlist, bind_of_ok hbody]
      simp [bind_apply, pure_apply, enqueue, State.behind]
  | .giveBack hword hsemi, s, hs => by
      rw [statement_word hword]
      show returnStatement _ = _
      rw [returnStatement, advance_bind, State.next_cons,
        accept_ite_yes (is_iff.mpr hsemi), ← hs, ← State.withTokens_eq_behind]
      rfl
  | .giveBackValue hword h hsemi, s, hs => by
      have hvalue := h.read_before hs hsemi
      rw [statement_word hword]
      show returnStatement _ = _
      rw [returnStatement, advance_bind, State.next_cons,
        accept_ite_current (h.not_semicolon s), bind_of_ok hvalue, bind_of_ok (semicolon_cons hsemi),
        ← hs, ← State.withTokens_eq_behind]
      rfl

/-- The parts of statements are read back by induction on the phrase, with what is known handed on. -/
theorem ElseClause.read {known known' : List String} {ts rest : List Token} {n : Term}
    {defs : List Definition} :
    ElseClause known ts n known' defs rest → ∀ s : State, s.known = known →
      elseClause statement (s.withTokens ts) = (.ok n, s.behind known' defs rest)
  | .nested hword h, s, hs => by
      have hnested := h.read s hs
      rw [elseClause, look_ite_yes hword, bind_of_ok hnested]
      rfl
  | .block h, s, hs => by
      have hbody := h.read s hs
      rw [elseClause, look_bind, if_neg (h.not_if s), bind_of_ok hbody]
      rfl

theorem Block.read {known known' : List String} {ts rest : List Token} {n : Term}
    {defs : List Definition} :
    Block known ts n known' defs rest → ∀ s : State, s.known = known →
      block statement (s.withTokens ts) = (.ok n, s.behind known' defs rest)
  | .braces hopen h, s, hs => by
      have hinside := h.read s hs
      rw [block, expect_bind hopen, bind_of_ok hinside]
      rfl

theorem Statements.read {known known' : List String} {ts rest : List Token} {ns : List Term}
    {defs : List Definition} :
    Statements known ts ns known' defs rest → ∀ s : State, s.known = known →
      statements statement (s.withTokens ts) = (.ok ns, s.behind known' defs rest)
  | .last h hclose, s, hs => by
      have hhead := h.read s hs
      rw [statements_eq (fun n => statement_follows), statementsStep, bind_of_ok hhead,
        behind_eq_withTokens, accept_ite_yes hclose]
      rfl
  | @Statements.cons known known₁ known₂ ts mid rest n ns defs₁ defs₂ h h', s, hs => by
      have hhead := h.read s hs
      have htail := h'.read (s.behind known₁ defs₁ []) rfl
      rw [statements_eq (fun n => statement_follows), statementsStep, bind_of_ok hhead,
        accept_ite_current (h'.not_closeBrace _), behind_eq_withTokens, bind_of_ok htail,
        State.behind_behind]
      rfl

end

end Grammar
end Abacus
