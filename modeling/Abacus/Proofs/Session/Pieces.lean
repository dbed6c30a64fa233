import Abacus.Proofs.Grammar.Parentheses
import Abacus.Proofs.Session.Running
import Abacus.Proofs.Token.LineBreaks

/-!
# `Session.Pieces` — running a text in pieces

A text whose first piece ends with a semicolon runs like its pieces one after the other. Five things make it so:

- the scanner does not look past a line break, so the tokens are those of the pieces, the second one's further
  down (`lex_pieces`);
- a statement does not look past its semicolon, so the statements of the first piece are read as if nothing
  followed (`nextStatement_extends`);
- the check of the parentheses finds nothing in the whole that it does not find in a piece
  (`strayParen?_append`);
- at the seam the parser knows the functions that are registered (`performed_agree`), which is what the parser of
  the second piece begins with;
- the positions of tokens are only seen in failures (`runFrom_shift`).

`run_pieces` puts them together, and the last theorem is about runs that end, with any fuel.
-/

namespace Abacus

open Parse (State Simulation Follows nextStatement statement)

/-! ## Further down -/

theorem strayParen?_shift {ts : List Token} {depth : Nat} (k : Nat) (h : strayParen? depth ts = none) :
    strayParen? depth (ts.map (Token.shift k)) = none := by
  induction ts generalizing depth with
  | nil => rfl
  | cons t ts ih =>
      rw [List.map_cons, strayParen?_cons]
      rw [strayParen?_cons] at h
      -- further down, a token is of the same kind
      by_cases hstray : t.kind = .rightParen ∧ depth = 0
      · rw [if_pos hstray] at h
        cases h
      · rw [if_neg hstray] at h
        exact (if_neg hstray).trans (ih h)

/-- The same failure `k` lines further down. -/
def Unexpected.shift (k : Nat) (e : Unexpected) : Unexpected := { e with pos := e.pos.shift k }

/-- The result of the same text `k` lines further down: only the failure of a token tells. -/
def shiftResult (k : Nat) : Except Error Float → Except Error Float
  | .error (.unexpected e) => .error (.unexpected (e.shift k))
  | r => r

/-- States that differ in how far down their tokens are, and in the order of the known names. Their
parentheses have been checked. -/
structure Shifted (k : Nat) (s t : State) : Prop where
  tokens : t.tokens = s.tokens.map (Token.shift k)
  last : t.last = s.last.shift k
  known : ∀ name, s.known.contains name = t.known.contains name
  queued : t.queued = s.queued
  scanned : s.scanned = true ∧ t.scanned = true

theorem Shifted.current {k : Nat} {s t : State} (h : Shifted k s t) :
    t.current = s.current.shift k := by
  unfold State.current
  rw [h.tokens, h.last]
  cases s.tokens <;> rfl

/-- No action can tell how far down its tokens are. -/
def shifted (k : Nat) : Simulation where
  rel := Shifted k
  done _ := False
  done_suffix h _ := h
  kind h := by rw [h.current]; rfl
  text h := by rw [h.current]; rfl
  known h := h.known
  next h _ := by
    refine .inr ⟨?_, h.last, h.known, h.queued, h.scanned⟩
    simp only [State.next, h.tokens, List.map_tail]
  learn h name := by
    refine ⟨h.tokens, h.last, fun other => ?_, h.queued, h.scanned⟩
    simp only [List.contains_cons, h.known]
  enqueue h d := ⟨h.tokens, h.last, h.known, by simp only [h.queued], h.scanned⟩
  shorter h h' hlt := by
    rw [h.tokens, h'.tokens, List.length_map, List.length_map]
    exact hlt

namespace Session

/-- **A run further down** has the same result, but for the line of a failure. -/
theorem runFrom_shift (fuel k : Nat) {s t : State} (h : Shifted k s t) (env : Env) (last : Float) :
    runFrom fuel t env last =
      (runFrom fuel s env last).map fun x => (shiftResult k x.1, x.2) := by
  -- on the tokens that are left: every statement passes one
  induction hlen : s.tokens.length using Nat.strongRecOn generalizing s t env last with
  | ind length ih =>
      have hmatch := (Parse.statement_follows (S := shifted k)).outcome h trivial
        (Nat.lt_succ_self s.tokens.length)
      have hkind : t.current.is .finish = s.current.is .finish := by
        rw [h.current]
        rfl
      rw [runFrom_eq, runFrom_eq, nextStatement_checked h.scanned.1, nextStatement_checked h.scanned.2, hkind]
      by_cases hfinish : s.current.is .finish = true
      · rw [if_pos hfinish, if_pos hfinish]
        rfl
      · rw [if_neg hfinish, if_neg hfinish]
        cases hx : statement s with
        | mk r u =>
            rw [hx] at hmatch
            generalize statement t = y at hmatch ⊢
            cases hmatch with
            | done hd => exact absurd hd id
            | @error _ t' hr =>
                rw [hr.current]
                rfl
            | @ok n _ t' hr =>
                obtain ⟨known, defs, rest, hu, hstatement⟩ := Grammar.statement_gathers hx
                have hlt : u.tokens.length < s.tokens.length := by
                  rw [hu]
                  exact hstatement.before.length_lt
                dsimp only
                rw [hr.queued]
                -- the same term in the same environment; only the states behind it differ
                cases eval fuel n (env.registerAll u.queued) with
                | none => rfl
                | some x =>
                    obtain ⟨outcome, after⟩ := x
                    cases outcome with
                    | error e => rfl
                    | ok value =>
                        have hnext : Shifted k { u with queued := [] } { t' with queued := [] } :=
                          ⟨hr.tokens, hr.last, hr.known, rfl, hr.scanned⟩
                        exact ih u.tokens.length (by omega) hnext after value rfl

end Session

/-! ## More tokens behind -/

/-- The second state has more tokens behind those of the first. The parentheses of both have been checked. -/
structure Extends (extra : List Token) (s t : State) : Prop where
  tokens : t.tokens = s.tokens ++ extra
  known : t.known = s.known
  queued : t.queued = s.queued
  scanned : s.scanned = true ∧ t.scanned = true

theorem Extends.current {extra : List Token} {s t : State} (h : Extends extra s t)
    (hne : s.tokens ≠ []) : t.current = s.current := by
  unfold State.current
  rw [h.tokens]
  cases hts : s.tokens with
  | nil => exact absurd hts hne
  | cons c ts => rfl

/-- As long as tokens of its own are left, the first state does not see what the second one has behind. -/
def extended (extra : List Token) : Simulation where
  rel s t := s.tokens ≠ [] ∧ Extends extra s t
  done ts := ts = []
  done_suffix h hsuf := List.suffix_nil.mp (h ▸ hsuf)
  kind h := by rw [h.2.current h.1]
  text h := by rw [h.2.current h.1]
  known h name := by rw [h.2.known]
  next {s t} h hkind := by
    by_cases hnext : s.next.tokens = []
    · exact .inl hnext
    · refine .inr ⟨hnext, ?_, h.2.known, h.2.queued, h.2.scanned⟩
      have hts := State.tokens_eq_cons hkind
      simp only [State.next, h.2.tokens]
      rw [hts]
      rfl
  learn h name := ⟨h.1, h.2.tokens, by simp only [h.2.known], h.2.queued, h.2.scanned⟩
  enqueue h d := ⟨h.1, h.2.tokens, h.2.known, by simp only [h.2.queued], h.2.scanned⟩
  shorter h h' hlt := by
    rw [h.2.tokens, h'.2.tokens, List.length_append, List.length_append]
    omega

/-- The last token of a list is that of each of its ends. -/
theorem endsWith_of_suffix {P : Token → Prop} {ts us : List Token} (h : Grammar.EndsWith P ts [])
    (hsuf : us <:+ ts) (hne : us ≠ []) : Grammar.EndsWith P us [] := by
  obtain ⟨front, t, rfl, ht⟩ := h
  obtain ⟨pre, hpre⟩ := hsuf
  have hus : us.dropLast ++ [us.getLast hne] = us := List.dropLast_concat_getLast hne
  have heq : front ++ [t] = (pre ++ us.dropLast) ++ [us.getLast hne] := by
    rw [List.append_assoc, hus, hpre]
  rw [Grammar.Before.token_unique heq] at ht
  exact ⟨us.dropLast, us.getLast hne, hus.symm, ht⟩

/-- **A statement of the first piece is read as if nothing followed.** -/
theorem statement_extends {extra : List Token} {s t u : State} {n : Term} (h : Extends extra s t)
    (hlast : Grammar.EndsWith (·.kind = .semicolon) s.tokens []) (hs : statement s = (.ok n, u)) :
    ∃ v, statement t = (.ok n, v) ∧ Extends extra u v := by
  obtain ⟨known, defs, rest, rfl, hstatement⟩ := Grammar.statement_gathers hs
  by_cases hrest : rest = []
  · -- it ends with the last semicolon, so it is a statement whatever follows
    subst hrest
    have hread := (hstatement.append_of_semicolon hlast extra).read t h.known
    rw [← h.tokens, State.withTokens_self] at hread
    exact ⟨_, hread, rfl, rfl, by simp [State.behind, h.queued], h.scanned⟩
  · -- it ends earlier, so what follows is never seen
    have hne : s.tokens ≠ [] := by
      intro hnil
      have := hstatement.before.length_lt
      rw [hnil] at this
      exact absurd this (Nat.not_lt_zero _)
    have hmatch := (Parse.statement_follows (S := extended extra)).outcome ⟨hne, h⟩ trivial
      (Nat.lt_succ_self s.tokens.length)
    rw [hs] at hmatch
    generalize statement t = y at hmatch ⊢
    cases hmatch with
    | done hd => exact absurd hd hrest
    | ok hr => exact ⟨_, rfl, hr.2⟩

theorem nextStatement_extends {extra : List Token} {s t u : State} {st : Statement}
    (h : Extends extra s t) (hlast : Grammar.EndsWith (·.kind = .semicolon) s.tokens [])
    (hs : nextStatement s = (.ok (some st), u)) :
    ∃ v, nextStatement t = (.ok (some st), v) ∧ Extends extra u v ∧ v.last = t.last := by
  rw [nextStatement_checked h.scanned.1] at hs
  split at hs
  · cases hs
  · next hfinish =>
    split at hs
    · next n w hw =>
      cases hs
      obtain ⟨v, hv, hextends⟩ := statement_extends h hlast hw
      have hne : s.tokens ≠ [] := State.tokens_ne_nil fun hkind => hfinish (Parse.is_iff.mpr hkind)
      have hnext : nextStatement t = (.ok (some ⟨n, w.queued⟩), { v with queued := [] }) := by
        rw [nextStatement_checked h.scanned.2, h.current hne, if_neg hfinish, hv]
        dsimp only
        rw [hextends.queued]
      obtain ⟨known, defs, rest, -, -, hsame⟩ := nextStatement_eq_some hnext
      refine ⟨_, hnext, ⟨hextends.tokens, hextends.known, rfl, hextends.scanned⟩, ?_⟩
      rw [hsame]
    · cases hs

namespace Session

/-- **The first piece runs as if nothing followed.** If it fails, the run ends there; if it succeeds, the run goes
on behind it, and the parser still knows the functions that are registered. -/
theorem runFrom_extends (fuel : Nat) {extra : List Token} {s t : State} {env after : Env} {last : Float}
    {r : Except Error Float} (h : Extends extra s t) (hagree : Agree s env)
    (hlast : s.tokens ≠ [] → Grammar.EndsWith (·.kind = .semicolon) s.tokens [])
    (hwords : ∀ t ∈ s.tokens, t.kind ≠ .finish)
    (hrun : runFrom fuel s env last = some (r, after)) :
    (∀ e, r = .error (.runtime e) → runFrom fuel t env last = some (r, after)) ∧
      (∀ value, r = .ok value → ∃ v, v.tokens = extra ∧ v.last = t.last ∧ v.scanned = true ∧
        Agree v after ∧ runFrom fuel t env last = runFrom fuel v after value) := by
  induction hlen : s.tokens.length using Nat.strongRecOn generalizing s t env last with
  | ind length ih =>
      rw [runFrom_eq] at hrun
      split at hrun
      · next hnext =>
        -- a token that cannot be read: neither half speaks of it
        cases hrun
        exact ⟨nofun, nofun⟩
      · next u hnext =>
        -- the first piece has ended; the run stands at the second one
        have hnil : s.tokens = [] := by
          rw [nextStatement_checked h.scanned.1] at hnext
          split at hnext
          · next hfinish =>
            cases hts : s.tokens with
            | nil => rfl
            | cons c ts =>
                rw [State.current_eq hts] at hfinish
                exact absurd (Parse.is_iff.mp hfinish) (hwords c (by simp [hts]))
          · split at hnext <;> cases hnext
        cases hrun
        refine ⟨nofun, fun value hvalue => ?_⟩
        cases hvalue
        refine ⟨t, ?_, rfl, h.scanned.2, ⟨?_, ?_, hagree.closed, hagree.idle⟩, rfl⟩
        · rw [h.tokens, hnil, List.nil_append]
        · intro name
          rw [h.known]
          exact hagree.known name
        · rw [h.queued]
          exact hagree.queued
      · next st u hst =>
        have hlt := length_lt_of_nextStatement hst
        have hne : s.tokens ≠ [] := by
          intro hnil
          rw [hnil] at hlt
          exact absurd hlt (Nat.not_lt_zero _)
        obtain ⟨v, hv, hextends, hvlast⟩ := nextStatement_extends h (hlast hne) hst
        have hsuf : u.tokens <:+ s.tokens := by
          obtain ⟨known, defs, rest, hstatement, -, rfl⟩ := nextStatement_eq_some hst
          exact hstatement.before.suffix
        rw [runFrom_eq fuel t, hv]
        dsimp only
        split at hrun
        · cases hrun
        · next e after' heval =>
          cases hrun
          exact ⟨fun _ _ => rfl, nofun⟩
        · next value after' heval =>
          -- the functions that the statement has registered are those the parser has learnt
          have hmore := ih u.tokens.length (by omega) hextends (performed_agree hagree hst heval)
            (fun hu => endsWith_of_suffix (hlast hne) hsuf hu) (fun t ht => hwords t (hsuf.subset ht))
            hrun rfl
          rw [hvlast] at hmore
          exact hmore

/-! ## Texts -/

section Checked

variable {source : String} {ts : List Token} {pos : Position}

/-- A text whose parentheses are fine runs behind the check. -/
theorem run_eq_parserOf (hlex : lex source = .ok (ts ++ [.finish pos])) (h : strayParen? 0 ts = none)
    (fuel : Nat) (env : Env) :
    run fuel source env = runFrom fuel (parserOf ts pos env.functions.names) env 0 := by
  rw [run_eq_runFrom hlex, ofTokens_append_finish, runFrom_eq, nextStatement_unchecked rfl]
  simp only [parserOf, h]
  exact (runFrom_eq _ _ _ _).symm

/-- Unless a token that cannot be read ended the run, no parenthesis is stray. -/
theorem strayParen?_of_run (hlex : lex source = .ok (ts ++ [.finish pos])) {fuel : Nat} {env after : Env}
    {r : Except Error Float} (h : run fuel source env = some (r, after))
    (hr : ∀ e, r ≠ .error (.unexpected e)) : strayParen? 0 ts = none := by
  rw [run_eq_runFrom hlex, ofTokens_append_finish, runFrom_eq, nextStatement_unchecked rfl] at h
  cases hstray : strayParen? 0 ts with
  | none => rfl
  | some t =>
      simp only [parserOf, hstray] at h
      cases h
      exact absurd rfl (hr _)

end Checked

/-- The tokens of a text and `END`. -/
theorem lex_eq_ok {source : String} {ts : List Token} {last : Token} (h : lex source = .ok (ts ++ [last])) :
    last = .finish (Position.start.advance source.toList) ∧ ∀ t ∈ ts, t.kind ≠ .finish := by
  obtain ⟨us, hus, -⟩ := tokens_append _ _ h
  have hwords := kind_ne_finish_of_tokens _ _ h
  rw [List.dropLast_concat] at hwords
  obtain ⟨rfl, hlast⟩ := List.append_inj' hus rfl
  cases hlast
  exact ⟨rfl, hwords⟩

/-- **The scanner does not look past a line break.** -/
theorem lex_pieces {first second : String} {ts us : List Token} {last last' : Token}
    (hfirst : lex first = .ok (ts ++ [last])) (hsecond : lex second = .ok (us ++ [last'])) :
    lex (first ++ "\n" ++ second) =
      .ok (ts ++ us.map (Token.shift (first.toList.count '\n' + 1)) ++
        [last'.shift (first.toList.count '\n' + 1)]) := by
  obtain ⟨front, hfront, hwhole⟩ := tokens_newline first.toList second.toList hfirst
  obtain ⟨rfl, -⟩ := List.append_inj' hfront rfl
  have htext : (first ++ "\n" ++ second).toList = first.toList ++ '\n' :: second.toList := by simp
  show Scanner.tokens ⟨.start, (first ++ "\n" ++ second).toList⟩ = _
  rw [htext, hwhole, tokens_shift _ _ _ hsecond]
  simp [Except.map]

/-- Where a statement is left, the value so far does not matter. -/
theorem runFrom_last {fuel : Nat} {s : State} (hs : s.scanned = true) (h : s.current.kind ≠ .finish)
    (env : Env) (last last' : Float) : runFrom fuel s env last = runFrom fuel s env last' := by
  rw [runFrom_eq, runFrom_eq]
  split
  · rfl
  · next u hx =>
    rw [nextStatement_checked hs, if_neg (fun hfinish => h (Parse.is_iff.mp hfinish))] at hx
    split at hx <;> cases hx
  · rfl

/-- The second piece, from where the first one ends. -/
theorem runFrom_second {second : String} {us : List Token} {pos : Position}
    (hsecond : lex second = .ok (us ++ [.finish pos])) (hne : us ≠ []) (hparens : strayParen? 0 us = none)
    {k : Nat} {v : State} {after : Env} (htokens : v.tokens = us.map (Token.shift k))
    (hlast : v.last = .finish (pos.shift k)) (hscanned : v.scanned = true) (hagree : Agree v after)
    (fuel : Nat) (value : Float) :
    runFrom fuel v after value =
      (run fuel second after).map fun x => (shiftResult k x.1, x.2) := by
  obtain ⟨-, hwords⟩ := lex_eq_ok hsecond
  have hshifted : Shifted k (parserOf us pos after.functions.names) v := by
    refine ⟨htokens, hlast, fun name => ?_, hagree.queued, rfl, hscanned⟩
    rw [hagree.known]
    exact Table.contains_names _ name
  have hcurrent : (parserOf us pos after.functions.names).current.kind ≠ .finish := by
    obtain ⟨t, ts, rfl⟩ := List.exists_cons_of_ne_nil hne
    exact hwords t (List.mem_cons_self ..)
  rw [run_eq_parserOf hsecond hparens, runFrom_shift fuel k hshifted, runFrom_last rfl hcurrent after value 0]

/-- The two pieces, with the same fuel for every statement. -/
theorem run_pieces {env after : Env} (henv : env.Closed ∧ env.active = none) {first second : String}
    {ts us : List Token} {semicolon last last' : Token}
    (hfirst : lex first = .ok (ts ++ [semicolon, last])) (hsemi : semicolon.kind = .semicolon)
    (hsecond : lex second = .ok (us ++ [last'])) (hne : us ≠ []) (hparens : strayParen? 0 us = none)
    {fuel : Nat} {r : Except Error Float} (hrun : run fuel first env = some (r, after))
    (hr : ∀ e, r ≠ .error (.unexpected e)) :
    (∀ e, r = .error (.runtime e) → run fuel (first ++ "\n" ++ second) env = some (r, after)) ∧
      (∀ value, r = .ok value → run fuel (first ++ "\n" ++ second) env =
        (run fuel second after).map fun x => (shiftResult (first.toList.count '\n' + 1) x.1, x.2)) := by
  have hfirst' : lex first = .ok ((ts ++ [semicolon]) ++ [last]) := by rw [hfirst]; simp
  have hwhole := lex_pieces hfirst' hsecond
  generalize first.toList.count '\n' + 1 = k at hwhole ⊢
  obtain ⟨rfl, hwords⟩ := lex_eq_ok hfirst'
  obtain ⟨rfl, -⟩ := lex_eq_ok hsecond
  -- the first piece got past the check of its parentheses, so the whole does
  have hstray := strayParen?_of_run hfirst' hrun hr
  have hstrayWhole := strayParen?_append hstray (strayParen?_shift k hparens)
  rw [run_eq_parserOf hfirst' hstray] at hrun
  rw [run_eq_parserOf hwhole hstrayWhole]
  have hagree : Agree (parserOf (ts ++ [semicolon]) (Position.start.advance first.toList)
      env.functions.names) env :=
    ⟨fun name => Table.contains_names _ name, rfl, henv.1, henv.2⟩
  have hextends : Extends (us.map (Token.shift k))
      (parserOf (ts ++ [semicolon]) (Position.start.advance first.toList) env.functions.names)
      (parserOf (ts ++ [semicolon] ++ us.map (Token.shift k))
        ((Position.start.advance second.toList).shift k) env.functions.names) :=
    ⟨rfl, rfl, rfl, rfl, rfl⟩
  have hpieces := runFrom_extends fuel hextends hagree (fun _ => ⟨ts, semicolon, rfl, hsemi⟩) hwords hrun
  refine ⟨hpieces.1, fun value hvalue => ?_⟩
  obtain ⟨v, hvtokens, hvlast, hvscanned, hvagree, hv⟩ := hpieces.2 value hvalue
  refine hv.trans ?_
  exact runFrom_second hsecond hne hparens hvtokens hvlast hvscanned hvagree fuel value

/-- **Running a text in pieces is running it whole.** From a reachable state, let the first piece end with a
semicolon, the second one have a token and no parenthesis that closes nothing. If the first piece succeeds, the
whole does what the second piece does behind it, and only the line of a token that cannot be read tells; if
evaluating the first piece fails, that is all the whole does. -/
theorem runs_pieces {env after : Env} (henv : Reachable env) {first second : String}
    {ts us : List Token} {semicolon last last' : Token}
    (hfirst : lex first = .ok (ts ++ [semicolon, last])) (hsemi : semicolon.kind = .semicolon)
    (hsecond : lex second = .ok (us ++ [last'])) (hne : us ≠ [])
    (hparens : strayParen? 0 us = none) :
    (∀ value, Runs first env (.ok value) after → ∀ r final,
      Runs (first ++ "\n" ++ second) env r final ↔ ∃ r', Runs second after r' final ∧
        r = shiftResult (first.toList.count '\n' + 1) r') ∧
    (∀ e, Runs first env (.error (.runtime e)) after → ∀ r final,
      Runs (first ++ "\n" ++ second) env r final ↔ r = .error (.runtime e) ∧ final = after) := by
  constructor
  · rintro value ⟨n, hn⟩ r final
    -- the fuel of one run need not do for the other, but that of both does
    have hpieces : ∀ m, n ≤ m → _ := fun m hnm =>
      (run_pieces henv.settled hfirst hsemi hsecond hne hparens (run_mono hnm hn) (by simp)).2 value rfl
    constructor
    · rintro ⟨m, hm⟩
      have hwhole := run_mono (Nat.le_max_right n m) hm
      rw [hpieces _ (Nat.le_max_left n m)] at hwhole
      obtain ⟨⟨r', final'⟩, hr', heq⟩ := Option.map_eq_some_iff.mp hwhole
      cases heq
      exact ⟨r', ⟨_, hr'⟩, rfl⟩
    · rintro ⟨r', ⟨m, hm⟩, rfl⟩
      refine ⟨max n m, ?_⟩
      rw [hpieces _ (Nat.le_max_left n m), run_mono (Nat.le_max_right n m) hm]
      rfl
  · rintro e ⟨n, hn⟩ r final
    have hpieces : ∀ m, n ≤ m → _ := fun m hnm =>
      (run_pieces henv.settled hfirst hsemi hsecond hne hparens (run_mono hnm hn) (by simp)).1 e rfl
    constructor
    · rintro ⟨m, hm⟩
      have hwhole := run_mono (Nat.le_max_right n m) hm
      rw [hpieces _ (Nat.le_max_left n m)] at hwhole
      cases hwhole
      exact ⟨rfl, rfl⟩
    · rintro ⟨rfl, rfl⟩
      exact ⟨n, hpieces n (Nat.le_refl n)⟩

/-- A function from the first piece is known in the second one, where an operator is found on line 3. -/
theorem runs_pieces_function :
    let first := "def f()\x7btrue\x7d\nf;"
    ∃ after, Runs first .empty (.ok 0) after ∧
      Runs (first ++ "\n" ++ "f+") .empty (.error (.unexpected ⟨"+", ⟨3, 2⟩⟩)) after := by
  intro first
  let after := Env.empty.register ⟨"f", [], .braced (.block [.boolean true])⟩
  let ts : List Token := [⟨.identifier, "def", ⟨1, 1⟩⟩, ⟨.identifier, "f", ⟨1, 5⟩⟩,
    ⟨.leftParen, "(", ⟨1, 6⟩⟩, ⟨.rightParen, ")", ⟨1, 7⟩⟩, ⟨.operator, "\x7b", ⟨1, 8⟩⟩,
    ⟨.boolean, "true", ⟨1, 9⟩⟩, ⟨.operator, "\x7d", ⟨1, 13⟩⟩, ⟨.identifier, "f", ⟨2, 1⟩⟩]
  let us : List Token := [⟨.identifier, "f", ⟨1, 1⟩⟩, ⟨.operator, "+", ⟨1, 2⟩⟩]
  have hfirst : lex first = .ok (ts ++ [⟨.semicolon, ";", ⟨2, 2⟩⟩, .finish ⟨2, 3⟩]) := by
    rw [lex_eq_tokensWithin]
    subst first ts
    rfl
  have hsecond : lex "f+" = .ok (us ++ [.finish ⟨1, 3⟩]) := by
    rw [lex_eq_tokensWithin]
    subst us
    rfl
  have hrun : Runs first .empty (.ok 0) after := by
    refine ⟨2, ?_⟩
    rw [run_eq_runFrom hfirst]
    subst ts after
    rfl
  have hrun' : Runs "f+" after (.error (.unexpected ⟨"+", ⟨1, 2⟩⟩)) after := by
    refine ⟨1, ?_⟩
    rw [run_eq_runFrom hsecond]
    subst us after
    rfl
  have hwhole := (runs_pieces (.fresh _) hfirst rfl hsecond (by simp [us]) rfl).1 _ hrun
    (.error (.unexpected ⟨"+", ⟨3, 2⟩⟩)) after
  refine ⟨after, hrun, hwhole.mpr ⟨_, hrun', ?_⟩⟩
  subst first
  rfl

end Session
end Abacus
