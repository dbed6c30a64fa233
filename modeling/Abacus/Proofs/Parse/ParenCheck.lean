import Abacus.Proofs.Grammar.Parentheses
import Abacus.Proofs.Parse.Calls

/-!
# `Parse.ParenCheck` — the check of the parentheses rejects nothing that can be read

Before the first statement all tokens are searched for a closing parenthesis that closes nothing. The search only
counts, and the grammar has parentheses in calls, groups and parameters, between brackets and braces; still, a program
that the check turns away could not have been read anyway. The check only makes it fail earlier, before any of it runs.

Two facts are behind this. What a statement passes is well nested (`Statement.nestedUpTo`). And what a statement passes
before it **fails** can be continued to a statement that succeeds (`FirstMisfit.completed`), so no parenthesis in it is
stray either: a reader that meets the stray one stops there at the latest.

## Contents
- `unscanned` — all statements, without the check;
- `statement_passes`, `unscanned_passes` — no stray parenthesis is passed, whatever the outcome;
- `Orderly.checked_eq` — whether the check has been made is nothing a rule can see.
-/

namespace Abacus
namespace Parse

variable {α : Type}

/-! ## Reading without the check -/

/-- A statement, unless the program ends, and then `more` of them. -/
def unscannedStep (more : Unit → Parse (List Term)) (_ : Unit) : Parse (List Term) := do
  if (← look).is .finish then
    return []
  else
    let head ← statement
    let tail ← more ()
    return head :: tail

/-- All statements up to the end of the program, one after the other, with no check in front of them. -/
def unscanned : Parse (List Term) := recurse unscannedStep ()

theorem unscannedStep_follows {S : Simulation} {n : Nat} {f g : Unit → Parse (List Term)}
    (hfg : ∀ u, Follows S anyToken 0 (n - 1) (f u) (g u)) (u : Unit) :
    Follows S anyToken 0 n (unscannedStep f u) (unscannedStep g u) := by
  refine .look fun a b hkind _ => ?_
  rw [show b.is .finish = a.is .finish from by simp [Token.is, hkind]]
  split
  · exact .pure _
  · have hread : Follows S anyToken 1 n (do return (← statement) :: (← f ()))
        (do return (← statement) :: (← g ())) :=
      statement_follows.seq fun head => (hfg ()).andThen fun tail => .pure _
    exact hread.loose.anywhere

theorem unscanned_orderly : Orderly 0 unscanned :=
  fun _ _ => .recurse (fun _ _ _ _ hfg => unscannedStep_follows hfg) ()

theorem unscanned_eq : unscanned = unscannedStep (fun _ => unscanned) () :=
  recurse_eq (fun _ _ _ hfg => unscannedStep_follows hfg) ()

section Unscanned

variable {s t u : State}

theorem unscanned_finish (h : s.current.kind = .finish) : unscanned s = (.ok [], s) := by
  rw [unscanned_eq]
  show (if s.current.is .finish = true then _ else _ : Parse (List Term)) s = _
  rw [if_pos (is_iff.mpr h)]
  rfl

theorem unscanned_of_not_finish (h : s.current.kind ≠ .finish) :
    unscanned s = (do return (← statement) :: (← unscanned) : Parse (List Term)) s := by
  conv => lhs; rw [unscanned_eq]
  show (if s.current.is .finish = true then _ else _ : Parse (List Term)) s = _
  rw [if_neg fun hfinish => h (is_iff.mp hfinish)]

theorem unscanned_of_error {e : Unexpected} (h : s.current.kind ≠ .finish) (hs : statement s = (.error e, t)) :
    unscanned s = (.error e, t) := by
  rw [unscanned_of_not_finish h, bind_apply, hs]

theorem unscanned_of_ok {n : Term} (h : s.current.kind ≠ .finish) (hs : statement s = (.ok n, t)) :
    unscanned s = (do return n :: (← unscanned) : Parse (List Term)) t := by
  rw [unscanned_of_not_finish h, bind_of_ok hs]

/-- **An induction over the statements that are read**: the program ends, the next statement fails, or it is read and
the rest of the program follows. -/
theorem unscanned_induction {Q : State → Except Unexpected (List Term) → State → Prop}
    (hfinish : ∀ {s}, s.current.kind = .finish → Q s (.ok []) s)
    (herror : ∀ {s t e}, statement s = (.error e, t) → Q s (.error e) t)
    (hok : ∀ {s t u n r}, statement s = (.ok n, t) → Q t r u → Q s (r.map (n :: ·)) u)
    (s : State) : Q s (unscanned s).1 (unscanned s).2 := by
  induction hlen : s.tokens.length using Nat.strongRecOn generalizing s with
  | ind length ih =>
      by_cases hend : s.current.kind = .finish
      · rw [unscanned_finish hend]
        exact hfinish hend
      · cases hs : statement s with
        | mk r t =>
            cases r with
            | error e =>
                rw [unscanned_of_error hend hs]
                exact herror hs
            | ok n =>
                have hlt : t.tokens.length + 1 ≤ s.tokens.length := statement_orderly.passes hs
                have hrest := ih t.tokens.length (by omega) t rfl
                rw [unscanned_of_ok hend hs, bind_apply]
                cases hu : unscanned t with
                | mk r' u =>
                    rw [hu] at hrest
                    have hmapped := hok hs hrest
                    cases r' with
                    | error e => exact hmapped
                    | ok ns => exact hmapped

/-- Reading that succeeds ends where the program does. -/
theorem unscanned_ok_ends {ns : List Term} (h : unscanned s = (.ok ns, u)) : u.current.kind = .finish := by
  have hends := unscanned_induction (Q := fun _ r u => r.toBool = true → u.current.kind = .finish)
    (fun hfinish _ => hfinish) (fun _ hr => by cases hr)
    (fun {_ _ _ _ r} _ ih hr => ih (by cases r <;> exact hr)) s
  rw [h] at hends
  exact hends rfl

/-! ## What is passed -/

/-- What a statement passes is well nested. -/
theorem statement_nested {n : Term} (h : statement s = (.ok n, u)) :
    ∃ front, s.tokens = front ++ u.tokens ∧ WellNested front := by
  obtain ⟨known, defs, rest, rfl, hstatement⟩ := Grammar.statement_gathers h
  exact hstatement.nestedUpTo

/-- What a statement has passed when it fails can be continued to a statement, which does not end before that. -/
theorem statement_completed {e : Unexpected} (h : statement s = (.error e, u)) :
    ∃ passed more n v, s.tokens = passed ++ u.tokens ∧ statement (s.withTokens (passed ++ more)) = (.ok n, v) ∧
      v.tokens.length ≤ more.length := by
  have hmisfit : ∀ s' : State, FirstMisfit statement s' 0 := fun s' =>
    .of_orderly statement_orderly statement_starts statement_resumes (Nat.zero_le _)
  obtain ⟨j, hj⟩ := statement_orderly.stopsAt (Nat.zero_le s.tokens.length) h
  obtain ⟨more, k, n, v, hk⟩ := (hmisfit s).completed hj
  have hlen : (s.tokens.take j).length = j := List.length_take_of_le hj.inside
  -- stopping earlier, at a token that both share, it would have stopped there in the first place
  have hle : j ≤ k := by
    apply Nat.le_of_not_lt
    intro hlt
    have htake : s.ahead.take (k + 1) = (s.withTokens (s.tokens.take j ++ more)).ahead.take (k + 1) := by
      have hinside := hj.inside
      show (s.tokens ++ [s.last]).take (k + 1) = ((s.tokens.take j ++ more) ++ [s.last]).take (k + 1)
      rw [List.append_assoc, List.take_append_of_le_length (by omega),
        List.take_append_of_le_length (by omega), List.take_take, Nat.min_eq_left hlt]
    obtain ⟨w, hw, -⟩ := (hmisfit _).decided hk s rfl rfl rfl htake
    cases hw.result.symm.trans hj.result
  refine ⟨s.tokens.take j, more, n, v, ?_, hk.result, ?_⟩
  · rw [hj.tokens_eq, List.take_append_drop]
  · rw [hk.tokens_eq, State.withTokens_tokens, List.length_drop, List.length_append, hlen]
    omega

/-- **No stray parenthesis is passed**, not even by a statement that fails. -/
theorem statement_passes {r : Except Unexpected Term} (h : statement s = (r, u)) :
    ∃ passed, s.tokens = passed ++ u.tokens ∧ strayParen? 0 passed = none := by
  cases r with
  | ok n =>
      obtain ⟨front, hfront, hnested⟩ := statement_nested h
      exact ⟨front, hfront, hnested.strayParen?_eq_none⟩
  | error e =>
      obtain ⟨passed, more, n, v, hpassed, hcompleted, hle⟩ := statement_completed h
      obtain ⟨front, hfront, hnested⟩ := statement_nested hcompleted
      rw [State.withTokens_tokens] at hfront
      -- the tokens passed are the first of those of the completed statement
      obtain ⟨others, rfl⟩ : passed <+: front := by
        refine List.prefix_of_prefix_length_le ⟨more, hfront⟩ ⟨v.tokens, rfl⟩ ?_
        have hlen := congrArg List.length hfront
        rw [List.length_append, List.length_append] at hlen
        omega
      exact ⟨passed, hpassed, strayParen?_front hnested.strayParen?_eq_none⟩

/-- Reading without the check passes no stray parenthesis, however far it comes. -/
theorem unscanned_passes {r : Except Unexpected (List Term)} (h : unscanned s = (r, u)) :
    ∃ passed, s.tokens = passed ++ u.tokens ∧ strayParen? 0 passed = none := by
  have hpasses := unscanned_induction
    (Q := fun s _ u => ∃ passed, s.tokens = passed ++ u.tokens ∧ strayParen? 0 passed = none)
    (fun _ => ⟨[], rfl, rfl⟩) statement_passes ?_ s
  · rw [h] at hpasses
    exact hpasses
  · rintro s t u n r hs ⟨passed, hpassed, hnone⟩
    obtain ⟨front, hfront, hnested⟩ := statement_nested hs
    refine ⟨front ++ passed, ?_, ?_⟩
    · rw [hfront, hpassed, List.append_assoc]
    · rw [hnested.strayParen?_append]
      exact hnone

end Unscanned

/-! ## With and without the check -/

/-- States that differ in whether the parentheses have been checked. -/
def checkedToo : Simulation where
  rel s t := t = s.checked
  done _ := False
  done_suffix h _ := h
  kind h := by rw [h]; rfl
  text h := by rw [h]; rfl
  known h _ := by rw [h]; rfl
  next h _ := .inr (by rw [h]; rfl)
  learn h _ := by rw [h]; rfl
  enqueue h _ := by rw [h]; rfl
  shorter h h' hlt := by rw [h, h']; exact hlt

/-- No rule can see whether the parentheses have been checked. -/
theorem Orderly.checked_eq {k : Nat} {p : Parse α} (h : Orderly k p) (s : State) :
    p s.checked = ((p s).1, (p s).2.checked) := by
  have hmatch : checkedToo.Matches (p s) (p s.checked) :=
    (h checkedToo (s.tokens.length + 1)).outcome rfl trivial (Nat.lt_succ_self _)
  generalize p s = x, p s.checked = y at hmatch
  cases hmatch with
  | done hd => exact absurd hd id
  | ok hr => rw [show _ = _ from hr]
  | error hr =>
      rw [show _ = _ from hr]
      rfl

/-- A round of `all` behind the check is a round of `unscanned`. -/
theorem allStep_checked {f g : Unit → Parse (List Term)} {s : State}
    (h : ∀ t : State, f () t.checked = g () t.checked) : allStep f () s.checked = unscannedStep g () s.checked := by
  unfold allStep unscannedStep
  rw [bind_apply, next_checked rfl, look_bind]
  by_cases hend : s.checked.current.is .finish = true
  · rw [if_pos hend, if_pos hend]
  · rw [if_neg hend, if_neg hend, bind_apply, statement_orderly.checked_eq]
    cases (statement s).1 with
    | error e => rfl
    | ok n =>
        show (f () >>= fun tail => pure (n :: tail)) (statement s).2.checked =
          (g () >>= fun tail => pure (n :: tail)) (statement s).2.checked
        rw [bind_apply, bind_apply, h]

theorem all_checked (s : State) : all s.checked = unscanned s.checked := by
  have within : ∀ (bound : List Token) (s : State),
      recurseWithin allStep bound () s.checked = recurseWithin unscannedStep bound () s.checked := by
    intro bound
    induction bound with
    | nil => intro s; exact allStep_checked fun _ => rfl
    | cons t bound ih => intro s; exact allStep_checked ih
  exact within s.tokens s

/-- The check of a new parser. -/
theorem checkParens_unchecked {s : State} (h : s.scanned = false) :
    checkParens s = match strayParen? 0 s.tokens with
      | some t => (.error (.ofToken t), s.checked)
      | none => (.ok (), s.checked) := by
  unfold checkParens
  rw [h]
  rfl

/-- Behind a check that finds nothing, all statements are read as they are without it. -/
theorem all_eq_unscanned {s : State} (h : s.scanned = false) (hnone : strayParen? 0 s.tokens = none) :
    all s = ((unscanned s).1, (unscanned s).2.checked) := by
  have hnext : next s = next s.checked := by
    rw [next_unchecked h, hnone]
  have hround : ∀ f : Unit → Parse (List Term), allStep f () s = allStep f () s.checked := by
    intro f
    unfold allStep
    rw [bind_apply, bind_apply, hnext]
  calc all s = all s.checked := by
        unfold all recurse
        rw [State.checked_tokens]
        cases s.tokens with
        | nil => exact hround _
        | cons t ts => exact hround _
    _ = unscanned s.checked := all_checked s
    _ = ((unscanned s).1, (unscanned s).2.checked) := unscanned_orderly.checked_eq s

theorem all_eq_error {s : State} {t : Token} (h : s.scanned = false) (hsome : strayParen? 0 s.tokens = some t) :
    all s = (.error (.ofToken t), s.checked) := by
  have hround : ∀ f : Unit → Parse (List Term), allStep f () s = (.error (.ofToken t), s.checked) := by
    intro f
    unfold allStep
    rw [bind_apply, next_unchecked h, hsome]
  unfold all recurse
  cases s.tokens with
  | nil => exact hround _
  | cons t ts => exact hround _

section Verdicts

variable {s : State} (hbody : ∀ t ∈ s.tokens, t.kind ≠ .finish)

include hbody

/-- Where only the last token ends the program, reading that succeeds has passed all others. -/
theorem strayParen?_of_unscanned {u : State} {ns : List Term} (h : unscanned s = (.ok ns, u)) :
    strayParen? 0 s.tokens = none := by
  obtain ⟨passed, hpassed, hnone⟩ := unscanned_passes h
  have hnil : u.tokens = [] := by
    by_cases hu : u.tokens = []
    · exact hu
    · obtain ⟨t, ts, hts⟩ := List.exists_cons_of_ne_nil hu
      have hend := unscanned_ok_ends h
      rw [State.current_eq hts] at hend
      exact absurd hend (hbody t (by rw [hpassed, hts]; simp))
  rw [hpassed, hnil, List.append_nil]
  exact hnone

/-- **At the first stray parenthesis reading stops at the latest.** -/
theorem unscanned_of_stray {front rest : List Token} {t : Token} (htokens : s.tokens = front ++ t :: rest)
    (hstray : Stray front t) : ∃ e u, unscanned s = (.error e, u) ∧ cursorIn s u ≤ front.length := by
  have hfront : strayParen? 0 (front ++ [t]) ≠ none := by
    intro hnone
    exact strayParen?_eq_none_iff.mp hnone ⟨front, t, [], rfl, hstray⟩
  cases hread : unscanned s with
  | mk r u =>
      cases r with
      | ok ns =>
          have hnone := strayParen?_of_unscanned hbody hread
          rw [htokens, List.append_cons] at hnone
          exact absurd (strayParen?_front hnone) hfront
      | error e =>
          refine ⟨e, u, rfl, ?_⟩
          obtain ⟨passed, hpassed, hnone⟩ := unscanned_passes hread
          have hlen := congrArg List.length hpassed
          rw [List.length_append] at hlen
          -- otherwise the stray parenthesis would have been passed
          apply Nat.le_of_not_lt
          intro hlt
          simp only [cursorIn, State.length_ahead] at hlt
          obtain ⟨others, rfl⟩ : front ++ [t] <+: passed := by
            refine List.prefix_of_prefix_length_le ⟨rest, ?_⟩ ⟨u.tokens, rfl⟩ ?_
            · rw [← List.append_cons, ← htokens, hpassed]
            · rw [List.length_append, List.length_singleton]
              omega
          exact hfront (strayParen?_front hnone)

end Verdicts

/-- **The check of the parentheses changes when a program is rejected, never whether.** Let only the last token end the
program. What a statement passes that is read, from any cursor, is well nested. If all statements can be read without
the check, it finds nothing. If it fails, at the first stray parenthesis, then reading without it fails as well, at this
token or in front of it. So all statements are read with the check if and only if they are without it, and they are the
same ones. -/
theorem check_rejects_only_unreadable (body : List Token) (last : Token) (known : List String)
    (hlast : last.kind = .finish) (hbody : ∀ t ∈ body, t.kind ≠ .finish) :
    let start := State.ofTokens (body ++ [last]) known
    (∀ s n u, statement s = (.ok n, u) → ∃ front, s.ahead = front ++ u.ahead ∧ WellNested front) ∧
    (∀ ns u, unscanned start = (.ok ns, u) → checkParens start = (.ok (), start.checked)) ∧
    (∀ e v, checkParens start = (.error e, v) →
      ∃ front t rest, body = front ++ t :: rest ∧ e = .ofToken t ∧ Stray front t ∧ ¬HasStray front ∧
        ∃ e' u, unscanned start = (.error e', u) ∧ cursorIn start u ≤ front.length) ∧
    ∀ ns v, all start = (.ok ns, v) ↔ ∃ u, unscanned start = (.ok ns, u) ∧ v = u.checked := by
  intro start
  have hstart : start = { tokens := body, last, known, queued := [], scanned := false, ends := hlast } :=
    ofTokens_concat body hlast known
  have htokens : start.tokens = body := by rw [hstart]
  have hscanned : start.scanned = false := by rw [hstart]
  have hinside : ∀ t ∈ start.tokens, t.kind ≠ .finish := by rw [htokens]; exact hbody
  refine ⟨?_, ?_, ?_, ?_⟩
  · intro s n u h
    obtain ⟨front, hfront, hnested⟩ := statement_nested h
    have hkeeps : u.last = s.last := by
      rw [← statement_orderly.last s, h]
    refine ⟨front, ?_, hnested⟩
    rw [State.ahead, State.ahead, hfront, hkeeps, List.append_assoc]
  · intro ns u h
    rw [checkParens_unchecked hscanned, strayParen?_of_unscanned hinside h]
  · intro e v h
    rw [checkParens_unchecked hscanned, htokens] at h
    cases hfound : strayParen? 0 body with
    | none => rw [hfound] at h; cases h
    | some t =>
        rw [hfound] at h
        cases h
        obtain ⟨front, rest, hsplit, hstray, hfirst⟩ := strayParen?_eq_some_iff.mp hfound
        exact ⟨front, t, rest, hsplit, rfl, hstray, hfirst,
          unscanned_of_stray hinside (htokens.trans hsplit) hstray⟩
  · intro ns v
    constructor
    · intro h
      cases hfound : strayParen? 0 start.tokens with
      | none =>
          rw [all_eq_unscanned hscanned hfound] at h
          injection h with hr hv
          exact ⟨(unscanned start).2, Prod.ext hr rfl, hv.symm⟩
      | some t =>
          rw [all_eq_error hscanned hfound] at h
          cases h
    · rintro ⟨u, hread, rfl⟩
      rw [all_eq_unscanned hscanned (strayParen?_of_unscanned hinside hread), hread]

/-- `print (true; ))` fails at its last parenthesis, which closes nothing, before it is read; read without the check it
fails in front of that, where the first parenthesis should have been closed. -/
theorem check_rejects_only_unreadable_earlier :
    let body : List Token := [⟨.identifier, "print", ⟨1, 1⟩⟩, ⟨.leftParen, "(", ⟨1, 7⟩⟩, ⟨.boolean, "true", ⟨1, 8⟩⟩,
      ⟨.semicolon, ";", ⟨1, 12⟩⟩, ⟨.rightParen, ")", ⟨1, 14⟩⟩, ⟨.rightParen, ")", ⟨1, 15⟩⟩]
    let start := State.ofTokens (body ++ [.finish ⟨1, 16⟩]) []
    checkParens start = (.error ⟨")", ⟨1, 15⟩⟩, start.checked) ∧
      ∃ front t rest, body = front ++ t :: rest ∧ t.pos = ⟨1, 15⟩ ∧
        ∃ e u, unscanned start = (.error e, u) ∧ cursorIn start u ≤ front.length := by
  intro body start
  have hcheck : checkParens start = (.error ⟨")", ⟨1, 15⟩⟩, start.checked) := by rfl
  have hbody : ∀ t ∈ body, t.kind ≠ .finish := by decide
  obtain ⟨front, t, rest, hsplit, herror, -, -, hread⟩ :=
    (check_rejects_only_unreadable body (.finish ⟨1, 16⟩) [] rfl hbody).2.2.1 _ _ hcheck
  exact ⟨hcheck, front, t, rest, hsplit, (congrArg Unexpected.pos herror).symm, hread⟩

end Parse
end Abacus
