import Abacus.Command
import Abacus.Proofs.Session.Pieces
import Abacus.Proofs.Token.Covering

/-!
# `Command.LineByLine` — calculating a script line by line is running it

`calcLines` gives each line to a scanner and a parser of its own; `Session.run` gives them the whole script. Where
every line ends with a semicolon and succeeds, both lead to the same state of the program.

The argument goes down the script, line by line (`lines_induction`). At the start of a line the tokens that are left
are those of the line, as far down as it stands, and then those of the lines behind it (`tokens_line`); a line is run
where it stands as it is run by itself (`runFrom_line`). Blank lines are not calculated. Whether a line is blank is
said with more white space than the scanner passes, but a script with any of the rest in a blank line does not scan
(`isBlank_of_tokens`).

## Contents
- `LineEnd`, `lines_induction` — a text, line by line;
- `tokens_line` — the tokens of a line, and of the text behind it;
- `runFrom_line` — one line of a run;
- `LinesSucceed`, `runFrom_lines` — all lines of a run.
-/

namespace Abacus

open Parse (State)
open Scanner (tokens)

/-! ## Lines of a text -/

/-- What ends a line, and what follows it: a line break and any text, or the end of the text. -/
inductive LineEnd : List Char → List Char → Prop where
  | feed (rest : List Char) : LineEnd ['\n'] rest
  | returnFeed (rest : List Char) : LineEnd ['\r', '\n'] rest
  | finish : LineEnd [] []

namespace LineEnd

variable {lineEnd rest : List Char} (h : LineEnd lineEnd rest)

include h

theorem blanks : ∀ c ∈ lineEnd, isBlank c = true := by
  cases h <;> simp [isBlank]

/-- No lexeme continues behind a line. -/
theorem stops : Stops (lineEnd ++ rest) := by
  cases h with
  | feed rest => exact .cons (by decide)
  | returnFeed rest => exact .cons (by decide)
  | finish => exact nofun

/-- If anything follows a line, it begins one line further down. -/
theorem advance {line : List Char} (hline : '\n' ∉ line) (hrest : rest ≠ []) (k : Nat) :
    (Position.start.shift k).advance (line ++ lineEnd) = Position.start.shift (k + 1) := by
  have hbreak : ∀ front : List Char, '\n' ∉ front →
      (Position.start.shift k).advance (front ++ ['\n']) = Position.start.shift (k + 1) := by
    intro front hfront
    rw [Position.advance_append, Position.advance_shift, Position.advance_cons, Position.advance_nil,
      Position.step_shift, Position.step_advance_start, List.count_eq_zero.mpr hfront]
    simp only [Position.shift, Position.mk.injEq, and_true]
    omega
  cases h with
  | feed rest => exact hbreak line hline
  | returnFeed rest =>
      have hreturn : '\n' ∉ line ++ ['\r'] := by simpa using hline
      rw [show line ++ ['\r', '\n'] = (line ++ ['\r']) ++ ['\n'] by simp]
      exact hbreak _ hreturn
  | finish => exact absurd rfl hrest

end LineEnd

/-- A text is empty, or a first line and the lines of the text behind it. -/
theorem splitLines_cases (cs : List Char) :
    cs = [] ∨ ∃ line lineEnd rest, cs = line ++ lineEnd ++ rest ∧ '\n' ∉ line ∧ LineEnd lineEnd rest ∧
      rest.length < cs.length ∧ splitLines cs = line :: splitLines rest := by
  fun_induction splitLines cs with
  | case1 => exact .inl rfl
  | case2 rest => exact .inr ⟨[], ['\n'], rest, rfl, by simp, .feed rest, by simp, rfl⟩
  | case3 rest =>
      have hlen : rest.length < ('\r' :: '\n' :: rest).length := by
        rw [List.length_cons, List.length_cons]
        omega
      exact .inr ⟨[], ['\r', '\n'], rest, rfl, by simp, .returnFeed rest, hlen, rfl⟩
  | case4 c rest hfeed _ hlines ih =>
      -- no line is left, so `c` is the last character
      rcases ih with rfl | ⟨line, lineEnd, more, -, -, -, -, hmore⟩
      · have hc : '\n' ≠ c := fun hc => hfeed hc.symm
        exact .inr ⟨[c], [], [], rfl, by simpa using hc, .finish, by simp, rfl⟩
      · rw [hlines] at hmore
        cases hmore
  | case5 c rest hfeed _ line lines hlines ih =>
      rcases ih with rfl | ⟨line', lineEnd, more, hrest, hline, hend, hlen, hmore⟩
      · cases hlines
      · rw [hlines] at hmore
        cases hmore
        have hc : '\n' ≠ c := fun hc => hfeed hc.symm
        refine .inr ⟨c :: line, lineEnd, more, by rw [hrest]; rfl, ?_, hend, ?_, rfl⟩
        · simpa [hc] using hline
        · rw [List.length_cons]
          omega

/-- What holds of no text, and of a line and a text if it holds of the text, holds of every text. -/
theorem lines_induction {P : List Char → Prop} (nil : P [])
    (line : ∀ line lineEnd rest, '\n' ∉ line → LineEnd lineEnd rest →
      splitLines (line ++ lineEnd ++ rest) = line :: splitLines rest → P rest → P (line ++ lineEnd ++ rest))
    (cs : List Char) : P cs := by
  induction hlen : cs.length using Nat.strongRecOn generalizing cs with
  | ind length ih =>
      rcases splitLines_cases cs with rfl | ⟨front, lineEnd, rest, rfl, hfront, hend, hlt, hlines⟩
      · exact nil
      · exact line front lineEnd rest hfront hend hlines (ih rest.length (by omega) rest rfl)

/-! ## Tokens of a line -/

theorem lex_ofList (cs : List Char) : lex (.ofList cs) = tokens ⟨.start, cs⟩ := by
  rw [lex, Scanner.ofString, String.toList_ofList]

/-- Blanks have no tokens. -/
theorem tokens_of_blanks {line : List Char} (h : ∀ c ∈ line, isBlank c = true) :
    tokens ⟨.start, line⟩ = .ok ([] ++ [.finish (Position.start.advance line)]) := by
  conv => lhs; rw [← List.append_nil line]
  rw [Scanner.tokens_append_blanks h, Scanner.tokens_nil, List.nil_append]

/-- **The tokens of a text** are those of its first line by itself, as far down as the line stands, and those of the
text behind the line. -/
theorem tokens_line {line : List Char} {us : List Token} {last : Token}
    (hline : tokens ⟨.start, line⟩ = .ok (us ++ [last])) {lineEnd rest : List Char} (hend : LineEnd lineEnd rest)
    {k : Nat} {ts : List Token} {last' : Token}
    (h : tokens ⟨Position.start.shift k, line ++ lineEnd ++ rest⟩ = .ok (ts ++ [last'])) :
    ∃ more, ts = us.map (Token.shift k) ++ more ∧
      tokens ⟨(Position.start.shift k).advance (line ++ lineEnd), rest⟩ = .ok (more ++ [last']) := by
  obtain ⟨vs, hvs, happend⟩ := tokens_append _ _ (tokens_shift k _ _ hline)
  rw [List.map_append] at hvs
  obtain ⟨rfl, -⟩ := List.append_inj' hvs rfl
  rw [List.append_assoc, happend _ hend.stops, Scanner.tokens_append_blanks hend.blanks, ← Position.advance_append] at h
  cases hrest : tokens ⟨(Position.start.shift k).advance (line ++ lineEnd), rest⟩ with
  | error e =>
      rw [hrest] at h
      cases h
  | ok behind =>
      obtain ⟨more, rfl, -⟩ := tokens_append _ _ hrest
      rw [hrest] at h
      have hts : us.map (Token.shift k) ++ (more ++ _) = ts ++ [last'] := Except.ok.inj h
      rw [← List.append_assoc] at hts
      obtain ⟨rfl, hlast⟩ := List.append_inj' hts rfl
      exact ⟨more, rfl, by rw [hlast]⟩

theorem toNat_lt_of_isNameRest {c : Char} (h : isNameRest c = true) : c.toNat < 128 := by
  delta isNameRest Char.isAlphanum Char.isAlpha Char.isUpper Char.isLower Char.isDigit at h
  simp only [Bool.or_eq_true, Bool.and_eq_true, decide_eq_true_eq, ge_iff_le, UInt32.le_iff_toNat_le] at h
  have hval : c.toNat = c.val.toNat := rfl
  have hupper : 'Z'.val.toNat = 90 := rfl
  have hlower : 'z'.val.toNat = 122 := rfl
  have hdigit : '9'.val.toNat = 57 := rfl
  rcases h with h | rfl
  · omega
  · decide

theorem Lexeme.toNat_lt_of_symbol {c : Char} {cs text : List Char} {kind : Token.Kind}
    (h : symbol c cs = .token kind text) : c.toNat < 128 := by
  have hall : ∀ entry ∈ symbols, entry.1.all (·.toNat < 128) = true := by decide
  have hsymbol : ∃ entry ∈ symbols, c ∈ entry.1 := by
    unfold symbol at h
    split at h
    · next hjoins =>
      exact ⟨_, mem_symbols_of_joinsEquals (Bool.and_eq_true_iff.mp hjoins).1, List.mem_cons_self ..⟩
    · split at h
      · next hkind => exact ⟨_, mem_symbols_of_singleKind? hkind, List.mem_cons_self ..⟩
      · cases h
  obtain ⟨entry, hentry, hc⟩ := hsymbol
  simpa using List.all_eq_true.mp (hall entry hentry) c hc

/-- Only the first 128 characters begin tokens. -/
theorem Lexeme.toNat_lt_of_first {c : Char} {cs text : List Char} {kind : Token.Kind}
    (h : first c cs = .token kind text) : c.toNat < 128 := by
  unfold first at h
  split at h
  · next hdigit => exact toNat_lt_of_isNameRest (isNameRest_of_isDigit hdigit)
  · split at h
    · next hname => exact toNat_lt_of_isNameRest (isNameRest_of_isNameStart hname)
    · exact toNat_lt_of_symbol h

/-- White space among the first 128 characters is passed by the scanner. -/
theorem isBlank_of_isWhiteSpace {c : Char} (h : isWhiteSpace c = true) (hc : c.toNat < 128) :
    isBlank c = true := by
  have hall : ∀ n < 128, isWhiteSpace (Char.ofNat n) = true → isBlank (Char.ofNat n) = true := by decide
  have hofNat := hall c.toNat hc
  rw [Char.ofNat_toNat] at hofNat
  exact hofNat h

/-- In a text that scans, all the white space of a blank line is passed by the scanner. -/
theorem isBlank_of_tokens {line : List Char} (hline : ∀ c ∈ line, isWhiteSpace c = true) {pos : Position}
    {rest : List Char} {ts : List Token} (h : tokens ⟨pos, line ++ rest⟩ = .ok ts) :
    ∀ c ∈ line, isBlank c = true := by
  induction line generalizing pos with
  | nil => simp
  | cons c line ih =>
      have hspace := hline c (List.mem_cons_self ..)
      have hc : isBlank c = true := by
        rw [← Bool.not_eq_false]
        intro hc
        -- it would begin a token, but no other white space does
        obtain ⟨kind, text, more, hfirst, -, -⟩ := Scanner.tokens_cons_eq_ok hc h
        rw [isBlank_of_isWhiteSpace hspace (Lexeme.toNat_lt_of_first hfirst)] at hc
        cases hc
      rw [List.cons_append, Scanner.tokens_blank hc] at h
      refine List.forall_mem_cons.mpr ⟨hc, ?_⟩
      exact ih (fun d hd => hline d (List.mem_cons_of_mem c hd)) h

/-! ## Running a line -/

namespace Session

/-- Where no token is left, a run ends with the value so far. -/
theorem runFrom_nil {v : State} (htokens : v.tokens = []) (hscanned : v.scanned = true) (fuel : Nat) (env : Env)
    (last : Float) : runFrom fuel v env last = some (.ok last, env) := by
  have hfinish : v.current.is .finish = true := by
    rw [State.current, htokens]
    exact Parse.is_iff.mpr v.ends
  rw [runFrom_eq, nextStatement_checked hscanned, if_pos hfinish]

/-- **A line is run where it stands as it is run by itself**, and the run goes on behind it. -/
theorem runFrom_line {line : String} {ts : List Token} {semicolon last : Token}
    (hlex : lex line = .ok (ts ++ [semicolon] ++ [last])) (hsemi : semicolon.kind = .semicolon) {fuel : Nat}
    {env after : Env} {value : Float} (hrun : run fuel line env = some (.ok value, after)) {k : Nat}
    {extra : List Token} {v : State} (htokens : v.tokens = (ts ++ [semicolon]).map (Token.shift k) ++ extra)
    (hscanned : v.scanned = true) (hagree : Agree v env) (sofar : Float) :
    ∃ u : State, u.tokens = extra ∧ u.scanned = true ∧ Agree u after ∧
      runFrom fuel v env sofar = runFrom fuel u after value := by
  obtain ⟨rfl, hwords⟩ := lex_eq_ok hlex
  have hparens := strayParen?_of_run hlex hrun (by simp)
  -- the parser with the tokens of the line only
  let s : State := { v with
    tokens := (ts ++ [semicolon]).map (Token.shift k)
    last := .finish ((Position.start.advance line.toList).shift k)
    ends := rfl }
  have hs : Agree s env := ⟨hagree.known, hagree.queued, hagree.closed, hagree.idle⟩
  have hline : runFrom fuel s env sofar = some (.ok value, after) := by
    rw [runFrom_second (v := s) hlex (by simp) hparens rfl rfl hscanned hs, hrun]
    rfl
  have hextends : Extends extra s v := ⟨htokens, rfl, rfl, hscanned, hscanned⟩
  have hends : Grammar.EndsWith (·.kind = .semicolon) s.tokens [] :=
    ⟨ts.map (Token.shift k), semicolon.shift k, by simp [s], hsemi⟩
  have hwords' : ∀ t ∈ s.tokens, t.kind ≠ .finish := by
    intro t ht
    obtain ⟨t', ht', rfl⟩ := List.mem_map.mp ht
    exact hwords t' ht'
  obtain ⟨u, hu, -, huscanned, huagree, heq⟩ :=
    (runFrom_extends fuel hextends hs (fun _ => hends) hwords' hline).2 value rfl
  exact ⟨u, hu, huscanned, huagree, heq⟩

end Session

/-! ## Running line by line -/

namespace Command

/-- The last token of the line is a semicolon. -/
def EndsWithSemicolon (line : String) : Prop :=
  ∃ ts semicolon last, lex line = .ok (ts ++ [semicolon] ++ [last]) ∧ semicolon.kind = .semicolon

/-- The line scans, all of its statements can be read, and none of them fails. -/
def LineSucceeds (fuel : Nat) (line : String) (env : Env) : Prop :=
  ∃ tokens trace value, lex line = .ok tokens ∧ Session.trace fuel tokens env = some trace ∧
    trace.result = .ok value

/-- Calculated in order, each of the lines succeeds. -/
def LinesSucceed (fuel : Nat) : List String → Env → Prop
  | [], _ => True
  | line :: rest, env => LineSucceeds fuel line env ∧
    ∀ shown after, calcLine fuel line env = some (shown, after) → LinesSucceed fuel rest after

/-- A line that succeeds leads calculating and running to the same state. -/
theorem LineSucceeds.run_eq {fuel : Nat} {line : String} {env : Env} (h : LineSucceeds fuel line env) :
    ∃ shown value after, calcLine fuel line env = some (shown, after) ∧
      Session.run fuel line env = some (.ok value, after) := by
  obtain ⟨tokens, trace, value, hlex, htrace, hvalue⟩ := h
  refine ⟨traceLines trace, value, trace.final, ?_, ?_⟩
  · rw [calcLine, hlex]
    simp only [htrace, Option.map_some]
  · rw [Session.run, hlex]
    simp only [htrace, Option.map_some, hvalue]

/-- The lines of a text that are calculated. -/
def calculated (cs : List Char) : List String := ((splitLines cs).map .ofList).filter (!isBlankText ·)

/-- **Line by line.** At the start of a line, calculating the lines that are left ends, and the run that has their
tokens before it ends in the same state. -/
theorem runFrom_lines (fuel : Nat) (cs : List Char) {pos : Position}
    (hpos : cs ≠ [] → ∃ k, pos = Position.start.shift k) {ts : List Token} {last : Token}
    (hlex : tokens ⟨pos, cs⟩ = .ok (ts ++ [last])) (hends : ∀ line ∈ calculated cs, EndsWithSemicolon line)
    {env : Env} (hsucceed : LinesSucceed fuel (calculated cs) env) :
    strayParen? 0 ts = none ∧ ∃ shown after, calcLines fuel (calculated cs) env = some (shown, after) ∧
      ∀ v : State, v.tokens = ts → v.scanned = true → Session.Agree v env → ∀ sofar, ∃ value,
        Session.runFrom fuel v env sofar = some (.ok value, after) := by
  induction cs using lines_induction generalizing pos ts env with
  | nil =>
      rw [Scanner.tokens_nil] at hlex
      have hts : [] ++ [Token.finish pos] = ts ++ [last] := Except.ok.inj hlex
      obtain ⟨rfl, -⟩ := List.append_inj' hts rfl
      refine ⟨rfl, [], env, rfl, fun v hv hscanned _ sofar => ?_⟩
      exact ⟨sofar, Session.runFrom_nil hv hscanned fuel env sofar⟩
  | line line lineEnd rest hline hend hlines ih =>
      have hne : line ++ lineEnd ++ rest ≠ [] := by
        intro hnil
        rw [hnil] at hlines
        cases hlines
      obtain ⟨k, rfl⟩ := hpos hne
      have hpos' : rest ≠ [] → ∃ m, (Position.start.shift k).advance (line ++ lineEnd) = Position.start.shift m :=
        fun hrest => ⟨k + 1, hend.advance hline hrest k⟩
      by_cases hblank : isBlankText (.ofList line) = true
      · -- not calculated, and without tokens
        have hspace : ∀ c ∈ line, isWhiteSpace c = true := by
          simpa only [isBlankText, String.toList_ofList, List.all_eq_true] using hblank
        have hblanks : ∀ c ∈ line, isBlank c = true := by
          rw [List.append_assoc] at hlex
          exact isBlank_of_tokens hspace hlex
        obtain ⟨more, rfl, hmore⟩ := tokens_line (tokens_of_blanks hblanks) hend hlex
        have hcalculated : calculated (line ++ lineEnd ++ rest) = calculated rest := by
          rw [calculated, hlines, List.map_cons, List.filter_cons, hblank]
          rfl
        rw [hcalculated] at hends hsucceed ⊢
        exact ih hpos' hmore hends hsucceed
      · have hcalculated : calculated (line ++ lineEnd ++ rest) = .ofList line :: calculated rest := by
          rw [calculated, hlines, List.map_cons, List.filter_cons, if_pos (by simpa using hblank)]
          rfl
        rw [hcalculated] at hends hsucceed ⊢
        obtain ⟨⟨us, semicolon, last', hfirst, hsemi⟩, hends⟩ := List.forall_mem_cons.mp hends
        obtain ⟨shown, value, after, hcalc, hrun⟩ := hsucceed.1.run_eq
        obtain ⟨more, rfl, hmore⟩ := tokens_line (lex_ofList line ▸ hfirst) hend hlex
        obtain ⟨hparens, others, final, hothers, hbehind⟩ :=
          ih hpos' hmore hends (hsucceed.2 shown after hcalc)
        obtain ⟨rfl, -⟩ := Session.lex_eq_ok hfirst
        have hstray := Session.strayParen?_of_run hfirst hrun (by simp)
        refine ⟨strayParen?_append (strayParen?_shift k hstray) hparens, shown ++ others, final, ?_, ?_⟩
        · rw [calcLines, hcalc]
          simp [hothers]
        · intro v hv hscanned hagree sofar
          obtain ⟨u, hu, huscanned, huagree, heq⟩ :=
            Session.runFrom_line hfirst hsemi hrun hv hscanned hagree sofar
          rw [heq]
          exact hbehind u hu huscanned huagree value

/-- **Calculating a script line by line is running it.** From a fresh state, let the script scan, let each line that is
not blank end with a semicolon, and let each of them succeed. Then running the whole script succeeds, and it ends in the
state that calculating its lines ends in: the same numbers, arrays and functions, and the same printed lines. -/
theorem run_agrees_with_calcLines {fuel : Nat} {script : String} {sink : Sink} {ts : List Token}
    (hlex : lex script = .ok ts)
    (hends : ∀ line ∈ linesOf script, isBlankText line = false → EndsWithSemicolon line)
    (hsucceed : LinesSucceed fuel ((linesOf script).filter (!isBlankText ·)) (.ofSink sink)) :
    ∃ shown value after,
      calcLines fuel ((linesOf script).filter (!isBlankText ·)) (.ofSink sink) = some (shown, after) ∧
      Session.run fuel script (.ofSink sink) = some (.ok value, after) := by
  obtain ⟨us, rfl, -⟩ := tokens_append _ _ hlex
  have hends' : ∀ line ∈ calculated script.toList, EndsWithSemicolon line := by
    intro line hline
    obtain ⟨hmem, hblank⟩ := List.mem_filter.mp hline
    exact hends line hmem (by simpa using hblank)
  obtain ⟨hparens, shown, after, hcalc, hrun⟩ :=
    runFrom_lines fuel script.toList (fun _ => ⟨0, rfl⟩) hlex hends' hsucceed
  obtain ⟨hclosed, hidle⟩ := (Session.Reachable.fresh sink).settled
  obtain ⟨value, hvalue⟩ := hrun (parserOf us _ (Env.ofSink sink).functions.names) rfl rfl
    ⟨fun name => Table.contains_names _ name, rfl, hclosed, hidle⟩ 0
  rw [← Session.run_eq_parserOf hlex hparens] at hvalue
  exact ⟨shown, value, after, hcalc, hvalue⟩

/-- A function that is defined and called on one line fills an array that another line prints; the line between them
is blank, and one of the line breaks has a carriage return. -/
theorem run_agrees_with_calcLines_array :
    let script := "def f()\x7ba=[];\x7df();\r\n\t\nprint a;"
    ∃ shown value after,
      calcLines 9 ((linesOf script).filter (!isBlankText ·)) .empty = some (shown, after) ∧
      Session.run 9 script .empty = some (.ok value, after) ∧ after.sink = .accepting #["[]"] := by
  intro script
  let first := "def f()\x7ba=[];\x7df();"
  let second := "print a;"
  let between : Env := { Env.empty with
    arrays := ⟨[("a", #[])]⟩
    functions := ⟨[("f", ⟨⟨"f", [], .braced (.block [.assign "a" (.array [])])⟩, ∅, true⟩)]⟩ }
  let printed : Env := { between with sink := .accepting #["[]"] }
  let ts : List Token := [⟨.identifier, "def", ⟨1, 1⟩⟩, ⟨.identifier, "f", ⟨1, 5⟩⟩, ⟨.leftParen, "(", ⟨1, 6⟩⟩,
    ⟨.rightParen, ")", ⟨1, 7⟩⟩, ⟨.operator, "\x7b", ⟨1, 8⟩⟩, ⟨.identifier, "a", ⟨1, 9⟩⟩, ⟨.assignment, "=", ⟨1, 10⟩⟩,
    ⟨.leftBracket, "[", ⟨1, 11⟩⟩, ⟨.rightBracket, "]", ⟨1, 12⟩⟩, ⟨.semicolon, ";", ⟨1, 13⟩⟩,
    ⟨.operator, "\x7d", ⟨1, 14⟩⟩, ⟨.identifier, "f", ⟨1, 15⟩⟩, ⟨.leftParen, "(", ⟨1, 16⟩⟩, ⟨.rightParen, ")", ⟨1, 17⟩⟩]
  let us : List Token := [⟨.identifier, "print", ⟨1, 1⟩⟩, ⟨.identifier, "a", ⟨1, 7⟩⟩]
  have hlines : linesOf script = [first, "\t", second] := by
    subst script first second
    rfl
  have hfirst : lex first = .ok (ts ++ [⟨.semicolon, ";", ⟨1, 18⟩⟩] ++ [.finish ⟨1, 19⟩]) := by
    rw [lex_eq_tokensWithin]
    subst first ts
    rfl
  have hsecond : lex second = .ok (us ++ [⟨.semicolon, ";", ⟨1, 8⟩⟩] ++ [.finish ⟨1, 9⟩]) := by
    rw [lex_eq_tokensWithin]
    subst second us
    rfl
  have hscript : lex script = .ok (ts ++ [⟨.semicolon, ";", ⟨1, 18⟩⟩, ⟨.identifier, "print", ⟨3, 1⟩⟩,
      ⟨.identifier, "a", ⟨3, 7⟩⟩, ⟨.semicolon, ";", ⟨3, 8⟩⟩, .finish ⟨3, 9⟩]) := by
    rw [lex_eq_tokensWithin]
    subst script ts
    rfl
  let body : Term := .braced (.block [.assign "a" (.array [])])
  let call : List Token := [⟨.identifier, "f", ⟨1, 15⟩⟩, ⟨.leftParen, "(", ⟨1, 16⟩⟩, ⟨.rightParen, ")", ⟨1, 17⟩⟩,
    ⟨.semicolon, ";", ⟨1, 18⟩⟩]
  have hdefine : Parse.nextStatement (.ofTokens (ts ++ [⟨.semicolon, ";", ⟨1, 18⟩⟩] ++ [.finish ⟨1, 19⟩])
      Env.empty.functions.names) =
      (.ok (some ⟨.define "f" [] body, [⟨"f", [], body⟩]⟩), ⟨call, .finish ⟨1, 19⟩, ["f"], [], true, rfl⟩) := by
    subst ts call body
    rfl
  have hcall : Parse.nextStatement ⟨call, .finish ⟨1, 19⟩, ["f"], [], true, rfl⟩ =
      (.ok (some ⟨.call "f" [], []⟩), ⟨[], .finish ⟨1, 19⟩, ["f"], [], true, rfl⟩) := rfl
  let defined := Env.empty.register ⟨"f", [], body⟩
  have hdefined : eval 9 (.define "f" [] body) (Env.empty.registerAll [⟨"f", [], body⟩]) =
      some (.ok 0, defined) := rfl
  have hcalled : eval 9 (.call "f" []) (defined.registerAll []) = some (.ok 0, between) := rfl
  have hfirstRun : Session.runFrom 9 (.ofTokens (ts ++ [⟨.semicolon, ";", ⟨1, 18⟩⟩] ++ [.finish ⟨1, 19⟩])
      Env.empty.functions.names) .empty 0 = some (.ok 0, between) := by
    rw [Session.runFrom_of_value hdefine hdefined, Session.runFrom_of_value hcall hcalled]
    rfl
  have hsecondRun : Session.runFrom 9 (.ofTokens (us ++ [⟨.semicolon, ";", ⟨1, 8⟩⟩] ++ [.finish ⟨1, 9⟩])
      between.functions.names) between 0 = some (.ok 0, printed) := by
    subst us between printed
    rfl
  obtain ⟨trace, htrace, hvalue, hbetween⟩ := Session.trace_of_runFrom hfirstRun
  obtain ⟨trace', htrace', hvalue', hprinted⟩ := Session.trace_of_runFrom hsecondRun
  have hsink : trace'.final.sink = .accepting #["[]"] := congrArg Env.sink hprinted
  have hcalc : calcLine 9 first .empty = some (traceLines trace, between) := by
    rw [calcLine, hfirst]
    simp only [htrace, Option.map_some, hbetween]
  have hcalc' : calcLine 9 second between = some (traceLines trace', trace'.final) := by
    rw [calcLine, hsecond]
    simp only [htrace', Option.map_some]
  have hcalculated : (linesOf script).filter (!isBlankText ·) = [first, second] := by
    rw [hlines]
    subst first second
    rfl
  have hends : ∀ line ∈ linesOf script, isBlankText line = false → EndsWithSemicolon line := by
    intro line hline hblank
    have hmem : line ∈ (linesOf script).filter (!isBlankText ·) := List.mem_filter.mpr ⟨hline, by simp [hblank]⟩
    rw [hcalculated, List.mem_pair] at hmem
    rcases hmem with rfl | rfl
    · exact ⟨ts, _, _, hfirst, rfl⟩
    · exact ⟨us, _, _, hsecond, rfl⟩
  have hsucceed : LinesSucceed 9 ((linesOf script).filter (!isBlankText ·)) .empty := by
    rw [hcalculated]
    refine ⟨⟨_, trace, 0, hfirst, htrace, hvalue⟩, fun shown after hafter => ?_⟩
    rw [hcalc] at hafter
    cases hafter
    exact ⟨⟨_, trace', 0, hsecond, htrace', hvalue'⟩, fun _ _ _ => trivial⟩
  have hboth : calcLines 9 [first, second] .empty =
      some (traceLines trace ++ (traceLines trace' ++ []), trace'.final) := by
    simp only [calcLines, hcalc, hcalc', Option.bind_some, bind, pure]
  obtain ⟨shown, value, after, hlinesCalc, hrun⟩ := run_agrees_with_calcLines hscript hends hsucceed
  refine ⟨shown, value, after, hlinesCalc, hrun, ?_⟩
  rw [hcalculated] at hlinesCalc
  cases hboth.symm.trans hlinesCalc
  exact hsink

end Command
end Abacus
