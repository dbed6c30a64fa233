import Mathlib.Data.List.DropRight
import Mathlib.Data.Prod.Lex
import Abacus.Proofs.Token.LongestMatch

/-!
# `Token.Covering` — calls of the scanner cover the text

A text is blanks and lexemes in turn, and blanks at the end. Each call of the scanner gives the next lexeme, or the
failure it stands for, and goes on behind it also when it has failed; once the lexemes are used up, `END` comes again
and again. Every result names the place of its lexeme, which the text in front of it determines (`placeBehind`).

## Contents
- `placeBehind`, `Position.key` — places, and their order;
- `Factored` — a text as blanks and lexemes, with the result of each lexeme;
- `Scanner.call` — calls one after the other;
- `Scans` — calls and tokens against a list of results.
-/

namespace Abacus

open Scanner (tokens)

/-! ## Places -/

/-- The place behind a text: its line breaks count the lines, and the characters behind the last of them the columns. -/
def placeBehind (text : List Char) : Position :=
  ⟨1 + text.count '\n', 1 + (text.rtakeWhile (· ≠ '\n')).length⟩

theorem placeBehind_concat (text : List Char) (c : Char) :
    placeBehind (text ++ [c]) = (placeBehind text).step c := by
  unfold placeBehind Position.step
  rw [List.count_append, List.rtakeWhile_concat]
  by_cases hc : c = '\n'
  · subst hc
    simp [Nat.add_assoc]
  · simp [hc, Nat.add_assoc]

/-- Passing a text character by character leads to the place behind it. -/
theorem advance_placeBehind (front text : List Char) :
    (placeBehind front).advance text = placeBehind (front ++ text) := by
  induction text generalizing front with
  | nil => rw [Position.advance_nil, List.append_nil]
  | cons c text ih => rw [Position.advance_cons, ← placeBehind_concat, ih, List.append_assoc]; rfl

theorem placeBehind_nil : placeBehind [] = .start := rfl

/-- Places in the order of lines, and of columns on one line. -/
def Position.key (pos : Position) : ℕ ×ₗ ℕ := toLex (pos.line, pos.column)

/-- Every character moves the place on, a line break to the next line. -/
theorem Position.key_lt_step (pos : Position) (c : Char) : pos.key < (pos.step c).key := by
  unfold key step
  rw [Prod.Lex.toLex_lt_toLex]
  split
  · exact .inl (Nat.lt_succ_self _)
  · exact .inr ⟨rfl, Nat.lt_succ_self _⟩

/-- More text leads further. -/
theorem placeBehind_le (front text : List Char) : (placeBehind front).key ≤ (placeBehind (front ++ text)).key := by
  induction text using List.reverseRecOn with
  | nil => rw [List.append_nil]
  | append_singleton text c ih =>
      rw [← List.append_assoc, placeBehind_concat]
      exact le_trans ih (Position.key_lt_step _ c).le

/-- Whoever passes a character moves on. -/
theorem placeBehind_lt (front : List Char) {text : List Char} (h : text ≠ []) :
    (placeBehind front).key < (placeBehind (front ++ text)).key := by
  cases text with
  | nil => exact absurd rfl h
  | cons c text =>
      have hstep : (placeBehind front).key < (placeBehind (front ++ [c])).key := by
        rw [placeBehind_concat]
        exact Position.key_lt_step _ c
      have hrest := placeBehind_le (front ++ [c]) text
      rw [List.append_assoc] at hrest
      exact lt_of_lt_of_le hstep hrest

/-! ## Factored texts -/

/-- What a lexeme behind the text `front` gives. A number that breaks off fails behind its point. -/
def Lexeme.report (front : List Char) : Lexeme → Except SyntaxError Token
  | token kind text => .ok ⟨kind, .ofList text, placeBehind front⟩
  | refused _ => .error ⟨placeBehind front⟩
  | dangling text => .error ⟨placeBehind (front ++ text)⟩

theorem Lexeme.result_placeBehind (front : List Char) (lexeme : Lexeme) :
    lexeme.result (placeBehind front) = lexeme.report front := by
  cases lexeme with
  | token kind text => rfl
  | refused c => rfl
  | dangling text => rw [result, advance_placeBehind]; rfl

/-- Behind `front`, the text is blanks and lexemes in turn with blanks at the end, and the results are those of the
lexemes. Each lexeme is the longest one where it stands. -/
inductive Factored : List Char → List Char → List (Except SyntaxError Token) → Prop where
  | blanks {front text : List Char} : (∀ c ∈ text, isBlank c = true) → Factored front text []
  | lexeme {front blanks rest : List Char} {lexeme : Lexeme} {results : List (Except SyntaxError Token)} :
      (∀ c ∈ blanks, isBlank c = true) → lexeme.chars ≠ [] → Longest lexeme (lexeme.chars ++ rest) →
      Factored (front ++ (blanks ++ lexeme.chars)) rest results →
      Factored front (blanks ++ (lexeme.chars ++ rest)) (lexeme.report (front ++ blanks) :: results)

/-- The tokens of a text come one behind the other, and `END` behind all of them. -/
theorem Factored.increasing {front text : List Char} {results : List (Except SyntaxError Token)}
    (h : Factored front text results) {ts : List Token} (hts : results = ts.map .ok) :
    (∀ t ∈ ts, (placeBehind front).key ≤ t.pos.key) ∧
      (ts ++ [Token.finish (placeBehind (front ++ text))]).Pairwise (fun t u => t.pos.key < u.pos.key) := by
  induction h generalizing ts with
  | blanks _ =>
      cases List.map_eq_nil_iff.mp hts.symm
      simp
  | @lexeme front blanks rest lexeme results hblanks hne hlongest hrest ih =>
      cases ts with
      | nil => cases hts
      | cons t ts =>
          obtain ⟨ht, hts⟩ := List.cons.inj hts
          obtain ⟨hle, hpairs⟩ := ih hts
          cases lexeme with
          | refused c => cases ht
          | dangling cs => cases ht
          | token kind cs =>
              cases ht
              have hfront := placeBehind_le front blanks
              have hbehind := placeBehind_lt (front ++ blanks) hne
              rw [List.append_assoc] at hbehind
              have hwhole := placeBehind_le (front ++ (blanks ++ cs)) rest
              have hsame : front ++ (blanks ++ ((Lexeme.token kind cs).chars ++ rest)) =
                  front ++ (blanks ++ cs) ++ rest := by
                simp [Lexeme.chars]
              rw [hsame]
              refine ⟨List.forall_mem_cons.mpr ⟨hfront, fun u hu => ?_⟩, ?_⟩
              · exact le_trans hfront (le_trans hbehind.le (hle u hu))
              · rw [List.cons_append, List.pairwise_cons]
                refine ⟨fun u hu => ?_, hpairs⟩
                rcases List.mem_append.mp hu with hu | hu
                · exact lt_of_lt_of_le hbehind (hle u hu)
                · rw [List.mem_singleton.mp hu]
                  exact lt_of_lt_of_le hbehind hwhole

/-! ## Calls -/

namespace Scanner

/-- The scanner behind some calls. -/
def afterCalls (scanner : Scanner) : Nat → Scanner
  | 0 => scanner
  | n + 1 => scanner.next.2.afterCalls n

/-- The result of a call behind `n` others. -/
def call (scanner : Scanner) (n : Nat) : Except SyntaxError Token := (scanner.afterCalls n).next.1

theorem call_zero (scanner : Scanner) : scanner.call 0 = scanner.next.1 := rfl

theorem call_succ (scanner : Scanner) (n : Nat) : scanner.call (n + 1) = scanner.next.2.call n := rfl

/-- At the end of the text the scanner stays where it is. -/
theorem call_nil (pos : Position) (n : Nat) : call ⟨pos, []⟩ n = .ok (.finish pos) := by
  induction n with
  | zero => rfl
  | succ n ih => exact ih

section Blanks

variable {pos : Position} {blanks : List Char} (h : ∀ c ∈ blanks, isBlank c = true)

include h

/-- Blanks are passed up to the first character that is none. -/
theorem skipBlanks_append {text : List Char} (htext : ∀ c ∈ text.head?, isBlank c = false) :
    skipBlanks ⟨pos, blanks ++ text⟩ = ⟨pos.advance blanks, text⟩ := by
  rw [skipBlanks, takeWhile_append_run h htext, dropWhile_append_run h htext]

/-- Blanks in front move the tokens, and do nothing else. -/
theorem tokens_append_blanks (text : List Char) :
    tokens ⟨pos, blanks ++ text⟩ = tokens ⟨pos.advance blanks, text⟩ := by
  induction blanks generalizing pos with
  | nil => rfl
  | cons c cs ih =>
      rw [List.forall_mem_cons] at h
      rw [List.cons_append, tokens_blank h.1, ih h.2]
      rfl

/-- A text of blanks has nothing but its end. -/
theorem next_blanks : next ⟨pos, blanks⟩ = (.ok (.finish (pos.advance blanks)), ⟨pos.advance blanks, []⟩) := by
  have hskip : skipBlanks ⟨pos, blanks ++ []⟩ = ⟨pos.advance blanks, []⟩ := skipBlanks_append h (by simp)
  rw [List.append_nil] at hskip
  simp only [next, hskip]

/-- Behind the blanks the longest lexeme is taken, and its place is there. -/
theorem next_lexeme {c : Char} {cs : List Char} (hc : isBlank c = false) :
    next ⟨pos, blanks ++ c :: cs⟩ = ((Lexeme.first c cs).result (pos.advance blanks),
      pass ⟨pos.advance blanks, c :: cs⟩ (Lexeme.first c cs)) := by
  have hskip : skipBlanks ⟨pos, blanks ++ c :: cs⟩ = ⟨pos.advance blanks, c :: cs⟩ :=
    skipBlanks_append h (by simpa using hc)
  simp only [next, hskip]

end Blanks

end Scanner

/-! ## Calls and results -/

/-- What the scanner gives from here on: the results, and then `END` at `last`. The tokens of the text are all results,
or break off at the first that is a failure. -/
structure Scans (scanner : Scanner) (last : Position) (results : List (Except SyntaxError Token)) : Prop where
  calls : ∀ i, scanner.call i = results.getD i (.ok (.finish last))
  accepted : ∀ ts, scanner.tokens = .ok ts → ts.map .ok = results ++ [.ok (.finish last)]
  failed : ∀ e, scanner.tokens = .error e → ∃ (ts : List Token) (more : _), results = ts.map .ok ++ .error e :: more

section Scanning

variable {pos last : Position} {blanks : List Char}

/-- The end of the text is reported by every call, at the same place. -/
theorem Scans.of_blanks (h : ∀ c ∈ blanks, isBlank c = true) : Scans ⟨pos, blanks⟩ (pos.advance blanks) [] where
  calls i := by
    cases i with
    | zero => rw [Scanner.call_zero, Scanner.next_blanks h]; rfl
    | succ i => rw [Scanner.call_succ, Scanner.next_blanks h, Scanner.call_nil]; rfl
  accepted ts hts := by
    rw [← List.append_nil blanks, Scanner.tokens_append_blanks h, Scanner.tokens_nil] at hts
    cases hts
    rfl
  failed e he := by
    rw [← List.append_nil blanks, Scanner.tokens_append_blanks h, Scanner.tokens_nil] at he
    cases he

/-- The lexeme at the front gives the first result. -/
theorem Scans.of_lexeme (h : ∀ c ∈ blanks, isBlank c = true) {c : Char} {cs : List Char} (hc : isBlank c = false)
    {results : List (Except SyntaxError Token)}
    (hrest : Scans (Scanner.pass ⟨pos.advance blanks, c :: cs⟩ (Lexeme.first c cs)) last results) :
    Scans ⟨pos, blanks ++ c :: cs⟩ last ((Lexeme.first c cs).result (pos.advance blanks) :: results) where
  calls i := by
    cases i with
    | zero => rw [Scanner.call_zero, Scanner.next_lexeme h hc]; rfl
    | succ i => rw [Scanner.call_succ, Scanner.next_lexeme h hc, hrest.calls, List.getD_cons_succ]
  accepted ts hts := by
    rw [Scanner.tokens_append_blanks h] at hts
    obtain ⟨kind, text, more, hfirst, hmore, rfl⟩ := Scanner.tokens_cons_eq_ok hc hts
    rw [hfirst] at hrest ⊢
    rw [List.map_cons, hrest.accepted more hmore]
    rfl
  failed e he := by
    rw [Scanner.tokens_append_blanks h, Scanner.tokens_cons hc] at he
    cases hresult : (Lexeme.first c cs).result (pos.advance blanks) with
    | error e' =>
        rw [hresult] at he
        cases he
        exact ⟨[], results, rfl⟩
    | ok t =>
        simp only [hresult] at he
        cases hmore : tokens (Scanner.pass ⟨pos.advance blanks, c :: cs⟩ (Lexeme.first c cs)) with
        | ok ts =>
            rw [Scanner.pass] at hmore
            rw [hmore] at he
            cases he
        | error e' =>
            obtain ⟨ts, more, hts⟩ := hrest.failed e' hmore
            rw [Scanner.pass] at hmore
            rw [hmore] at he
            cases he
            exact ⟨t :: ts, more, by rw [hts]; rfl⟩

end Scanning

/-- A text is blanks, or blanks with a lexeme and more text behind them. -/
theorem blanks_or_lexeme (text : List Char) : (∀ c ∈ text, isBlank c = true) ∨
    ∃ blanks c cs rest, (∀ d ∈ blanks, isBlank d = true) ∧ isBlank c = false ∧ text = blanks ++ c :: cs ∧
      c :: cs = (Lexeme.first c cs).chars ++ rest := by
  have hall : ∀ c ∈ text.takeWhile isBlank, isBlank c = true := fun c hc => List.mem_takeWhile_imp hc
  have hsplit : text.takeWhile isBlank ++ text.dropWhile isBlank = text := List.takeWhile_append_dropWhile
  cases hdrop : text.dropWhile isBlank with
  | nil =>
      rw [hdrop, List.append_nil] at hsplit
      rw [hsplit] at hall
      exact .inl hall
  | cons c cs =>
      rw [hdrop] at hsplit
      have hc : isBlank c = false := head_dropWhile text c (by rw [hdrop]; rfl)
      exact .inr ⟨_, c, cs, _, hall, hc, hsplit.symm, (Lexeme.chars_first_append c cs).symm⟩

/-- Wherever the scanner stands, what is left is factored and the results are those of its lexemes. -/
theorem factored_scans (text : List Char) : ∀ front : List Char, ∃ results, Factored front text results ∧
    Scans ⟨placeBehind front, text⟩ (placeBehind (front ++ text)) results := by
  -- on the length: what is left behind blanks and a lexeme is shorter
  induction hlen : text.length using Nat.strong_induction_on generalizing text with
  | _ n ih =>
      intro front
      rcases blanks_or_lexeme text with hall | ⟨blanks, c, cs, rest, hall, hc, rfl, hchars⟩
      · refine ⟨[], .blanks hall, ?_⟩
        rw [← advance_placeBehind]
        exact .of_blanks hall
      · have hne := Lexeme.chars_first_ne_nil c cs
        have hlongest := Lexeme.first_longest hc cs
        have hshorter : rest.length < n := by
          have hpos := List.length_pos_iff.mpr hne
          rw [hchars, List.length_append, List.length_append] at hlen
          omega
        obtain ⟨results, hfactored, hscans⟩ :=
          ih rest.length hshorter rest rfl (front ++ (blanks ++ (Lexeme.first c cs).chars))
        refine ⟨(Lexeme.first c cs).report (front ++ blanks) :: results, ?_, ?_⟩
        · rw [hchars] at hlongest ⊢
          exact .lexeme hall hne hlongest hfactored
        · rw [← Lexeme.result_placeBehind, ← advance_placeBehind front blanks]
          refine .of_lexeme hall hc ?_
          have hpass : Scanner.pass ⟨(placeBehind front).advance blanks, c :: cs⟩ (Lexeme.first c cs) =
              ⟨placeBehind (front ++ (blanks ++ (Lexeme.first c cs).chars)), rest⟩ := by
            rw [Scanner.pass, advance_placeBehind, advance_placeBehind, List.append_assoc]
            conv => lhs; rw [hchars, List.drop_left]
          have hend : front ++ (blanks ++ c :: cs) = front ++ (blanks ++ (Lexeme.first c cs).chars) ++ rest := by
            conv => lhs; rw [hchars]
            simp only [List.append_assoc]
          rw [hpass, hend]
          exact hscans

/-- **The scanner covers its text exactly, with true positions, also across failures.** The text is blanks and lexemes
in turn. Calls give the results of the lexemes one after the other, and from then on `END`, behind the last character.
Taken together, the results are the tokens of the text, each of them further on than the one before and only the last
one `END`; or the first failure is that of the text. -/
theorem calls_cover_text (source : String) :
    ∃ results, Factored [] source.toList results ∧
      (∀ i, (Scanner.ofString source).call i = results.getD i (.ok (.finish (placeBehind source.toList)))) ∧
      (∀ ts, lex source = .ok ts →
        ts.map .ok = results ++ [.ok (.finish (placeBehind source.toList))] ∧
        ts.Pairwise (fun t u => t.pos.key < u.pos.key) ∧
        ∃ us, ts = us ++ [.finish (placeBehind source.toList)] ∧ ∀ t ∈ us, t.kind ≠ .finish) ∧
      (∀ e, lex source = .error e → ∃ (ts : List Token) (more : _), results = ts.map .ok ++ .error e :: more) := by
  obtain ⟨results, hfactored, hscans⟩ := factored_scans source.toList []
  refine ⟨results, hfactored, hscans.calls, fun ts hts => ?_, hscans.failed⟩
  have hresults := hscans.accepted ts hts
  obtain ⟨us, hus, -⟩ := tokens_append _ _ hts
  rw [← placeBehind_nil, advance_placeBehind, List.nil_append] at hus
  refine ⟨hresults, ?_, us, hus, ?_⟩
  · rw [hus, List.map_append] at hresults
    rw [hus]
    exact (hfactored.increasing (List.append_cancel_right hresults).symm).2
  · have hkinds := kind_ne_finish_of_tokens _ _ hts
    rwa [hus, List.dropLast_concat] at hkinds

/-- A refused character and a number that breaks off, with a line break between them. -/
example : (List.range 5).map (Scanner.ofString "a ?\n1.b").call =
    [.ok ⟨.identifier, "a", ⟨1, 1⟩⟩, .error ⟨⟨1, 3⟩⟩, .error ⟨⟨2, 3⟩⟩, .ok ⟨.identifier, "b", ⟨2, 3⟩⟩,
      .ok (.finish ⟨2, 4⟩)] := by
  rfl

end Abacus
