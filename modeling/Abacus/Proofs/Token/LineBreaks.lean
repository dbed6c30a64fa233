import Abacus.Proofs.Token.Scanning

/-!
# `Token.LineBreaks` — scanning on both sides of a line break

No lexeme reaches over a line break, and behind one the scanner is as good as new: it stands in the first column, and
only the number of the line tells where. So the tokens of two texts with a line break between them are those of the
texts. That is also true of failures: what is refused in the first text is refused in the whole, at the same place, and
what is refused in the second text is refused further down.

## Contents
- `tokens_cons_eq_error` — where a failure comes from;
- `tokens_append_error`, `tokens_shift_error` — failures with more text behind them, and further down;
- `tokens_newline` — the scanner behind a line break;
- `lex_across_newline` — all results.
-/

namespace Abacus

open Scanner (tokens)

/-- The same failure `k` lines further down. -/
def SyntaxError.shift (k : Nat) (e : SyntaxError) : SyntaxError := ⟨e.pos.shift k⟩

/-! ## Failures -/

/-- A text fails at its first lexeme, or behind the token that this lexeme is. -/
theorem Scanner.tokens_cons_eq_error {pos : Position} {c : Char} {cs : List Char} {e : SyntaxError}
    (hc : isBlank c = false) (h : tokens ⟨pos, c :: cs⟩ = .error e) :
    (Lexeme.first c cs).result pos = .error e ∨
      ∃ kind text, Lexeme.first c cs = .token kind text ∧
        tokens ⟨pos.advance text, (c :: cs).drop text.length⟩ = .error e := by
  rw [tokens_cons hc] at h
  cases hfirst : Lexeme.first c cs with
  | refused d =>
      rw [hfirst] at h
      cases h
      exact .inl rfl
  | dangling text =>
      rw [hfirst] at h
      cases h
      exact .inl rfl
  | token kind text =>
      simp only [hfirst, Lexeme.result, Lexeme.chars] at h
      cases hmore : tokens ⟨pos.advance text, (c :: cs).drop text.length⟩ with
      | ok more =>
          rw [hmore] at h
          cases h
      | error e' =>
          rw [hmore] at h
          cases h
          exact .inr ⟨kind, text, rfl, hmore⟩

theorem Scanner.tokens_cons_of_error {pos : Position} {c : Char} {cs : List Char} {e : SyntaxError}
    (hc : isBlank c = false) (h : (Lexeme.first c cs).result pos = .error e) :
    tokens ⟨pos, c :: cs⟩ = .error e := by
  rw [tokens_cons hc, h]

/-- A text that fails still fails with more text behind it, if that begins where no lexeme continues. -/
theorem tokens_append_error (pos : Position) (cs : List Char) {e : SyntaxError} {rest : List Char}
    (hrest : Stops rest) : tokens ⟨pos, cs⟩ = .error e → tokens ⟨pos, cs ++ rest⟩ = .error e := by
  induction pos, cs using scan_induction with
  | nil pos =>
      intro h
      rw [Scanner.tokens_nil] at h
      cases h
  | blank pos c cs hc ih =>
      intro h
      rw [Scanner.tokens_blank hc] at h
      rw [List.cons_append, Scanner.tokens_blank hc]
      exact ih h
  | lexeme pos c cs hc ih =>
      intro h
      -- the first lexeme is the same, whether it is a token or not
      have hsame : Lexeme.first c (cs ++ rest) = Lexeme.first c cs := Lexeme.first_append hrest
      rcases Scanner.tokens_cons_eq_error hc h with hresult | ⟨kind, text, hfirst, hmore⟩
      · rw [List.cons_append]
        apply Scanner.tokens_cons_of_error hc
        rw [hsame]
        exact hresult
      · have hchars := Lexeme.chars_first_append c cs
        rw [hfirst] at ih hsame hchars
        simp only [Lexeme.chars] at ih hchars
        have hle : text.length ≤ (c :: cs).length := by
          rw [← hchars, List.length_append]
          omega
        rw [List.cons_append, Scanner.tokens_cons_of_token hc hsame, ← List.cons_append,
          List.drop_append_of_le_length hle, ih hmore]
        rfl

theorem Lexeme.result_shift_error {k : Nat} {pos : Position} {lexeme : Lexeme} {e : SyntaxError}
    (h : lexeme.result pos = .error e) : lexeme.result (pos.shift k) = .error (e.shift k) := by
  cases lexeme with
  | token kind text => cases h
  | refused c =>
      cases h
      rfl
  | dangling text =>
      cases h
      rw [result, Position.advance_shift]
      rfl

/-- A text that fails does so further down as well, further down. -/
theorem tokens_shift_error (k : Nat) (pos : Position) (cs : List Char) {e : SyntaxError} :
    tokens ⟨pos, cs⟩ = .error e → tokens ⟨pos.shift k, cs⟩ = .error (e.shift k) := by
  induction pos, cs using scan_induction with
  | nil pos =>
      intro h
      rw [Scanner.tokens_nil] at h
      cases h
  | blank pos c cs hc ih =>
      intro h
      rw [Scanner.tokens_blank hc] at h ⊢
      rw [Position.step_shift]
      exact ih h
  | lexeme pos c cs hc ih =>
      intro h
      rcases Scanner.tokens_cons_eq_error hc h with hresult | ⟨kind, text, hfirst, hmore⟩
      · exact Scanner.tokens_cons_of_error hc (Lexeme.result_shift_error hresult)
      · rw [hfirst] at ih
        rw [Scanner.tokens_cons_of_token hc hfirst, Position.advance_shift]
        simp only [Lexeme.chars] at ih
        rw [ih hmore]
        rfl

/-! ## Behind a line break -/

/-- The line break that ends the first text ends its last lexeme, and the second text begins in the first column of a
new line. -/
theorem tokens_newline (first second : List Char) {ts : List Token}
    (h : tokens ⟨.start, first⟩ = .ok ts) :
    ∃ us, ts = us ++ [.finish (Position.start.advance first)] ∧
      tokens ⟨.start, first ++ '\n' :: second⟩ =
        (tokens ⟨Position.start.shift (first.count '\n' + 1), second⟩).map (us ++ ·) := by
  obtain ⟨us, hus, hrest⟩ := tokens_append .start first h
  refine ⟨us, hus, ?_⟩
  rw [hrest _ (.cons (by decide)), Scanner.tokens_blank (by decide), Position.step_advance_start]

/-- **Scanning is compositional at line breaks.** If the first of two texts fails, both with a line break between them
fail alike. Otherwise the second text counts, as many lines further down as the first one and the line break have: its
failure is that of the whole, and its tokens, up to `END`, follow those of the first text without the `END` of that. -/
theorem lex_across_newline (first second : String) :
    let k := first.toList.count '\n' + 1
    (∀ e, lex first = .error e → lex (first ++ "\n" ++ second) = .error e) ∧
    ∀ ts, lex first = .ok ts →
      ∃ us, ts = us ++ [.finish (Position.start.advance first.toList)] ∧
        (∀ e, lex second = .error e → lex (first ++ "\n" ++ second) = .error (e.shift k)) ∧
        ∀ vs, lex second = .ok vs → lex (first ++ "\n" ++ second) = .ok (us ++ vs.map (Token.shift k)) := by
  intro k
  have hlex : lex (first ++ "\n" ++ second) = tokens ⟨.start, first.toList ++ '\n' :: second.toList⟩ := by
    rw [lex, Scanner.ofString]
    simp
  rw [hlex]
  constructor
  · intro e he
    exact tokens_append_error .start first.toList (.cons (by decide)) he
  · intro ts hts
    obtain ⟨us, hus, hwhole⟩ := tokens_newline first.toList second.toList hts
    rw [hwhole]
    refine ⟨us, hus, fun e he => ?_, fun vs hvs => ?_⟩
    · rw [tokens_shift_error k .start second.toList he]
      rfl
    · rw [tokens_shift k .start second.toList hvs]
      rfl

/-- A number that breaks off in front of the line break, whatever follows on the next line, and one that breaks off
behind it, on the third line of the whole. -/
theorem lex_across_newline_broken_number :
    lex "1." = .error ⟨⟨1, 3⟩⟩ ∧ lex ("1." ++ "\n" ++ "5") = .error ⟨⟨1, 3⟩⟩ ∧
    lex "x\n" = .ok [⟨.identifier, "x", ⟨1, 1⟩⟩, .finish ⟨2, 1⟩] ∧
    lex ("x\n" ++ "\n" ++ "1.") = .error ⟨⟨3, 3⟩⟩ ∧
    lex ("x\n" ++ "\n" ++ "=") = .ok [⟨.identifier, "x", ⟨1, 1⟩⟩, ⟨.assignment, "=", ⟨3, 1⟩⟩, .finish ⟨3, 2⟩] := by
  have hbroken : lex "1." = .error ⟨⟨1, 3⟩⟩ := (lex_eq_tokensWithin _).trans rfl
  have hname : lex "x\n" = .ok [⟨.identifier, "x", ⟨1, 1⟩⟩, .finish ⟨2, 1⟩] := (lex_eq_tokensWithin _).trans rfl
  have hequals : lex "=" = .ok [⟨.assignment, "=", ⟨1, 1⟩⟩, .finish ⟨1, 2⟩] := (lex_eq_tokensWithin _).trans rfl
  refine ⟨hbroken, (lex_across_newline "1." "5").1 _ hbroken, hname, ?_, ?_⟩
  · obtain ⟨us, -, hfails, -⟩ := (lex_across_newline "x\n" "1.").2 _ hname
    exact hfails _ hbroken
  · obtain ⟨us, hus, -, htokens⟩ := (lex_across_newline "x\n" "=").2 _ hname
    have hfront : [⟨.identifier, "x", ⟨1, 1⟩⟩] = us := by simpa using congrArg List.dropLast hus
    rw [← hfront] at htokens
    exact htokens _ hequals

end Abacus
