import Mathlib.Data.List.TakeWhile
import Abacus.Token.Scanner

/-!
# `Token.Scanning` — scanning a text piece by piece

What the scanner finds in a text, and what it finds in its pieces. A text may be cut in front of a character
that continues no lexeme (`Stops`): the tokens of the whole are those of the first piece, without its `END`, and
then those of the second piece. Where a text begins is only seen in the positions of its tokens.

## Contents
- `tokens_nil`, `tokens_blank`, `tokens_cons` — the scanner, character by character;
- `scan_induction` — the induction that goes with them;
- `lex_eq_tokensWithin` — scanning by counting rounds;
- `tokens_append` — scanning in pieces;
- `forall_of_tokens` — what holds of each token of a text;
- `tokens_shift` — scanning further down.
-/

namespace Abacus

open Scanner (tokens)

/-! ## Character by character -/

namespace Scanner

/-- Leading blanks only move the position. -/
theorem tokens_eq_of_skipBlanks {a b : Scanner} (h : a.skipBlanks = b.skipBlanks) :
    a.tokens = b.tokens := by
  have hnext : a.next = b.next := by simp only [next, h]
  conv => lhs; rw [tokens, h, hnext]
  conv => rhs; rw [tokens]

theorem tokens_nil (pos : Position) : tokens ⟨pos, []⟩ = .ok [.finish pos] := by
  rw [tokens]
  rfl

theorem tokens_blank {pos : Position} {c : Char} {cs : List Char} (h : isBlank c = true) :
    tokens ⟨pos, c :: cs⟩ = tokens ⟨pos.step c, cs⟩ := by
  apply tokens_eq_of_skipBlanks
  simp [skipBlanks, h]

/-- The lexeme at the front gives a token, or the failure of the whole text. -/
theorem tokens_cons {pos : Position} {c : Char} {cs : List Char} (h : isBlank c = false) :
    tokens ⟨pos, c :: cs⟩ = match (Lexeme.first c cs).result pos with
      | .error error => .error error
      | .ok token => (tokens ⟨pos.advance (Lexeme.first c cs).chars,
          (c :: cs).drop (Lexeme.first c cs).chars.length⟩).map (token :: ·) := by
  have hskip : skipBlanks ⟨pos, c :: cs⟩ = ⟨pos, c :: cs⟩ := by simp [skipBlanks, h]
  have hnext : next ⟨pos, c :: cs⟩ =
      ((Lexeme.first c cs).result pos, pass ⟨pos, c :: cs⟩ (Lexeme.first c cs)) := by
    simp only [next, hskip]
  rw [tokens, dif_neg (by rw [hskip]; simp), hnext]
  rfl

/-- A text that scans begins with the token of its first lexeme. -/
theorem tokens_cons_eq_ok {pos : Position} {c : Char} {cs : List Char} {ts : List Token}
    (hc : isBlank c = false) (h : tokens ⟨pos, c :: cs⟩ = .ok ts) :
    ∃ kind text more, Lexeme.first c cs = .token kind text ∧
      tokens ⟨pos.advance text, (c :: cs).drop text.length⟩ = .ok more ∧
      ts = ⟨kind, .ofList text, pos⟩ :: more := by
  rw [tokens_cons hc] at h
  cases hfirst : Lexeme.first c cs with
  | refused d => rw [hfirst] at h; cases h
  | dangling text => rw [hfirst] at h; cases h
  | token kind text =>
      simp only [hfirst, Lexeme.result, Lexeme.chars] at h
      cases hmore : tokens ⟨pos.advance text, (c :: cs).drop text.length⟩ with
      | error e => rw [hmore] at h; cases h
      | ok more =>
          rw [hmore] at h
          cases h
          exact ⟨kind, text, more, rfl, hmore, rfl⟩

/-- The token of the first lexeme, and the tokens of the text behind it. -/
theorem tokens_cons_of_token {pos : Position} {c : Char} {cs text : List Char} {kind : Token.Kind}
    (hc : isBlank c = false) (h : Lexeme.first c cs = .token kind text) :
    tokens ⟨pos, c :: cs⟩ = (tokens ⟨pos.advance text, (c :: cs).drop text.length⟩).map
      (⟨kind, .ofList text, pos⟩ :: ·) := by
  rw [tokens_cons hc, h]
  rfl

end Scanner

/-! ## By counting rounds -/

namespace Scanner

/-- The tokens found in at most `n` rounds, or the first failure. Unlike `tokens`, this is a recursion on a number, so
the tokens of a given text can be computed by it. -/
def tokensWithin : Nat → Scanner → Except SyntaxError (List Token)
  | 0, _ => .ok []
  | n + 1, scanner =>
    if scanner.skipBlanks.rest = [] then .ok [.finish scanner.skipBlanks.pos]
    else
      match scanner.next.1 with
      | .error error => .error error
      | .ok token => (scanner.next.2.tokensWithin n).map (token :: ·)

/-- Each round takes a character at least, so a text has no more lexemes than characters. -/
theorem tokensWithin_eq_tokens {n : Nat} {scanner : Scanner} (h : scanner.rest.length < n) :
    scanner.tokensWithin n = scanner.tokens := by
  induction n generalizing scanner with
  | zero => exact absurd h (Nat.not_lt_zero _)
  | succ n ih =>
      rw [tokensWithin, tokens]
      by_cases hended : scanner.skipBlanks.rest = []
      · rw [if_pos hended, dif_pos hended]
      · have hlt := length_next_lt hended
        have hmore : scanner.next.2.tokensWithin n = scanner.next.2.tokens := ih (by omega)
        rw [if_neg hended, dif_neg hended]
        cases scanner.next.1 with
        | error e => rfl
        | ok token => exact congrArg (Except.map (token :: ·)) hmore

end Scanner

/-- A text is scanned in as many rounds as it has characters, and one more for its end. -/
theorem lex_eq_tokensWithin (source : String) :
    lex source = (Scanner.ofString source).tokensWithin (source.toList.length + 1) :=
  (Scanner.tokensWithin_eq_tokens (Nat.lt_succ_self _)).symm

/-! ## By induction -/

/-- What holds at the end, in front of a blank, and in front of a lexeme if it holds behind them, holds of every
text. -/
theorem scan_induction {P : Position → List Char → Prop} (nil : ∀ pos, P pos [])
    (blank : ∀ pos c cs, isBlank c = true → P (pos.step c) cs → P pos (c :: cs))
    (lexeme : ∀ pos c cs, isBlank c = false →
      P (pos.advance (Lexeme.first c cs).chars) ((c :: cs).drop (Lexeme.first c cs).chars.length) →
      P pos (c :: cs))
    (pos : Position) (cs : List Char) : P pos cs := by
  -- on the length: the text behind a lexeme is shorter, but no tail of the text
  have bounded : ∀ (n : Nat) (cs : List Char), cs.length ≤ n → ∀ pos, P pos cs := by
    intro n
    induction n with
    | zero =>
        intro cs hn pos
        rw [List.length_eq_zero_iff.mp (Nat.le_zero.mp hn)]
        exact nil pos
    | succ n ih =>
        intro cs hn pos
        cases cs with
        | nil => exact nil pos
        | cons c cs =>
            rw [List.length_cons] at hn
            by_cases hc : isBlank c = true
            · exact blank pos c cs hc (ih cs (by omega) _)
            · refine lexeme pos c cs (by simpa using hc) (ih _ ?_ _)
              have hpos := List.length_pos_iff.mpr (Lexeme.chars_first_ne_nil c cs)
              rw [List.length_drop, List.length_cons]
              omega
  exact bounded cs.length cs (Nat.le_refl _) pos

/-! ## Where a lexeme ends -/

/-- The text begins with no character that continues a name, a number or an operator. -/
def Stops (cs : List Char) : Prop := ∀ c ∈ cs.head?, isNameRest c = false ∧ c ≠ '.' ∧ c ≠ '='

theorem Stops.cons {c : Char} {cs : List Char} (h : isNameRest c = false ∧ c ≠ '.' ∧ c ≠ '=') :
    Stops (c :: cs) := by
  intro d hd
  cases hd
  exact h

theorem isNameRest_of_isDigit {c : Char} (h : c.isDigit = true) : isNameRest c = true := by
  simp [isNameRest, Char.isAlphanum, h]

section Cut

variable {p : Char → Bool} {cs rest : List Char}

theorem takeWhile_append_of_head (h : ∀ c ∈ rest.head?, p c = false) :
    (cs ++ rest).takeWhile p = cs.takeWhile p := by
  induction cs with
  | nil =>
      cases rest with
      | nil => rfl
      | cons c cs => simp [h c rfl]
  | cons c cs ih =>
      rw [List.cons_append, List.takeWhile_cons, List.takeWhile_cons, ih]

theorem dropWhile_append_of_head (h : ∀ c ∈ rest.head?, p c = false) :
    (cs ++ rest).dropWhile p = cs.dropWhile p ++ rest := by
  induction cs with
  | nil =>
      cases rest with
      | nil => rfl
      | cons c cs => simp [h c rfl]
  | cons c cs ih =>
      rw [List.cons_append, List.dropWhile_cons, List.dropWhile_cons, ih]
      split <;> rfl

end Cut

namespace Lexeme

variable {c : Char} {cs rest : List Char}

theorem number_append (h : Stops rest) : number c (cs ++ rest) = number c cs := by
  have hdigit : ∀ d ∈ rest.head?, d.isDigit = false := by
    intro d hd
    rw [Bool.eq_false_iff]
    intro hdig
    have hrest := (h d hd).1
    rw [isNameRest_of_isDigit hdig] at hrest
    cases hrest
  unfold number
  rw [takeWhile_append_of_head hdigit, dropWhile_append_of_head hdigit]
  cases hdrop : cs.dropWhile Char.isDigit with
  | nil =>
      -- the digits reach the end of `cs`, and no point comes behind it
      cases rest with
      | nil => rfl
      | cons d ds =>
          have hdot : d ≠ '.' := (h d rfl).2.1
          simp only [List.nil_append]
          split
          · next heq => injection heq with heq; exact absurd heq hdot
          · rfl
  | cons d ds =>
      simp only [List.cons_append]
      split
      · next heq =>
        injection heq with hd hds
        subst hd hds
        rw [takeWhile_append_of_head hdigit]
        rfl
      · next hne =>
        split
        · next heq => injection heq with hd hds; exact absurd (by rw [hd]) (hne _)
        · rfl

/-- A lexeme ends at the latest in front of a character that continues none. -/
theorem first_append (h : Stops rest) : first c (cs ++ rest) = first c cs := by
  unfold first
  split
  · exact number_append h
  · split
    · unfold word
      rw [takeWhile_append_of_head fun d hd => (h d hd).1]
    · unfold symbol
      cases cs with
      | nil =>
          have hequals : rest.head? ≠ some '=' := fun heq => (h '=' heq).2.2 rfl
          simp [hequals]
      | cons d ds => rfl

/-- The characters of a lexeme stand at the front of the text. -/
theorem chars_first_append (c : Char) (cs : List Char) :
    (first c cs).chars ++ (c :: cs).drop (first c cs).chars.length = c :: cs := by
  have hprefix : (first c cs).chars <+: c :: cs := by
    unfold first number word symbol
    split
    · split
      · next rest hdot =>
        have hcs : cs.takeWhile Char.isDigit ++ '.' :: rest = cs := by
          rw [← hdot, List.takeWhile_append_dropWhile]
        split
        · refine ⟨rest, ?_⟩
          simp [chars, hcs]
        · refine ⟨rest.dropWhile Char.isDigit, ?_⟩
          simp [chars, hcs]
      · exact (List.prefix_cons_inj c).mpr (List.takeWhile_prefix _)
    · split
      · exact (List.prefix_cons_inj c).mpr (List.takeWhile_prefix _)
      · split
        · next hequals =>
          cases cs with
          | nil => simp at hequals
          | cons d ds =>
              have hd : d = '=' := by simpa using (Bool.and_eq_true_iff.mp hequals).2
              exact ⟨ds, by simp [chars, hd]⟩
        · split
          · exact ⟨cs, rfl⟩
          · exact ⟨cs, rfl⟩
  obtain ⟨rest, hrest⟩ := hprefix
  rw [← hrest, List.drop_left]

end Lexeme

/-! ## Scanning in pieces -/

/-- Where the text behind a lexeme begins. -/
theorem advance_first (pos : Position) (c : Char) (cs : List Char) :
    (pos.advance (Lexeme.first c cs).chars).advance
      ((c :: cs).drop (Lexeme.first c cs).chars.length) = pos.advance (c :: cs) := by
  rw [← Position.advance_append, Lexeme.chars_first_append]

/-- **Scanning in pieces.** A text that scans ends with `END`; a text that is cut where no lexeme continues scans
as its first piece without `END`, and then its second piece. -/
theorem tokens_append (pos : Position) (cs : List Char) {ts : List Token} :
    tokens ⟨pos, cs⟩ = .ok ts → ∃ us, ts = us ++ [.finish (pos.advance cs)] ∧
      ∀ rest, Stops rest →
        tokens ⟨pos, cs ++ rest⟩ = (tokens ⟨pos.advance cs, rest⟩).map (us ++ ·) := by
  induction pos, cs using scan_induction generalizing ts with
  | nil pos =>
      intro h
      rw [Scanner.tokens_nil] at h
      cases h
      refine ⟨[], rfl, fun rest _ => ?_⟩
      exact congrFun Except.map_id.symm _
  | blank pos c cs hc ih =>
      intro h
      rw [Scanner.tokens_blank hc] at h
      obtain ⟨us, rfl, hus⟩ := ih h
      refine ⟨us, rfl, fun rest hrest => ?_⟩
      rw [List.cons_append, Scanner.tokens_blank hc]
      exact hus rest hrest
  | lexeme pos c cs hc ih =>
      intro h
      obtain ⟨kind, text, more, hfirst, hmore, rfl⟩ := Scanner.tokens_cons_eq_ok hc h
      have hchars := Lexeme.chars_first_append c cs
      have hbehind := advance_first pos c cs
      rw [hfirst] at ih hchars hbehind
      simp only [Lexeme.chars] at ih hchars hbehind
      obtain ⟨us, rfl, hus⟩ := ih hmore
      rw [hbehind] at hus ⊢
      refine ⟨_ :: us, rfl, fun rest hrest => ?_⟩
      have hle : text.length ≤ (c :: cs).length := by
        rw [← hchars, List.length_append]
        omega
      -- with more text behind it, the lexeme is the same
      have hfirst' : Lexeme.first c (cs ++ rest) = .token kind text := by
        rw [Lexeme.first_append hrest, hfirst]
      rw [List.cons_append, Scanner.tokens_cons_of_token hc hfirst', ← List.cons_append,
        List.drop_append_of_le_length hle, hus rest hrest]
      cases tokens ⟨pos.advance (c :: cs), rest⟩ <;> rfl

/-- What a lexeme that is a token can be: a number, a word or a symbol. -/
theorem Lexeme.first_cases {c : Char} {cs text : List Char} {kind : Token.Kind}
    (h : first c cs = .token kind text) :
    (kind = .number ∧ ∀ d ∈ text, d.isDigit = true ∨ d = '.') ∨
    (c.isDigit = false ∧ isNameStart c = true ∧ text = c :: cs.takeWhile isNameRest ∧
      kind = wordKind text) ∨
    symbol c cs = .token kind text := by
  unfold first at h
  split at h
  · next hc =>
    -- the digits of both parts, and the point between them
    have hwhole : ∀ d ∈ c :: cs.takeWhile Char.isDigit, d.isDigit = true := by
      intro d hd
      rcases List.mem_cons.mp hd with rfl | hd
      · exact hc
      · exact List.mem_takeWhile_imp hd
    left
    unfold number at h
    split at h
    · next rest _ =>
      split at h
      · cases h
      · cases h
        refine ⟨rfl, fun d hd => ?_⟩
        rcases List.mem_append.mp hd with hd | hd
        · exact .inl (hwhole d hd)
        · rcases List.mem_cons.mp hd with rfl | hd
          · exact .inr rfl
          · exact .inl (List.mem_takeWhile_imp hd)
    · cases h
      exact ⟨rfl, fun d hd => .inl (hwhole d hd)⟩
  · next hc =>
    split at h
    · next hname =>
      cases h
      exact .inr (.inl ⟨by simpa using hc, hname, rfl, rfl⟩)
    · exact .inr (.inr h)

theorem Lexeme.wordKind_mem (text : List Char) :
    wordKind text ∈ [Token.Kind.boolean, .identifier] := by
  unfold wordKind
  split <;> decide

/-- A symbol is neither a number nor a word, and does not end a program. -/
theorem Lexeme.symbol_kind {c : Char} {cs text : List Char} {kind : Token.Kind}
    (h : symbol c cs = .token kind text) :
    kind ∉ [Token.Kind.number, .boolean, .identifier, .finish] := by
  have hsingle : ∀ {kind}, singleKind? c = some kind →
      kind ∉ [Token.Kind.number, .boolean, .identifier, .finish] := by
    intro kind hkind
    unfold singleKind? at hkind
    repeat' split at hkind
    all_goals cases hkind <;> decide
  unfold symbol at h
  split at h
  · cases h
    decide
  · split at h
    · next hkind =>
      cases h
      exact hsingle hkind
    · cases h

/-- No lexeme is a token that ends a program. -/
theorem Lexeme.kind_ne_finish {c : Char} {cs : List Char} {kind : Token.Kind} {text : List Char}
    (h : Lexeme.first c cs = .token kind text) : kind ≠ .finish := by
  rintro rfl
  rcases first_cases h with ⟨hkind, _⟩ | ⟨_, _, _, hkind⟩ | hsymbol
  · cases hkind
  · have hmem := wordKind_mem text
    rw [← hkind] at hmem
    revert hmem
    decide
  · exact symbol_kind hsymbol (by decide)

/-- **Token by token.** What holds of the token of every lexeme holds of all tokens of a text, up to its `END`. -/
theorem forall_of_tokens {P : Token → Prop}
    (hP : ∀ {pos c cs kind text}, isBlank c = false → Lexeme.first c cs = .token kind text →
      P ⟨kind, .ofList text, pos⟩)
    (pos : Position) (cs : List Char) {ts : List Token} :
    tokens ⟨pos, cs⟩ = .ok ts → ∃ us, ts = us ++ [.finish (pos.advance cs)] ∧ ∀ t ∈ us, P t := by
  induction pos, cs using scan_induction generalizing ts with
  | nil pos =>
      intro h
      rw [Scanner.tokens_nil] at h
      cases h
      exact ⟨[], rfl, by simp⟩
  | blank pos c cs hc ih =>
      intro h
      rw [Scanner.tokens_blank hc] at h
      exact ih h
  | lexeme pos c cs hc ih =>
      intro h
      obtain ⟨kind, text, more, hfirst, hmore, rfl⟩ := Scanner.tokens_cons_eq_ok hc h
      rw [advance_first, hfirst] at ih
      obtain ⟨us, rfl, hus⟩ := ih hmore
      exact ⟨_ :: us, rfl, List.forall_mem_cons.mpr ⟨hP hc hfirst, hus⟩⟩

/-- Only the last token of a text ends a program. -/
theorem kind_ne_finish_of_tokens (pos : Position) (cs : List Char) {ts : List Token}
    (h : tokens ⟨pos, cs⟩ = .ok ts) : ∀ t ∈ ts.dropLast, t.kind ≠ .finish := by
  obtain ⟨us, rfl, hus⟩ := forall_of_tokens (P := fun t => t.kind ≠ .finish)
    (fun _ hfirst => Lexeme.kind_ne_finish hfirst) pos cs h
  rwa [List.dropLast_concat]

/-! ## Scanning further down -/

/-- The same place `k` lines further down. -/
def Position.shift (k : Nat) (pos : Position) : Position := ⟨pos.line + k, pos.column⟩

/-- The same token `k` lines further down. -/
def Token.shift (k : Nat) (t : Token) : Token := { t with pos := t.pos.shift k }

theorem Position.step_shift (k : Nat) (pos : Position) (c : Char) :
    (pos.shift k).step c = (pos.step c).shift k := by
  unfold step shift
  split
  · simp only [Position.mk.injEq, and_true]
    omega
  · rfl

theorem Position.advance_shift (k : Nat) (pos : Position) (cs : List Char) :
    (pos.shift k).advance cs = (pos.advance cs).shift k := by
  induction cs generalizing pos with
  | nil => rfl
  | cons c cs ih => rw [advance_cons, advance_cons, step_shift, ih]

/-- Behind a text and a line break, one is at the start of a line as far down as the text has line breaks. -/
theorem Position.step_advance_start (cs : List Char) :
    (start.advance cs).step '\n' = start.shift (cs.count '\n' + 1) := by
  have hline : ∀ (cs : List Char) (pos : Position),
      (pos.advance cs).line = pos.line + cs.count '\n' := by
    intro cs
    induction cs with
    | nil => intro pos; rfl
    | cons c cs ih =>
        intro pos
        rw [advance_cons, ih]
        unfold step
        split
        · next hc => simp only [hc, List.count_cons_self]; omega
        · next hc => rw [List.count_cons_of_ne hc]
  simp only [step, shift, if_true, hline, start]
  rfl

/-- Further down a text has the same tokens, further down. -/
theorem tokens_shift (k : Nat) (pos : Position) (cs : List Char) {ts : List Token} :
    tokens ⟨pos, cs⟩ = .ok ts → tokens ⟨pos.shift k, cs⟩ = .ok (ts.map (Token.shift k)) := by
  induction pos, cs using scan_induction generalizing ts with
  | nil pos =>
      intro h
      rw [Scanner.tokens_nil] at h ⊢
      cases h
      rfl
  | blank pos c cs hc ih =>
      intro h
      rw [Scanner.tokens_blank hc] at h ⊢
      rw [Position.step_shift]
      exact ih h
  | lexeme pos c cs hc ih =>
      intro h
      obtain ⟨kind, text, more, hfirst, hmore, rfl⟩ := Scanner.tokens_cons_eq_ok hc h
      rw [hfirst] at ih
      rw [Scanner.tokens_cons_of_token hc hfirst, Position.advance_shift]
      simp only [Lexeme.chars] at ih
      rw [ih hmore]
      rfl

end Abacus
