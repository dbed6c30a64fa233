import Abacus.Proofs.Token.LongestMatch

/-!
# `Token.Respacing` — tokens with other white space between them

The text of a token, taken out of its source and scanned by itself, is that token again: what stood behind it only said
where it ends. So tokens can be written down with any white space between them, and they are the same tokens. This is
also true of tokens that were written without white space, where one ended only because the next one could not continue
it.

## Contents
- `Lexeme.isLexeme` — a lexeme by itself;
- `isLexeme_of_tokens` — the tokens of a text;
- `spaced`, `lexes_spaced` — tokens with white space behind them;
- `lex_respaced` — the tokens of a text with other white space.
-/

namespace Abacus

open Scanner (tokens)

/-! ## One token -/

namespace Lexeme

variable {c : Char} {cs text : List Char} {kind : Token.Kind}

theorem number_whole {ds : List Char} (hds : ∀ d ∈ ds, d.isDigit = true) :
    number c ds = .token .number (c :: ds) := by
  have htake : ds.takeWhile Char.isDigit = ds := List.takeWhile_eq_self_iff.mpr hds
  have hdrop : ds.dropWhile Char.isDigit = [] := List.dropWhile_eq_nil_iff.mpr hds
  unfold number
  rw [htake, hdrop]

theorem number_decimal {ds es : List Char} (hds : ∀ d ∈ ds, d.isDigit = true) (hes : Digits es) :
    number c (ds ++ '.' :: es) = .token .number (c :: (ds ++ '.' :: es)) := by
  have hpoint : ∀ d ∈ ('.' :: es).head?, d.isDigit = false := by simp
  have htake : es.takeWhile Char.isDigit = es := List.takeWhile_eq_self_iff.mpr hes.2
  obtain ⟨e, es', rfl⟩ := List.exists_cons_of_ne_nil hes.1
  unfold number
  rw [takeWhile_append_run hds hpoint, dropWhile_append_run hds hpoint]
  simp only [htake]
  rfl

/-- A number that is scanned by itself ends where it ended. -/
theorem isLexeme_number (hc : c.isDigit = true) (h : number c cs = .token kind text) : IsLexeme kind text := by
  rcases number_cases hc cs with ⟨ds, rest, -, -, -, hnumber⟩ | ⟨ds, es, rest, htext, hds, hes, -, hnumber⟩ |
      ⟨ds, rest, htext, hds, -, hnumber⟩
  · rw [hnumber] at h
    cases h
  · rw [hnumber] at h
    cases h
    obtain ⟨d, ds, rfl⟩ := List.exists_cons_of_ne_nil hds.1
    obtain ⟨hd, hds⟩ := List.forall_mem_cons.mp hds.2
    refine ⟨d, ds ++ '.' :: es, rfl, ?_⟩
    rw [first, if_pos hd]
    exact number_decimal hds hes
  · rw [hnumber] at h
    cases h
    obtain ⟨d, ds, rfl⟩ := List.exists_cons_of_ne_nil hds.1
    obtain ⟨hd, hds⟩ := List.forall_mem_cons.mp hds.2
    refine ⟨d, ds, rfl, ?_⟩
    rw [first, if_pos hd]
    exact number_whole hds

theorem isLexeme_word (hdigit : c.isDigit = false) (hc : isNameStart c = true) (h : word c cs = .token kind text) :
    IsLexeme kind text := by
  cases h
  refine ⟨c, cs.takeWhile isNameRest, rfl, ?_⟩
  rw [first, if_neg (by simp [hdigit]), if_pos hc, word, List.takeWhile_idem]

/-- A symbol that is scanned by itself has no equals sign behind it, unless that is a part of it. -/
theorem isLexeme_symbol (hdigit : c.isDigit = false) (hc : isNameStart c = false)
    (h : symbol c cs = .token kind text) : IsLexeme kind text := by
  have hfirst (ds : List Char) : first c ds = symbol c ds := by
    rw [first, if_neg (by simp [hdigit]), if_neg (by simp [hc])]
  unfold symbol at h
  split at h
  · next hequals =>
    cases h
    refine ⟨c, ['='], rfl, ?_⟩
    rw [hfirst, symbol, if_pos]
    simpa using (Bool.and_eq_true_iff.mp hequals).1
  · split at h
    · next hkind =>
      cases h
      refine ⟨c, [], rfl, ?_⟩
      rw [hfirst, symbol, if_neg (by simp), hkind]
    · cases h

/-- **What has been scanned as a token scans as that token by itself.** -/
theorem isLexeme (h : first c cs = .token kind text) : IsLexeme kind text := by
  unfold first at h
  split at h
  · next hdigit => exact isLexeme_number hdigit h
  · next hdigit =>
    split at h
    · next hname => exact isLexeme_word (by simpa using hdigit) hname h
    · next hname => exact isLexeme_symbol (by simpa using hdigit) (by simpa using hname) h

end Lexeme

/-- Each token of a text, up to `END`, is one lexeme of its kind. -/
theorem isLexeme_of_tokens (pos : Position) (cs : List Char) {ts : List Token} (h : tokens ⟨pos, cs⟩ = .ok ts) :
    ∀ t ∈ ts.dropLast, IsLexeme t.kind t.text.toList := by
  obtain ⟨us, rfl, hus⟩ := forall_of_tokens (P := fun t => IsLexeme t.kind t.text.toList)
    (fun _ hfirst => by simpa using Lexeme.isLexeme hfirst) pos cs h
  rwa [List.dropLast_concat]

/-! ## White space -/

/-- The text is white space: spaces, tabs, line breaks, returns, form feeds and vertical tabs, or nothing. -/
def IsGap (gap : String) : Prop := ∀ c ∈ gap.toList, isBlank c = true

instance (gap : String) : Decidable (IsGap gap) := List.decidableBAll (isBlank · = true) gap.toList

theorem Lexes.gap {gap cs : List Char} {R : List Token → Prop} (hgap : ∀ c ∈ gap, isBlank c = true)
    (h : Lexes cs R) : Lexes (gap ++ cs) R := by
  induction gap with
  | nil => exact h
  | cons c gap ih =>
      obtain ⟨hc, hgap⟩ := List.forall_mem_cons.mp hgap
      exact .blank hc (ih hgap)

theorem Stops.of_isBlank {c : Char} (h : isBlank c = true) (cs : List Char) : Stops (c :: cs) := by
  simp only [isBlank, Bool.or_eq_true, decide_eq_true_eq] at h
  apply Stops.cons
  rcases h with ((((rfl | rfl) | rfl) | rfl) | rfl) | rfl <;> decide

/-- Tokens written one after the other, each with a gap behind it. -/
def spaced : List (Token × String) → String
  | [] => ""
  | (t, gap) :: rest => t.text ++ gap ++ spaced rest

/-- Behind a gap, or at the end of the text, no lexeme continues. -/
theorem stops_gap {gap : String} {rest : List (Token × String)} (hgap : IsGap gap) (h : gap = "" → rest = []) :
    Stops (gap.toList ++ (spaced rest).toList) := by
  cases htext : gap.toList with
  | nil =>
      rw [h (String.toList_eq_nil_iff.mp htext)]
      simp [spaced, Stops]
  | cons c cs => exact .of_isBlank (hgap c (by simp [htext])) _

/-- **Lexemes with gaps between them scan as these lexemes.** -/
theorem lexes_spaced {spacing : List (Token × String)} (hword : ∀ p ∈ spacing, IsLexeme p.1.kind p.1.text.toList)
    (hgap : ∀ p ∈ spacing, IsGap p.2) (hbetween : ∀ p ∈ spacing.dropLast, p.2 ≠ "") :
    Lexes (spaced spacing).toList fun us =>
      us.map (fun t => (t.kind, t.text)) = spacing.map fun p => (p.1.kind, p.1.text) := by
  induction spacing with
  | nil => exact .nil rfl
  | cons p rest ih =>
      obtain ⟨t, gap⟩ := p
      obtain ⟨hword, hwords⟩ := List.forall_mem_cons.mp hword
      obtain ⟨hgap, hgaps⟩ := List.forall_mem_cons.mp hgap
      have hlast : gap = "" → rest = [] := by
        intro hempty
        by_contra hrest
        rw [List.dropLast_cons_of_ne_nil hrest] at hbetween
        exact hbetween _ (List.mem_cons_self ..) hempty
      have hrest : ∀ p ∈ rest.dropLast, p.2 ≠ "" := by
        intro p hp
        refine hbetween p ?_
        rw [List.dropLast_cons_of_ne_nil (by rintro rfl; cases hp)]
        exact List.mem_cons_of_mem _ hp
      have htext : (spaced ((t, gap) :: rest)).toList = t.text.toList ++ (gap.toList ++ (spaced rest).toList) := by
        simp [spaced]
      rw [htext]
      refine .word hword (stops_gap hgap hlast) fun u hkind hu => ?_
      refine .gap hgap ((ih hwords hgaps hrest).imp fun us hus => ?_)
      rw [String.ofList_toList] at hu
      rw [List.map_cons, List.map_cons, hus, hkind, hu]

/-- **Tokens depend only on their texts.** The tokens of a text are written down one after the other, with any white
space between them that is not empty, and any white space in front of the first and behind the last. That text has
tokens of the same kinds with the same texts, and `END`. -/
theorem lex_respaced {source : String} {ts : List Token} {last : Token} (h : lex source = .ok (ts ++ [last]))
    {front : String} {spacing : List (Token × String)} (hts : spacing.map Prod.fst = ts) (hfront : IsGap front)
    (hgap : ∀ p ∈ spacing, IsGap p.2) (hbetween : ∀ p ∈ spacing.dropLast, p.2 ≠ "") :
    ∃ us pos, lex (front ++ spaced spacing) = .ok (us ++ [.finish pos]) ∧
      us.map (fun t => (t.kind, t.text)) = ts.map fun t => (t.kind, t.text) := by
  have hwords : ∀ t ∈ ts, IsLexeme t.kind t.text.toList := by
    have hall := isLexeme_of_tokens _ _ h
    rwa [List.dropLast_concat] at hall
  have hword : ∀ p ∈ spacing, IsLexeme p.1.kind p.1.text.toList := by
    intro p hp
    apply hwords
    rw [← hts]
    exact List.mem_map_of_mem hp
  obtain ⟨us, hus, hsame⟩ := Lexes.gap hfront (lexes_spaced hword hgap hbetween) .start
  have hlex : lex (front ++ spaced spacing) =
      .ok (us ++ [.finish (Position.start.advance (front.toList ++ (spaced spacing).toList))]) := by
    rw [lex, Scanner.ofString, String.toList_append]
    exact hus
  refine ⟨us, _, hlex, ?_⟩
  rw [hsame, ← hts, List.map_map]
  rfl

/-- The tokens of `x<=1.5=true`, written without any white space, with tabs and line breaks between them. -/
theorem lex_respaced_dense :
    let ts : List Token := [⟨.identifier, "x", ⟨1, 1⟩⟩, ⟨.operator, "<=", ⟨1, 2⟩⟩, ⟨.number, "1.5", ⟨1, 4⟩⟩,
      ⟨.assignment, "=", ⟨1, 7⟩⟩, ⟨.boolean, "true", ⟨1, 8⟩⟩]
    lex "x<=1.5=true" = .ok (ts ++ [.finish ⟨1, 12⟩]) ∧
      ∃ us pos, lex "\x0c x\t<=\n1.5\x0b \r=\r\ntrue" = .ok (us ++ [.finish pos]) ∧
        us.map (fun t => (t.kind, t.text)) = ts.map fun t => (t.kind, t.text) := by
  intro ts
  have hlex : lex "x<=1.5=true" = .ok (ts ++ [.finish ⟨1, 12⟩]) := (lex_eq_tokensWithin _).trans rfl
  let spacing := ts.zip ["\t", "\n", "\x0b \r", "\r\n", ""]
  have htext : "\x0c x\t<=\n1.5\x0b \r=\r\ntrue" = "\x0c " ++ spaced spacing := by decide +kernel
  rw [htext]
  exact ⟨hlex, lex_respaced hlex rfl (by decide) (by decide) (by decide)⟩

end Abacus
