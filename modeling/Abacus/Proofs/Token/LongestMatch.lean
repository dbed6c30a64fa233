import Abacus.Proofs.Token.Spelling

/-!
# `Token.LongestMatch` — the scanner takes the longest lexeme

What can be written as a token is a table of symbols and a few patterns (`Pattern`), said without the scanner. The
scanner looks at the first character and decides from it; still no pattern matches more of the text than it takes, and
a character is refused only where none matches at all.

## Contents
- `symbols`, `Digits`, `Pattern` — what lexemes look like;
- `Longest` — the longest match at the front of a text;
- `Lexeme.number_cases`, `Lexeme.word_cases` — where numbers and words end;
- `Lexeme.first_longest` — the scanner takes the longest match.
-/

namespace Abacus

/-! ## Patterns -/

/-- The tokens that are written in one way only. -/
def symbols : List (List Char × Token.Kind) :=
  [(['('], .leftParen), ([')'], .rightParen), (['['], .leftBracket), ([']'], .rightBracket),
   ([','], .comma), ([';'], .semicolon), (['='], .assignment),
   (['+'], .operator), (['-'], .operator), (['*'], .operator), (['/'], .operator), (['%'], .operator),
   (['<'], .operator), (['>'], .operator), (['<', '='], .operator), (['>', '='], .operator),
   (['=', '='], .operator), (['!', '='], .operator), (['&'], .operator), (['^'], .operator),
   (['|'], .operator), (['\x7b'], .operator), (['\x7d'], .operator)]

/-- The words for the truth values. -/
def truthWords : List (List Char) := [['t', 'r', 'u', 'e'], ['f', 'a', 'l', 's', 'e']]

/-- One digit or more, and nothing else. -/
def Digits (ds : List Char) : Prop := ds ≠ [] ∧ ∀ d ∈ ds, d.isDigit = true

/-- What a lexeme can look like. A truth value can be read as a name too. -/
inductive Pattern : Lexeme → Prop where
  | symbol {text : List Char} {kind : Token.Kind} : (text, kind) ∈ symbols → Pattern (.token kind text)
  | whole {ds : List Char} : Digits ds → Pattern (.token .number ds)
  | decimal {ds es : List Char} : Digits ds → Digits es → Pattern (.token .number (ds ++ '.' :: es))
  | broken {ds : List Char} : Digits ds → Pattern (.dangling (ds ++ ['.']))
  | truth {text : List Char} : text ∈ truthWords → Pattern (.token .boolean text)
  | name {c : Char} {cs : List Char} : isNameStart c = true → (∀ d ∈ cs, isNameRest d = true) →
      Pattern (.token .identifier (c :: cs))

/-- The lexeme is the longest one at the front of the text, and a truth value rather than a name; or no pattern matches
there and the first character is refused. -/
inductive Longest : Lexeme → List Char → Prop where
  | taken {lexeme : Lexeme} {text : List Char} : Pattern lexeme → lexeme.chars <+: text →
      (∀ other, Pattern other → other.chars <+: text → other.chars.length ≤ lexeme.chars.length) →
      (∀ kind cs, lexeme = .token kind cs → (kind = .boolean ↔ cs ∈ truthWords)) → Longest lexeme text
  | refused {c : Char} {cs : List Char} : isBlank c = false →
      (∀ other, Pattern other → ¬ other.chars <+: c :: cs) → Longest (.refused c) (c :: cs)

/-! ## Runs of characters -/

section Runs

variable {p : Char → Bool} {cs ds es rest : List Char}

theorem takeWhile_append_run (hds : ∀ d ∈ ds, p d = true) (hrest : ∀ c ∈ rest.head?, p c = false) :
    (ds ++ rest).takeWhile p = ds := by
  rw [takeWhile_append_of_head hrest]
  exact List.takeWhile_eq_self_iff.mpr hds

theorem dropWhile_append_run (hds : ∀ d ∈ ds, p d = true) (hrest : ∀ c ∈ rest.head?, p c = false) :
    (ds ++ rest).dropWhile p = rest := by
  rw [dropWhile_append_of_head hrest, List.dropWhile_eq_nil_iff.mpr hds, List.nil_append]

/-- A run ends where its test fails. -/
theorem head_dropWhile (cs : List Char) : ∀ c ∈ (cs.dropWhile p).head?, p c = false := by
  intro c hc
  have hnot := List.head?_dropWhile_not p cs
  rwa [Option.mem_def.mp hc] at hnot

/-- A run that stands at the front of a text goes no further than the longest one. -/
theorem length_le_of_run (hcs : ∀ c ∈ cs, p c = true) (hrest : ∀ c ∈ rest.head?, p c = false)
    (h : cs <+: ds ++ rest) : cs.length ≤ ds.length := by
  rcases List.prefix_or_prefix_of_prefix h (List.prefix_append ds rest) with hle | ⟨more, rfl⟩
  · exact hle.length_le
  · cases more with
    | nil => simp
    | cons c more =>
        -- the character behind `ds` would both belong to the run and end it
        obtain ⟨tail, htail⟩ := (List.prefix_append_right_inj ds).mp h
        rw [← htail] at hrest
        have hyes := hcs c (by simp)
        rw [hrest c rfl] at hyes
        cases hyes

/-- Where a text is cut behind its longest run, it is cut in one way only. -/
theorem run_unique {c : Char} (hcs : ∀ d ∈ cs, p d = true) (hc : p c = false) (hds : ∀ d ∈ ds, p d = true)
    (hrest : ∀ d ∈ rest.head?, p d = false) (h : cs ++ c :: es <+: ds ++ rest) :
    cs = ds ∧ c :: es <+: rest := by
  obtain ⟨tail, htail⟩ := h
  rw [List.append_assoc] at htail
  have hsame : cs = ds := by
    have hrun := congrArg (List.takeWhile p) htail
    rwa [takeWhile_append_run hds hrest, takeWhile_append_run hcs (by simpa using hc)] at hrun
  subst hsame
  exact ⟨rfl, tail, List.append_cancel_left htail⟩

end Runs

theorem Digits.isDigit_of_prefix {ds es cs : List Char} {c : Char} (h : Digits ds) (hpre : ds ++ es <+: c :: cs) :
    c.isDigit = true := by
  obtain ⟨hne, hall⟩ := h
  cases ds with
  | nil => exact absurd rfl hne
  | cons d ds =>
      rw [List.cons_append, List.cons_prefix_cons] at hpre
      rw [← hpre.1]
      exact hall d (by simp)

theorem isNameStart_of_isDigit {c : Char} (h : c.isDigit = true) : isNameStart c = false := by
  have halpha : c.isAlpha = false := by
    rw [Bool.eq_false_iff]
    intro halpha
    change (decide ('A'.val ≤ c.val ∧ c.val ≤ 'Z'.val) || ('a'.val ≤ c.val && c.val ≤ 'z'.val)) = true at halpha
    simp only [Bool.or_eq_true, Bool.and_eq_true, decide_eq_true_eq, UInt32.le_iff_toNat_le] at halpha
    change (65 ≤ c.toNat ∧ c.toNat ≤ 90) ∨ (97 ≤ c.toNat ∧ c.toNat ≤ 122) at halpha
    have hdigit : 48 ≤ c.toNat ∧ c.toNat ≤ 57 := Char.isDigit_iff_toNat.mp h
    omega
  have hscore : c ≠ '_' := by
    rintro rfl
    cases h
  simp [isNameStart, halpha, hscore]

/-! ## Symbols -/

namespace Lexeme

/-- A symbol is told by its first character, and by an equals sign behind it. -/
theorem symbol_of_mem {text : List Char} {kind : Token.Kind} (h : (text, kind) ∈ symbols) :
    ∃ c, c.isDigit = false ∧ isNameStart c = false ∧
      ((text = [c] ∧ singleKind? c = some kind) ∨ (text = [c, '='] ∧ joinsEquals c = true)) := by
  -- over the entries of the table, with their first characters
  have hall : ∀ entry ∈ symbols, (entry.1.headD ' ').isDigit = false ∧ isNameStart (entry.1.headD ' ') = false ∧
      ((entry.1 = [entry.1.headD ' '] ∧ singleKind? (entry.1.headD ' ') = some entry.2) ∨
        (entry.1 = [entry.1.headD ' ', '='] ∧ joinsEquals (entry.1.headD ' ') = true)) := by
    decide
  exact ⟨_, hall _ h⟩

theorem mem_symbols_of_singleKind? {c : Char} {kind : Token.Kind} (h : singleKind? c = some kind) :
    ([c], kind) ∈ symbols := by
  unfold singleKind? at h
  iterate 7
    split at h
    · next hc => cases h; subst hc; decide
  split at h
  · next hc =>
    cases h
    simp only [List.contains_iff_mem, List.mem_cons, List.mem_nil_iff, or_false] at hc
    rcases hc with rfl | rfl | rfl | rfl | rfl | rfl | rfl | rfl | rfl | rfl | rfl | rfl <;> decide
  · cases h

theorem mem_symbols_of_joinsEquals {c : Char} (h : joinsEquals c = true) : ([c, '='], .operator) ∈ symbols := by
  simp only [joinsEquals, Bool.or_eq_true, decide_eq_true_eq] at h
  rcases h with ((rfl | rfl) | rfl) | rfl <;> decide

/-! ## Numbers and words -/

/-- A number ends behind its fraction, behind its digits, or breaks off behind the point. -/
theorem number_cases {c : Char} (hc : c.isDigit = true) (cs : List Char) :
    (∃ ds rest, c :: cs = ds ++ '.' :: rest ∧ Digits ds ∧ (∀ d ∈ rest.head?, d.isDigit = false) ∧
      number c cs = .dangling (ds ++ ['.'])) ∨
    (∃ ds es rest, c :: cs = ds ++ '.' :: (es ++ rest) ∧ Digits ds ∧ Digits es ∧
      (∀ d ∈ rest.head?, d.isDigit = false) ∧ number c cs = .token .number (ds ++ '.' :: es)) ∨
    (∃ ds rest, c :: cs = ds ++ rest ∧ Digits ds ∧ (∀ d ∈ rest.head?, d.isDigit = false ∧ d ≠ '.') ∧
      number c cs = .token .number ds) := by
  have hds : Digits (c :: cs.takeWhile Char.isDigit) :=
    ⟨by simp, List.forall_mem_cons.mpr ⟨hc, fun d hd => List.mem_takeWhile_imp hd⟩⟩
  have hcs : cs.takeWhile Char.isDigit ++ cs.dropWhile Char.isDigit = cs := List.takeWhile_append_dropWhile
  unfold number
  split
  · next rest hdot =>
    rw [hdot] at hcs
    have hrest : rest.takeWhile Char.isDigit ++ rest.dropWhile Char.isDigit = rest := List.takeWhile_append_dropWhile
    split
    · next hfraction =>
      rw [hfraction, List.nil_append] at hrest
      exact .inl ⟨_, rest, by rw [List.cons_append, hcs], hds, hrest ▸ head_dropWhile rest, rfl⟩
    · next hfraction =>
      refine .inr (.inl ⟨_, rest.takeWhile Char.isDigit, rest.dropWhile Char.isDigit, ?_, hds, ?_,
        head_dropWhile rest, rfl⟩)
      · rw [hrest, List.cons_append, hcs]
      · exact ⟨hfraction, fun d hd => List.mem_takeWhile_imp hd⟩
  · next hdot =>
    refine .inr (.inr ⟨_, cs.dropWhile Char.isDigit, by rw [List.cons_append, hcs], hds, fun d hd => ?_, rfl⟩)
    refine ⟨head_dropWhile cs d hd, ?_⟩
    rintro rfl
    obtain ⟨rest, hrest⟩ := List.head?_eq_some_iff.mp hd
    exact hdot rest hrest

/-- A word ends where its characters do. -/
theorem word_cases (c : Char) (cs : List Char) :
    ∃ ds rest, c :: cs = (c :: ds) ++ rest ∧ (∀ d ∈ ds, isNameRest d = true) ∧
      (∀ d ∈ rest.head?, isNameRest d = false) ∧ word c cs = .token (wordKind (c :: ds)) (c :: ds) := by
  refine ⟨cs.takeWhile isNameRest, cs.dropWhile isNameRest, ?_, ?_, head_dropWhile cs, rfl⟩
  · rw [List.cons_append, List.takeWhile_append_dropWhile]
  · intro d hd
    exact List.mem_takeWhile_imp hd

end Lexeme

/-! ## The longest match -/

/-- Truth values begin like names. -/
theorem isNameStart_of_truth {text cs : List Char} {c : Char} (h : text ∈ truthWords) (hpre : text <+: c :: cs) :
    isNameStart c = true := by
  have hall : ∀ text ∈ truthWords, text ≠ [] ∧ isNameStart (text.headD ' ') = true := by decide
  obtain ⟨hne, hstart⟩ := hall text h
  cases text with
  | nil => exact absurd rfl hne
  | cons d ds =>
      rw [← (List.cons_prefix_cons.mp hpre).1]
      exact hstart

/-- A pattern that matches at the front of a text is one of those that the first character allows. -/
theorem Pattern.cases_of_prefix {lexeme : Lexeme} {c : Char} {cs : List Char} (h : Pattern lexeme)
    (hpre : lexeme.chars <+: c :: cs) :
    (c.isDigit = true ∧ ∃ ds, Digits ds ∧ (lexeme.chars = ds ∨
      ∃ es, (∀ e ∈ es, e.isDigit = true) ∧ lexeme.chars = ds ++ '.' :: es)) ∨
    (isNameStart c = true ∧ ∀ d ∈ lexeme.chars, isNameRest d = true) ∨
    (c.isDigit = false ∧ isNameStart c = false ∧ ∃ kind, (lexeme.chars, kind) ∈ symbols) := by
  cases h with
  | @symbol text kind h =>
      obtain ⟨d, hdigit, hname, htext⟩ := Lexeme.symbol_of_mem h
      have hd : d = c := by
        rcases htext with ⟨rfl, -⟩ | ⟨rfl, -⟩
        · exact (List.cons_prefix_cons.mp hpre).1
        · exact (List.cons_prefix_cons.mp hpre).1
      subst hd
      exact .inr (.inr ⟨hdigit, hname, kind, h⟩)
  | @whole ds hds =>
      have hpre : ds ++ [] <+: c :: cs := by rwa [List.append_nil]
      exact .inl ⟨hds.isDigit_of_prefix hpre, ds, hds, .inl rfl⟩
  | @decimal ds es hds hes => exact .inl ⟨hds.isDigit_of_prefix hpre, ds, hds, .inr ⟨es, hes.2, rfl⟩⟩
  | @broken ds hds => exact .inl ⟨hds.isDigit_of_prefix hpre, ds, hds, .inr ⟨[], by simp, rfl⟩⟩
  | @truth text h =>
      have hall : ∀ text ∈ truthWords, text.all isNameRest = true := by decide
      exact .inr (.inl ⟨isNameStart_of_truth h hpre, List.all_eq_true.mp (hall text h)⟩)
  | @name d ds hd hds =>
      rw [← (List.cons_prefix_cons.mp hpre).1]
      exact .inr (.inl ⟨hd, List.forall_mem_cons.mpr ⟨isNameRest_of_isNameStart hd, hds⟩⟩)

namespace Lexeme

variable {c : Char}

/-- What begins with no letter is no truth value. -/
theorem boolean_iff_truth {text cs : List Char} {kind : Token.Kind} (hname : isNameStart c = false)
    (hpre : text <+: c :: cs) (hkind : kind ≠ .boolean) :
    ∀ kind' text', Lexeme.token kind text = .token kind' text' → (kind' = .boolean ↔ text' ∈ truthWords) := by
  intro kind' text' h
  cases h
  refine ⟨fun h => absurd h hkind, fun h => ?_⟩
  rw [isNameStart_of_truth h hpre] at hname
  cases hname

/-- A number at the front of a text stops within its digits, or goes on behind all of them. -/
theorem length_le_or_point {ds rest : List Char} (hds : Digits ds) (hrest : ∀ d ∈ rest.head?, d.isDigit = false)
    {other : Lexeme} (hother : Pattern other) (hpre : other.chars <+: ds ++ rest) :
    other.chars.length ≤ ds.length ∨
      ∃ es, (∀ e ∈ es, e.isDigit = true) ∧ other.chars = ds ++ '.' :: es ∧ '.' :: es <+: rest := by
  obtain ⟨hne, hall⟩ := hds
  cases ds with
  | nil => exact absurd rfl hne
  | cons c cs =>
      have hc := hall c (by simp)
      rcases hother.cases_of_prefix hpre with ⟨-, ds', hds', hchars | ⟨es, hes, hchars⟩⟩ | ⟨hname, -⟩ | ⟨hdigit, -⟩
      · rw [hchars] at hpre ⊢
        exact .inl (length_le_of_run hds'.2 hrest hpre)
      · rw [hchars] at hpre ⊢
        obtain ⟨rfl, hes'⟩ := run_unique hds'.2 (by decide) hall hrest hpre
        exact .inr ⟨es, hes, rfl, hes'⟩
      · rw [isNameStart_of_isDigit hc] at hname
        cases hname
      · rw [hc] at hdigit
        cases hdigit

/-- No number goes further than the one that is taken. -/
theorem number_longest (hc : c.isDigit = true) (cs : List Char) : Longest (number c cs) (c :: cs) := by
  have hnot : ∀ {text}, text <+: c :: cs → ∀ kind text', Lexeme.token .number text = .token kind text' →
      (kind = .boolean ↔ text' ∈ truthWords) :=
    fun hpre => boolean_iff_truth (isNameStart_of_isDigit hc) hpre (by decide)
  rcases number_cases hc cs with ⟨ds, rest, htext, hds, hrest, hnumber⟩ |
      ⟨ds, es, rest, htext, hds, hes, hrest, hnumber⟩ | ⟨ds, rest, htext, hds, hrest, hnumber⟩
  · rw [hnumber, htext]
    refine .taken (.broken hds) ⟨rest, by simp [chars]⟩ (fun other hother hpre => ?_) (by simp)
    rw [chars, List.length_append, List.length_singleton]
    rcases length_le_or_point hds (by simp) hother hpre with hle | ⟨es, hes, hchars, hes'⟩
    · omega
    · have hle : es.length ≤ ([] : List Char).length :=
        length_le_of_run hes hrest (List.cons_prefix_cons.mp hes').2
      rw [List.length_nil] at hle
      rw [hchars, List.length_append, List.length_cons]
      omega
  · have hpre : ds ++ '.' :: es <+: c :: cs := ⟨rest, by simp [htext]⟩
    rw [hnumber]
    refine .taken (.decimal hds hes) hpre (fun other hother hpre => ?_) (hnot hpre)
    rw [htext] at hpre
    rw [chars, List.length_append, List.length_cons]
    rcases length_le_or_point hds (by simp) hother hpre with hle | ⟨es', hes', hchars, hpoint⟩
    · omega
    · have hle := length_le_of_run hes' hrest (List.cons_prefix_cons.mp hpoint).2
      rw [hchars, List.length_append, List.length_cons]
      omega
  · have hpre : ds <+: c :: cs := ⟨rest, htext.symm⟩
    rw [hnumber]
    refine .taken (.whole hds) hpre (fun other hother hpre => ?_) (hnot hpre)
    rw [htext] at hpre
    rcases length_le_or_point hds (fun d hd => (hrest d hd).1) hother hpre with hle | ⟨es, -, -, tail, htail⟩
    · exact hle
    · rw [← htail] at hrest
      exact absurd rfl (hrest '.' rfl).2

theorem wordKind_of_truth {text : List Char} (h : text ∈ truthWords) : wordKind text = .boolean := by
  revert text
  decide

theorem wordKind_of_not_truth {text : List Char} (h : text ∉ truthWords) : wordKind text = .identifier := by
  simp only [truthWords, List.mem_cons, List.mem_nil_iff, or_false, not_or] at h
  simp [wordKind, h.1, h.2]

/-- No word goes further than its characters do. -/
theorem word_longest (hc : isNameStart c = true) (cs : List Char) : Longest (word c cs) (c :: cs) := by
  obtain ⟨ds, rest, htext, hds, hrest, hword⟩ := word_cases c cs
  rw [hword]
  refine .taken ?_ ⟨rest, htext.symm⟩ (fun other hother hpre => ?_) ?_
  · by_cases htruth : c :: ds ∈ truthWords
    · rw [wordKind_of_truth htruth]
      exact .truth htruth
    · rw [wordKind_of_not_truth htruth]
      exact .name hc hds
  · rcases hother.cases_of_prefix hpre with ⟨hdigit, -⟩ | ⟨-, hall⟩ | ⟨-, hname, -⟩
    · rw [isNameStart_of_isDigit hdigit] at hc
      cases hc
    · exact length_le_of_run hall hrest (htext ▸ hpre)
    · rw [hname] at hc
      cases hc
  · intro kind text h
    cases h
    refine ⟨fun hkind => ?_, wordKind_of_truth⟩
    by_contra hnot
    rw [wordKind_of_not_truth hnot] at hkind
    cases hkind

/-- Only an equals sign can make a symbol longer than one character. -/
theorem symbol_longest (hblank : isBlank c = false) (hdigit : c.isDigit = false) (hname : isNameStart c = false)
    (cs : List Char) : Longest (symbol c cs) (c :: cs) := by
  have hothers : ∀ other, Pattern other → other.chars <+: c :: cs →
      (other.chars = [c] ∧ ∃ kind, singleKind? c = some kind) ∨
        (other.chars = [c, '='] ∧ joinsEquals c = true ∧ cs.head? = some '=') := by
    intro other hother hpre
    rcases hother.cases_of_prefix hpre with ⟨hyes, -⟩ | ⟨hyes, -⟩ | ⟨-, -, kind, hmem⟩
    · rw [hdigit] at hyes
      cases hyes
    · rw [hname] at hyes
      cases hyes
    · obtain ⟨d, -, -, ⟨htext, hkind⟩ | ⟨htext, hjoins⟩⟩ := symbol_of_mem hmem
      · rw [htext] at hpre ⊢
        obtain ⟨rfl, -⟩ := List.cons_prefix_cons.mp hpre
        exact .inl ⟨rfl, kind, hkind⟩
      · rw [htext] at hpre ⊢
        obtain ⟨rfl, tail, rfl⟩ := List.cons_prefix_cons.mp hpre
        exact .inr ⟨rfl, hjoins, rfl⟩
  unfold symbol
  split
  · next hequals =>
    obtain ⟨hjoins, hhead⟩ := Bool.and_eq_true_iff.mp hequals
    obtain ⟨rest, rfl⟩ := List.head?_eq_some_iff.mp (of_decide_eq_true hhead)
    have hpre : [c, '='] <+: c :: '=' :: rest := ⟨rest, rfl⟩
    refine .taken (.symbol (mem_symbols_of_joinsEquals hjoins)) hpre (fun other hother hpre => ?_)
      (boolean_iff_truth hname hpre (by decide))
    rcases hothers other hother hpre with ⟨hchars, -⟩ | ⟨hchars, -⟩
    · rw [hchars]
      exact Nat.le_succ 1
    · rw [hchars]
      exact Nat.le_refl _
  · next hequals =>
    have hsingle : ∀ other, Pattern other → other.chars <+: c :: cs →
        other.chars = [c] ∧ ∃ kind, singleKind? c = some kind := by
      intro other hother hpre
      rcases hothers other hother hpre with h | ⟨-, hjoins, hhead⟩
      · exact h
      · exact absurd (by simp [hjoins, hhead]) hequals
    split
    · next kind hkind =>
      have hpre : [c] <+: c :: cs := ⟨cs, rfl⟩
      have hmem := mem_symbols_of_singleKind? hkind
      refine .taken (.symbol hmem) hpre (fun other hother hpre => ?_) (boolean_iff_truth hname hpre ?_)
      · rw [(hsingle other hother hpre).1]
        exact Nat.le_refl _
      · have hall : ∀ entry ∈ symbols, entry.2 ≠ .boolean := by decide
        exact hall _ hmem
    · next hnone =>
      refine .refused hblank fun other hother hpre => ?_
      obtain ⟨-, kind, hkind⟩ := hsingle other hother hpre
      rw [hnone] at hkind
      cases hkind

/-- **The scanner takes the longest match.** -/
theorem first_longest (hblank : isBlank c = false) (cs : List Char) : Longest (first c cs) (c :: cs) := by
  unfold first
  split
  · next hdigit => exact number_longest hdigit cs
  · next hdigit =>
    split
    · next hname => exact word_longest hname cs
    · next hname => exact symbol_longest hblank (by simpa using hdigit) (by simpa using hname) cs

end Lexeme

end Abacus
