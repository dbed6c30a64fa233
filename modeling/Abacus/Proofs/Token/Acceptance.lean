import Abacus.Proofs.Token.Covering

/-!
# `Token.Acceptance` — which texts can be scanned

Whether a text can be scanned is a matter of single characters and what stands right next to them (`isMisplaced`):
characters that no token has, an exclamation mark without an equals sign, and a point that is not between the two parts
of a number. The first such character gives the failure.

The scanner knows whether digits are a number by where its last lexeme ended; the condition looks back from the point.
`Boundary` says that the two agree wherever a lexeme begins.

## Contents
- `isMisplaced`, `failurePlace` — the condition, and where it fails;
- `Clean` — texts without a misplaced character;
- `Boundary`, `Fits` — what is known in front of a lexeme, and what a lexeme does to it;
- `Judged` — the tokens of a text against the condition.
-/

namespace Abacus

open Scanner (tokens)

/-! ## The condition -/

/-- The characters of symbols, and the point. -/
def marks : List Char :=
  ['(', ')', '[', ']', '+', '-', '*', '/', '%', '<', '>', '=', '!', '&', '^', '|', '\x7b', '\x7d', ',', ';', '.']

/-- Tells whether a text can hold the character at all. -/
def isAllowed (c : Char) : Bool := isNameRest c || isBlank c || marks.contains c

/-- Tells whether the text ends in digits that neither a letter, an underscore nor a point stands in front of. -/
def endsInNumber (text : List Char) : Bool :=
  !(text.rtakeWhile Char.isDigit).isEmpty &&
    (text.rdropWhile Char.isDigit).getLast?.all fun c => !(isNameStart c || c = '.')

/-- Tells whether the text begins with a digit. -/
def beginsWithDigit (text : List Char) : Bool := text.head?.any Char.isDigit

/-- Tells whether the character between the two texts cannot stand there. -/
def isMisplaced (before : List Char) (c : Char) (after : List Char) : Bool :=
  !isAllowed c || (c = '!' && after.head? ≠ some '=') ||
    (c = '.' && !(endsInNumber before && beginsWithDigit after))

/-- Where a misplaced character behind `before` is reported: at its own place, but one column further on for the point
of a number that breaks off. -/
def failurePlace (before : List Char) (c : Char) : Position :=
  if c = '.' && endsInNumber before then ⟨(placeBehind before).line, (placeBehind before).column + 1⟩
  else placeBehind before

theorem failurePlace_of_not {before : List Char} {c : Char} (h : c = '.' → endsInNumber before = false) :
    failurePlace before c = placeBehind before := by
  unfold failurePlace
  rw [if_neg]
  simp only [Bool.and_eq_true, decide_eq_true_eq, not_and, Bool.not_eq_true]
  exact h

theorem failurePlace_point {before : List Char} (h : endsInNumber before = true) :
    failurePlace before '.' = placeBehind (before ++ ['.']) := by
  rw [placeBehind_concat, failurePlace, h]
  rfl

theorem isNameRest_eq_false {c : Char} : isNameRest c = false ↔ isNameStart c = false ∧ c.isDigit = false := by
  simp only [isNameRest, isNameStart, Char.isAlphanum, Bool.or_eq_false_iff]
  tauto

theorem isDigit_of_isNameStart {c : Char} (h : isNameStart c = true) : c.isDigit = false := by
  rw [Bool.eq_false_iff]
  intro hdigit
  rw [isNameStart_of_isDigit hdigit] at h
  cases h

/-- A character that belongs to no word and no number. -/
def Apart (c : Char) : Prop := isNameRest c = false ∧ c ≠ '.'

instance (c : Char) : Decidable (Apart c) := inferInstanceAs (Decidable (_ ∧ _))

theorem Apart.of_isBlank {c : Char} (h : isBlank c = true) : Apart c := by
  simp only [isBlank, Bool.or_eq_true, decide_eq_true_eq] at h
  rcases h with ((((rfl | rfl) | rfl) | rfl) | rfl) | rfl <;> decide

/-! ## Digits at the end -/

section Digits

variable {front ds : List Char} {c : Char}

theorem rtakeWhile_append_run {p : Char → Bool} (hds : ∀ d ∈ ds, p d = true)
    (hfront : ∀ d ∈ front.getLast?, p d = false) :
    (front ++ ds).rtakeWhile p = ds ∧ (front ++ ds).rdropWhile p = front := by
  have hrun : ∀ d ∈ ds.reverse, p d = true := fun d hd => hds d (List.mem_reverse.mp hd)
  have hstop : ∀ d ∈ front.reverse.head?, p d = false := by rwa [List.head?_reverse]
  constructor
  · rw [List.rtakeWhile, List.reverse_append, takeWhile_append_run hrun hstop, List.reverse_reverse]
  · rw [List.rdropWhile, List.reverse_append, dropWhile_append_run hrun hstop, List.reverse_reverse]

/-- Digits are a number by what stands in front of them. -/
theorem endsInNumber_append (hds : Digits ds) (hfront : ∀ d ∈ front.getLast?, Apart d) :
    endsInNumber (front ++ ds) = true := by
  have hlast : ∀ d ∈ front.getLast?, d.isDigit = false := fun d hd => (isNameRest_eq_false.mp (hfront d hd).1).2
  have hplain : ∀ d ∈ front.getLast?, (!(isNameStart d || d = '.')) = true := by
    intro d hd
    simp [(isNameRest_eq_false.mp (hfront d hd).1).1, (hfront d hd).2]
  obtain ⟨htake, hdrop⟩ := rtakeWhile_append_run hds.2 hlast
  rw [endsInNumber, htake, hdrop, Bool.and_eq_true]
  exact ⟨by simp [hds.1], Option.all_eq_true _ _ |>.mpr hplain⟩

/-- A text that ends with another character does not end in a number. -/
theorem endsInNumber_concat (hc : c.isDigit = false) : endsInNumber (front ++ [c]) = false := by
  simp [endsInNumber, hc]

/-- Digits behind a letter, an underscore or a point are no number. -/
theorem endsInNumber_cons (hc : c.isDigit = false) (hjoins : isNameStart c = true ∨ c = '.')
    (hds : ∀ d ∈ ds, d.isDigit = true) : endsInNumber (front ++ c :: ds) = false := by
  have hsplit : front ++ c :: ds = (front ++ [c]) ++ ds := by simp
  have hlast : ∀ d ∈ (front ++ [c]).getLast?, d.isDigit = false := by simpa using hc
  unfold endsInNumber
  rw [hsplit, (rtakeWhile_append_run hds hlast).2, List.getLast?_concat]
  rcases hjoins with hname | rfl
  · simp [hname]
  · simp

end Digits

/-- Behind its last letter or underscore a name has only digits. -/
theorem exists_last_letter {c : Char} (hc : isNameStart c = true) (cs : List Char)
    (hcs : ∀ d ∈ cs, isNameRest d = true) :
    ∃ front y ds, c :: cs = front ++ y :: ds ∧ isNameStart y = true ∧ ∀ d ∈ ds, d.isDigit = true := by
  induction cs using List.reverseRecOn with
  | nil => exact ⟨[], c, [], rfl, hc, by simp⟩
  | append_singleton cs d ih =>
      rw [List.forall_mem_append] at hcs
      obtain ⟨front, y, ds, hsplit, hy, hds⟩ := ih hcs.1
      by_cases hd : d.isDigit = true
      · refine ⟨front, y, ds ++ [d], ?_, hy, ?_⟩
        · rw [← List.cons_append, hsplit]
          simp
        · exact List.forall_mem_append.mpr ⟨hds, by simpa using hd⟩
      · refine ⟨c :: cs, d, [], rfl, ?_, by simp⟩
        have hrest := hcs.2 d (by simp)
        by_contra hname
        rw [isNameRest_eq_false.mpr ⟨by simpa using hname, by simpa using hd⟩] at hrest
        cases hrest

/-! ## Texts without a misplaced character -/

/-- Between `front` and `after`, no character of the text is misplaced. -/
def Clean (front text after : List Char) : Prop :=
  ∀ before c behind, text = before ++ c :: behind → isMisplaced (front ++ before) c (behind ++ after) = false

theorem Clean.nil (front after : List Char) : Clean front [] after := by
  intro before c behind h
  simp at h

theorem Clean.single {front after : List Char} {c : Char} (h : isMisplaced front c after = false) :
    Clean front [c] after := by
  intro before d behind hsplit
  cases before with
  | nil =>
      obtain ⟨rfl, rfl⟩ := List.cons.inj hsplit
      simpa using h
  | cons e before => simp at hsplit

/-- A text is clean when its pieces are, each in view of what surrounds it. -/
theorem Clean.append {front cs ds after : List Char} (hcs : Clean front cs (ds ++ after))
    (hds : Clean (front ++ cs) ds after) : Clean front (cs ++ ds) after := by
  intro before c behind hsplit
  rcases List.append_eq_append_iff.mp hsplit with ⟨more, rfl, hmore⟩ | ⟨more, rfl, hmore⟩
  · rw [← List.append_assoc]
    exact hds more c behind hmore
  · cases more with
    | nil => simpa using hds [] c behind hmore.symm
    | cons d more =>
        rw [List.cons_append] at hmore
        obtain ⟨rfl, rfl⟩ := List.cons.inj hmore
        rw [List.append_assoc]
        exact hcs before c more rfl

/-- A character that fits wherever it stands. -/
def Harmless (c : Char) : Prop := isAllowed c = true ∧ c ≠ '!' ∧ c ≠ '.'

instance (c : Char) : Decidable (Harmless c) := inferInstanceAs (Decidable (_ ∧ _ ∧ _))

theorem Harmless.isMisplaced {c : Char} (h : Harmless c) (before after : List Char) :
    isMisplaced before c after = false := by
  simp [Abacus.isMisplaced, h.1, h.2.1, h.2.2]

/-- Characters that are nowhere misplaced do not have to be looked at in context. -/
theorem Clean.of_harmless {front text after : List Char} (h : ∀ c ∈ text, Harmless c) : Clean front text after := by
  intro before c behind hsplit
  exact (h c (by simp [hsplit])).isMisplaced _ _

theorem Harmless.of_isNameRest {c : Char} (h : isNameRest c = true) : Harmless c := by
  refine ⟨by simp [isAllowed, h], ?_, ?_⟩ <;> rintro rfl <;> revert h <;> decide

theorem Harmless.of_isBlank {c : Char} (h : isBlank c = true) : Harmless c := by
  refine ⟨by simp [isAllowed, h], ?_, ?_⟩ <;> rintro rfl <;> revert h <;> decide

theorem beginsWithDigit_eq_false {text : List Char} (h : ∀ d ∈ text.head?, d.isDigit = false) :
    beginsWithDigit text = false := by
  cases text with
  | nil => rfl
  | cons c cs => exact h c rfl

theorem Digits.beginsWithDigit {ds : List Char} (h : Digits ds) (rest : List Char) :
    Abacus.beginsWithDigit (ds ++ rest) = true := by
  obtain ⟨hne, hall⟩ := h
  cases ds with
  | nil => exact absurd rfl hne
  | cons d ds => exact hall d (by simp)

/-! ## In front of a lexeme -/

/-- Where a lexeme begins with a digit, the digit is not the rest of something; where it begins with a point, the point
belongs to no number. -/
structure Boundary (front rest : List Char) : Prop where
  digit : ∀ d ∈ rest.head?, d.isDigit = true → ∀ e ∈ front.getLast?, Apart e
  point : rest.head? = some '.' → endsInNumber front = false

theorem Boundary.start (rest : List Char) : Boundary [] rest where
  digit := by simp
  point _ := rfl

/-- Behind a character that no word and no number has. -/
theorem Boundary.concat {c : Char} (hc : Apart c) (front rest : List Char) :
    Boundary (front ++ [c]) rest where
  digit d _ _ e he := by
    rw [List.getLast?_concat] at he
    cases he
    exact hc
  point _ := endsInNumber_concat (isNameRest_eq_false.mp hc.1).2

/-- In front of a character that begins neither a number nor a fraction. -/
theorem Boundary.of_head {front rest : List Char} (hdigit : ∀ d ∈ rest.head?, d.isDigit = false)
    (hpoint : rest.head? = some '.' → endsInNumber front = false) : Boundary front rest where
  digit d hd hyes := by
    rw [hdigit d hd] at hyes
    cases hyes
  point := hpoint

/-- What a lexeme behind `front` says about the text: a token has no misplaced character and leads to a boundary; a
failure is at the first misplaced one. -/
inductive Fits (front : List Char) : Lexeme → List Char → Prop where
  | token {kind : Token.Kind} {text rest : List Char} : Clean front text rest → Boundary (front ++ text) rest →
      Fits front (.token kind text) (text ++ rest)
  | refused {c : Char} {cs : List Char} : isMisplaced front c cs = true → (c = '.' → endsInNumber front = false) →
      Fits front (.refused c) (c :: cs)
  | dangling {ds rest : List Char} : Clean front ds ('.' :: rest) → isMisplaced (front ++ ds) '.' rest = true →
      endsInNumber (front ++ ds) = true → Fits front (.dangling (ds ++ ['.'])) (ds ++ '.' :: rest)

namespace Lexeme

variable {front cs : List Char} {c : Char}

/-- The point of a number has digits on both sides, or it is misplaced. -/
theorem number_fits (hc : c.isDigit = true) (h : Boundary front (c :: cs)) : Fits front (number c cs) (c :: cs) := by
  have hfront := h.digit c rfl hc
  have hclean : ∀ {ds front after}, Digits ds → Clean front ds after := fun hds =>
    .of_harmless fun d hd => .of_isNameRest (isNameRest_of_isDigit (hds.2 d hd))
  rcases number_cases hc cs with ⟨ds, rest, htext, hds, hrest, hnumber⟩ |
      ⟨ds, es, rest, htext, hds, hes, hrest, hnumber⟩ | ⟨ds, rest, htext, hds, hrest, hnumber⟩
  · have hmisplaced : isMisplaced (front ++ ds) '.' rest = true := by
      simp [isMisplaced, beginsWithDigit_eq_false hrest]
    rw [hnumber, htext]
    exact .dangling (hclean hds) hmisplaced (endsInNumber_append hds hfront)
  · have hpoint : isMisplaced (front ++ ds) '.' (es ++ rest) = false := by
      have hallowed : isAllowed '.' = true := by decide
      simp [isMisplaced, hallowed, endsInNumber_append hds hfront, hes.beginsWithDigit]
    have htext' : c :: cs = (ds ++ (['.'] ++ es)) ++ rest := by simp [htext]
    rw [hnumber, htext']
    refine .token (.append (hclean hds) (.append (.single hpoint) (hclean hes))) (.of_head hrest fun _ => ?_)
    rw [← List.append_assoc]
    exact endsInNumber_cons (by decide) (.inr rfl) hes.2
  · rw [hnumber, htext]
    refine .token (hclean hds) (.of_head (fun d hd => (hrest d hd).1) fun hdot => ?_)
    exact absurd rfl (hrest '.' hdot).2

/-- Digits at the end of a word are no number. -/
theorem word_fits (hc : isNameStart c = true) : Fits front (word c cs) (c :: cs) := by
  obtain ⟨ds, rest, htext, hds, hrest, hword⟩ := word_cases c cs
  obtain ⟨pre, y, es, hsplit, hy, hes⟩ := exists_last_letter hc ds hds
  rw [hword, htext]
  refine .token (.of_harmless ?_) (.of_head (fun d hd => (isNameRest_eq_false.mp (hrest d hd)).2) fun _ => ?_)
  · exact List.forall_mem_cons.mpr
      ⟨.of_isNameRest (isNameRest_of_isNameStart hc), fun d hd => .of_isNameRest (hds d hd)⟩
  · rw [hsplit, ← List.append_assoc]
    exact endsInNumber_cons (isDigit_of_isNameStart hy) (.inl hy) hes

/-- Only these two can stand in a text but are no symbols. -/
theorem mark_or_point (hallowed : isAllowed c = true) (hblank : isBlank c = false) (hname : isNameRest c = false)
    (hnone : singleKind? c = none) : c = '!' ∨ c = '.' := by
  rw [isAllowed, hblank, hname, Bool.or_false, Bool.false_or, List.contains_iff_mem] at hallowed
  have hall : marks.all (fun d => (singleKind? d).isSome || d = '!' || d = '.') = true := by decide
  have hc := List.all_eq_true.mp hall c hallowed
  simpa [hnone] using hc

/-- The characters of symbols are allowed, and separate what is around them. -/
theorem symbol_chars {text : List Char} {kind : Token.Kind} (h : (text, kind) ∈ symbols) (hc : c ∈ text) :
    Apart c ∧ isAllowed c = true := by
  have hall : ∀ entry ∈ symbols, entry.1.all (fun d => Apart d && isAllowed d) = true := by decide
  simpa using List.all_eq_true.mp (hall _ h) c hc

/-- A character that is no symbol is not allowed, or is an exclamation mark or a point by itself. -/
theorem symbol_fits (hblank : isBlank c = false) (hname : isNameRest c = false) (h : Boundary front (c :: cs)) :
    Fits front (symbol c cs) (c :: cs) := by
  unfold symbol
  split
  · next hequals =>
    obtain ⟨hjoins, hhead⟩ := Bool.and_eq_true_iff.mp hequals
    obtain ⟨rest, rfl⟩ := List.head?_eq_some_iff.mp (of_decide_eq_true hhead)
    obtain ⟨hapart, hallowed⟩ := symbol_chars (mem_symbols_of_joinsEquals hjoins) (List.mem_cons_self ..)
    have hfirst : isMisplaced front c (['='] ++ rest) = false := by
      simp [isMisplaced, hapart.2, hallowed]
    have hequal : Harmless '=' := by decide
    have hclean : Clean front ([c] ++ ['=']) rest :=
      .append (.single hfirst) (.of_harmless (List.forall_mem_singleton.mpr hequal))
    have hboundary : Boundary (front ++ ([c] ++ ['='])) rest := by
      rw [← List.append_assoc]
      exact .concat (by decide) _ _
    exact .token hclean hboundary
  · next hequals =>
    split
    · next kind hkind =>
      obtain ⟨hapart, hallowed⟩ := symbol_chars (mem_symbols_of_singleKind? hkind) (List.mem_cons_self ..)
      have hmark : c ≠ '!' := by
        rintro rfl
        cases hkind
      have hclean : Clean front [c] cs := .of_harmless (List.forall_mem_singleton.mpr ⟨hallowed, hmark, hapart.2⟩)
      exact .token hclean (.concat hapart _ _)
    · next hnone =>
      have hpoint : c = '.' → endsInNumber front = false := by
        rintro rfl
        exact h.point rfl
      refine .refused ?_ hpoint
      by_cases hallowed : isAllowed c = true
      · rcases mark_or_point hallowed hblank hname hnone with rfl | rfl
        · have hhead : cs.head? ≠ some '=' := by
            intro hhead
            exact hequals (by simp [hhead, joinsEquals])
          simp [isMisplaced, hhead]
        · simp [isMisplaced, hpoint rfl]
      · simp [isMisplaced, hallowed]

/-- Every lexeme keeps to the condition. -/
theorem first_fits (hblank : isBlank c = false) (h : Boundary front (c :: cs)) : Fits front (first c cs) (c :: cs) := by
  unfold first
  split
  · next hdigit => exact number_fits hdigit h
  · next hdigit =>
    split
    · next hname => exact word_fits hname
    · next hname =>
      exact symbol_fits hblank (isNameRest_eq_false.mpr ⟨by simpa using hname, by simpa using hdigit⟩) h

end Lexeme

/-! ## Whole texts -/

/-- Behind `front`, the text has no misplaced character and is accepted; or its first one is reported. -/
inductive Judged (front text : List Char) : Except SyntaxError (List Token) → Prop where
  | accepted {ts : List Token} : Clean front text [] → Judged front text (.ok ts)
  | failed {before : List Char} {c : Char} {after : List Char} : text = before ++ c :: after →
      Clean front before (c :: after) → isMisplaced (front ++ before) c after = true →
      Judged front text (.error ⟨failurePlace (front ++ before) c⟩)

theorem Judged.map {front text : List Char} {result : Except SyntaxError (List Token)} (h : Judged front text result)
    (f : List Token → List Token) : Judged front text (result.map f) := by
  cases h with
  | accepted hclean => exact .accepted hclean
  | failed hsplit hclean hmisplaced => exact .failed hsplit hclean hmisplaced

/-- Characters that are not misplaced leave the judgement to the rest of the text. -/
theorem Judged.behind {front cs rest : List Char} {result : Except SyntaxError (List Token)} (hcs : Clean front cs rest)
    (h : Judged (front ++ cs) rest result) : Judged front (cs ++ rest) result := by
  cases h with
  | accepted hclean => exact .accepted (.append (by rwa [List.append_nil]) hclean)
  | @failed before c after hsplit hclean hmisplaced =>
      subst hsplit
      rw [List.append_assoc] at hmisplaced ⊢
      exact .failed (List.append_assoc ..).symm (.append hcs hclean) hmisplaced

/-- By induction along the scanner, with the text in front of it: blanks and lexemes leave a boundary behind, at which
the rest is judged. -/
theorem tokens_judged (pos : Position) (text : List Char) :
    ∀ front : List Char, pos = placeBehind front → Boundary front text → Judged front text (tokens ⟨pos, text⟩) := by
  induction pos, text using scan_induction with
  | nil pos =>
      intro front _ _
      rw [Scanner.tokens_nil]
      exact .accepted (.nil front [])
  | blank pos c cs hc ih =>
      rintro front rfl _
      rw [Scanner.tokens_blank hc]
      have hclean : Clean front [c] cs := .of_harmless (List.forall_mem_singleton.mpr (.of_isBlank hc))
      have hboundary : Boundary (front ++ [c]) cs := .concat (.of_isBlank hc) _ _
      exact .behind hclean (ih _ (placeBehind_concat front c).symm hboundary)
  | lexeme pos c cs hc ih =>
      rintro front rfl hboundary
      have hfits := Lexeme.first_fits hc hboundary
      rw [Scanner.tokens_cons hc]
      generalize Lexeme.first c cs = lexeme at hfits ih ⊢
      generalize c :: cs = whole at hfits ih ⊢
      cases hfits with
      | @token kind text rest hclean hboundary' =>
          simp only [Lexeme.chars, Lexeme.result, List.drop_left, advance_placeBehind] at ih ⊢
          exact (Judged.behind hclean (ih _ rfl hboundary')).map _
      | @refused c cs hmisplaced hpoint =>
          have hfailed : Judged front (c :: cs) (.error ⟨failurePlace (front ++ []) c⟩) :=
            .failed rfl (.nil _ _) (by rwa [List.append_nil])
          rwa [List.append_nil, failurePlace_of_not hpoint] at hfailed
      | @dangling ds rest hclean hmisplaced hnumber =>
          rw [Lexeme.result, advance_placeBehind, ← List.append_assoc, ← failurePlace_point hnumber]
          exact .failed rfl hclean hmisplaced

/-- A text has only one first misplaced character. -/
theorem first_misplaced_unique {text before before' after after' : List Char} {c c' : Char}
    (hsplit : text = before ++ c :: after) (hmisplaced : isMisplaced before c after = true)
    (hfirst : ∀ b d a, text = b ++ d :: a → b.length < before.length → isMisplaced b d a = false)
    (hsplit' : text = before' ++ c' :: after') (hmisplaced' : isMisplaced before' c' after' = true)
    (hclean' : Clean [] before' (c' :: after')) : before = before' ∧ c = c' := by
  have hle : before.length ≤ before'.length := by
    by_contra hlt
    rw [hfirst before' c' after' hsplit' (by omega)] at hmisplaced'
    cases hmisplaced'
  rcases List.append_eq_append_iff.mp (hsplit.symm.trans hsplit') with ⟨more, rfl, hmore⟩ | ⟨more, rfl, hmore⟩
  · cases more with
    | nil =>
        rw [List.nil_append] at hmore
        obtain ⟨rfl, -⟩ := List.cons.inj hmore
        exact ⟨(List.append_nil _).symm, rfl⟩
    | cons d more =>
        -- the character would stand in the part that has none
        rw [List.cons_append] at hmore
        obtain ⟨rfl, rfl⟩ := List.cons.inj hmore
        have hno := hclean' before c more rfl
        rw [List.nil_append, hmisplaced] at hno
        cases hno
  · rw [List.length_append] at hle
    have hnil : more = [] := List.length_eq_zero_iff.mp (by omega)
    subst hnil
    rw [List.nil_append] at hmore
    obtain ⟨rfl, -⟩ := List.cons.inj hmore
    exact ⟨List.append_nil _, rfl⟩

/-- **A text can be scanned just when none of its characters is misplaced, and the first one that is gives the
failure.** It is reported at its own place; the point of a number that breaks off is reported one column further on. -/
theorem lex_accepts_iff_none_misplaced (source : String) :
    ((∃ ts, lex source = .ok ts) ↔
      ∀ before c after, source.toList = before ++ c :: after → isMisplaced before c after = false) ∧
    ∀ before c after, source.toList = before ++ c :: after → isMisplaced before c after = true →
      (∀ b d a, source.toList = b ++ d :: a → b.length < before.length → isMisplaced b d a = false) →
      lex source = .error ⟨failurePlace before c⟩ := by
  have hjudged : Judged [] source.toList (lex source) := tokens_judged _ _ [] rfl (.start _)
  generalize lex source = result at hjudged
  cases hjudged with
  | @accepted ts hclean =>
      have hnone : ∀ before c after, source.toList = before ++ c :: after → isMisplaced before c after = false := by
        intro before c after hsplit
        simpa using hclean before c after hsplit
      refine ⟨⟨fun _ => hnone, fun _ => ⟨ts, rfl⟩⟩, fun before c after hsplit hmisplaced => ?_⟩
      rw [hnone before c after hsplit] at hmisplaced
      cases hmisplaced
  | @failed before c after hsplit hclean hmisplaced =>
      rw [List.nil_append] at hmisplaced ⊢
      refine ⟨⟨?_, fun hnone => ?_⟩, fun before' c' after' hsplit' hmisplaced' hfirst => ?_⟩
      · rintro ⟨ts, hok⟩
        cases hok
      · rw [hnone before c after hsplit] at hmisplaced
        cases hmisplaced
      · obtain ⟨rfl, rfl⟩ := first_misplaced_unique hsplit' hmisplaced' hfirst hsplit hmisplaced hclean
        rfl

/-- The digit of `a1` belongs to the name, so the point behind it is misplaced. -/
theorem lex_accepts_iff_none_misplaced_name : lex "a1.5" = .error ⟨⟨1, 3⟩⟩ := by
  refine (lex_accepts_iff_none_misplaced "a1.5").2 ['a', '1'] '.' ['5'] (by decide) (by decide) ?_
  intro b d a hsplit hlt
  have htext : ['a', '1', '.', '5'] = b ++ d :: a := hsplit
  match b with
  | [] => cases htext; decide
  | [_] => cases htext; decide
  | _ :: _ :: _ => exact absurd hlt (by simp)

end Abacus
