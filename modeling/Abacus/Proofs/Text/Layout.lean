import Abacus.Proofs.Number.Writing
import Abacus.Proofs.Text.Semicolons
import Abacus.Term.Render

/-!
# `Text.Layout` — lines that are indented by nesting

A text is laid out if its blocks are closed as often and never before they are opened, if each line is indented by the
blocks that are open there, and if the word `else` begins the line behind a closing brace (`LaidOut`). This is said of
a finished text, through its characters and its lines.

That a text is so is seen by reading its lines from first to last. All there is to know in front of a line is how many
blocks are open, and whether the line before closed one. `Line` says what a line may be then and what is known behind
it, and `Laid` follows line after line. Each property of a text is one of lines first (`Line.nesting`, `Line.indented`,
`Line.otherwise`), and then of all lines in a row.

## Contents
- `words`, `nesting`, `indentation`, `LaidOut` — the property of a text;
- `Quiet`, `Content` — what stands on a line, apart from its braces;
- `Line`, `Laid` — one line, and all lines up to the end;
- `Laid.laidOut` — texts that can be followed this way are laid out;
- `Lays` — texts that stand between other lines.
-/

namespace Abacus

/-! ## Texts that are laid out -/

/-- The words of a text: letters, digits and underscores in a row, between other characters. -/
def words (cs : List Char) : List (List Char) := cs.splitOnP (!isNameRest ·)

/-- How many more braces a text opens than it closes. -/
def nesting (cs : List Char) : ℤ := cs.count '\x7b' - cs.count '\x7d'

/-- How many spaces a line begins with. -/
def indentation (line : List Char) : Nat := (line.takeWhile (· = ' ')).length

/-- A text whose lines are indented by nesting. -/
structure LaidOut (text : List Char) : Prop where
  closed : text.count '\x7b' = text.count '\x7d'
  opened : ∀ front, front <+: text → front.count '\x7d' ≤ front.count '\x7b'
  /-- A line is indented by the blocks that the lines before it leave open, less the one that it closes. -/
  indented : ∀ before line after, text.splitOn '\n' = before ++ line :: after →
    (indentation line : ℤ) =
      4 * nesting before.flatten - if (line.dropWhile (· = ' ')).head? = some '\x7d' then 4 else 0
  /-- The word `else` begins a line, and occurs there once; the line before it closes a block at the same place. -/
  otherwise : ∀ before line after, text.splitOn '\n' = before ++ line :: after → "else".toList ∈ words line →
    ∃ k rest earlier, line = List.replicate k ' ' ++ "else ".toList ++ rest ∧ "else".toList ∉ words rest ∧
      before = earlier ++ [List.replicate k ' ' ++ ['\x7d']]

/-! ## Words -/

section Words

variable {c : Char} {cs xs ys w : List Char}

theorem words_append (hc : isNameRest c = false) (xs ys : List Char) :
    words (xs ++ c :: ys) = words xs ++ words ys :=
  List.splitOnP_append_cons xs ys (by simp [hc])

theorem words_cons (hc : isNameRest c = false) (ys : List Char) : words (c :: ys) = [] :: words ys :=
  words_append hc [] ys

theorem words_of_isNameRest (h : ∀ c ∈ cs, isNameRest c = true) : words cs = [cs] :=
  List.splitOnP_eq_singleton fun c hc => by simp [h c hc]

/-- A word has characters of the text only. -/
theorem mem_of_mem_words (h : w ∈ words cs) : ∀ c ∈ w, c ∈ cs := by
  unfold words at h
  induction cs generalizing w with
  | nil =>
      rw [List.splitOnP_nil, List.mem_singleton] at h
      simp [h]
  | cons d cs ih =>
      rw [List.splitOnP_cons_eq_if_modifyHead] at h
      intro c hc
      split at h
      · rcases List.mem_cons.mp h with rfl | h
        · cases hc
        · exact List.mem_cons_of_mem _ (ih h c hc)
      · obtain ⟨v, vs, hvs⟩ := List.exists_cons_of_ne_nil (List.splitOnP_ne_nil (!isNameRest ·) cs)
        rw [hvs, List.modifyHead_cons] at h
        rw [hvs] at ih
        rcases List.mem_cons.mp h with rfl | h
        · rcases List.mem_cons.mp hc with rfl | hc
          · exact List.mem_cons_self ..
          · exact List.mem_cons_of_mem _ (ih (List.mem_cons_self ..) c hc)
        · exact List.mem_cons_of_mem _ (ih (List.mem_cons_of_mem _ h) c hc)

/-- Spaces in front bring no word. -/
theorem mem_words_replicate (hw : w ≠ []) (k : Nat) : w ∈ words (List.replicate k ' ' ++ cs) ↔ w ∈ words cs := by
  induction k with
  | zero => rfl
  | succ k ih =>
      rw [List.replicate_succ, List.cons_append, words_cons (by decide), List.mem_cons, ih]
      exact or_iff_right hw

end Words

/-! ## Nesting -/

section Nesting

variable {cs : List Char}

@[simp] theorem nesting_nil : nesting [] = 0 := rfl

@[simp] theorem nesting_append (xs ys : List Char) : nesting (xs ++ ys) = nesting xs + nesting ys := by
  simp only [nesting, List.count_append]
  omega

theorem nesting_of_plain (h : ∀ c ∈ cs, Plain c) : nesting cs = 0 := by
  have hopen : cs.count '\x7b' = 0 := List.count_eq_zero.mpr fun hmem => (h _ hmem).2.1 rfl
  have hclose : cs.count '\x7d' = 0 := List.count_eq_zero.mpr fun hmem => (h _ hmem).2.2 rfl
  rw [nesting, hopen, hclose]
  rfl

/-- Line breaks do not count. -/
theorem nesting_intercalate (lines : List (List Char)) :
    nesting (['\n'].intercalate lines) = nesting lines.flatten := by
  induction lines with
  | nil => rfl
  | cons line lines ih =>
      cases lines with
      | nil => simp
      | cons line' lines =>
          have hbreak : nesting ['\n'] = 0 := rfl
          have hall : (line :: line' :: lines).flatten = line ++ (line' :: lines).flatten := List.flatten_cons ..
          rw [List.intercalate_cons_cons, nesting_append, nesting_append, hbreak, ih, hall,
            nesting_append, Int.add_zero]

theorem prefix_append_cases {α : Type} {front xs ys : List α} (h : front <+: xs ++ ys) :
    front <+: xs ∨ ∃ zs, front = xs ++ zs ∧ zs <+: ys := by
  rcases List.prefix_or_prefix_of_prefix h (List.prefix_append xs ys) with hshort | ⟨zs, rfl⟩
  · exact .inl hshort
  · exact .inr ⟨zs, rfl, (List.prefix_append_right_inj xs).mp h⟩

end Nesting

/-! ## What stands on a line -/

/-- A text without line breaks and braces, in which the word `else` does not occur. -/
structure Quiet (cs : List Char) : Prop where
  plain : ∀ c ∈ cs, Plain c
  noElse : "else".toList ∉ words cs

/-- A quiet text that begins with another character than a space. -/
structure Content (cs : List Char) : Prop extends Quiet cs where
  visible : ∃ c ds, cs = c :: ds ∧ c ≠ ' '

namespace Quiet

variable {c : Char} {cs xs ys : List Char}

theorem nil : Quiet [] := ⟨nofun, by decide⟩

/-- Quiet texts with another character than a letter or a digit between them. -/
theorem join (hx : Quiet xs) (hc : isNameRest c = false ∧ Plain c) (hy : Quiet ys) : Quiet (xs ++ c :: ys) where
  plain := by
    simp only [List.forall_mem_append, List.forall_mem_cons]
    exact ⟨hx.plain, hc.2, hy.plain⟩
  noElse := by
    rw [words_append hc.1, List.mem_append]
    exact not_or.mpr ⟨hx.noElse, hy.noElse⟩

theorem cons (hc : isNameRest c = false ∧ Plain c) (hy : Quiet ys) : Quiet (c :: ys) := nil.join hc hy

/-- One word. -/
theorem word (h : ∀ c ∈ cs, isNameRest c = true) (hne : cs ≠ "else".toList) : Quiet cs where
  plain c hc := .of_isNameRest (h c hc)
  noElse := by
    rw [words_of_isNameRest h, List.mem_singleton]
    exact hne.symm

theorem list {texts : List String} (h : ∀ text ∈ texts, Quiet text.toList) :
    Quiet (", ".intercalate texts).toList := by
  induction texts with
  | nil => exact nil
  | cons text texts ih =>
      obtain ⟨hfirst, hmore⟩ := List.forall_mem_cons.mp h
      cases texts with
      | nil => simpa using hfirst
      | cons text' texts =>
          have htext : (", ".intercalate (text :: text' :: texts)).toList =
              text.toList ++ (',' :: ' ' :: (", ".intercalate (text' :: texts)).toList) := by
            simp [String.intercalate_cons_cons]
          rw [htext]
          exact hfirst.join (by decide) (.cons (by decide) (ih hmore))

end Quiet

/-- What follows a text with content. -/
theorem Content.join {c : Char} {xs ys : List Char} (hx : Content xs) (hc : isNameRest c = false ∧ Plain c)
    (hy : Quiet ys) : Content (xs ++ c :: ys) where
  toQuiet := hx.toQuiet.join hc hy
  visible := by
    obtain ⟨d, ds, rfl, hd⟩ := hx.visible
    exact ⟨d, ds ++ c :: ys, rfl, hd⟩

theorem Content.cons {c : Char} {ys : List Char} (hc : isNameRest c = false ∧ Plain c) (hspace : c ≠ ' ')
    (hy : Quiet ys) : Content (c :: ys) where
  toQuiet := .cons hc hy
  visible := ⟨c, ys, rfl, hspace⟩

theorem Number.plain_text (x : Float) : ∀ c ∈ (text x).toList, Plain c := by
  have hall : ∀ c ∈ alphabet, Plain c := plain_of_all (by decide)
  exact fun c hc => hall c (mem_alphabet_of_text x c hc)

/-- The text of a number has no letter `l`. -/
theorem Number.content_text (x : Float) : Content (text x).toList where
  plain := plain_text x
  noElse h := by
    have hmem : 'l' ∈ alphabet := mem_alphabet_of_text x _ (mem_of_mem_words h 'l' (by decide))
    exact absurd hmem (by decide)
  visible := by
    obtain ⟨c, cs, htext⟩ := List.exists_cons_of_ne_nil (text_ne_nil x)
    have hmem : c ∈ alphabet := mem_alphabet_of_text x c (by simp [htext])
    refine ⟨c, cs, htext, ?_⟩
    rintro rfl
    exact absurd hmem (by decide)

/-- A name or a keyword, but not `else`. -/
theorem content_word {word : String} (h : IsLexeme .identifier word.toList) (hne : word ≠ "else") :
    Content word.toList := by
  obtain ⟨c, cs, htext, hfirst⟩ := h
  rcases Lexeme.first_cases hfirst with ⟨hkind, -⟩ | ⟨-, hname, hrun, -⟩ | hsymbol
  · cases hkind
  · have hall : ∀ d ∈ word.toList, isNameRest d = true := by
      rw [htext, hrun]
      refine List.forall_mem_cons.mpr ⟨isNameRest_of_isNameStart hname, fun d hd => List.mem_takeWhile_imp hd⟩
    refine ⟨.word hall fun heq => hne (String.toList_inj.mp heq), c, cs, htext, ?_⟩
    rintro rfl
    exact absurd hname (by decide)
  · exact absurd (by decide) (Lexeme.symbol_kind hsymbol)

/-! ## One line -/

/-- The spaces in front of a line in `depth` blocks. -/
def margin (depth : Nat) : List Char := List.replicate (depth * Term.indentWidth) ' '

/-- A line where `depth` blocks are open, and with it how many are open behind it. The truth values tell whether the
line before, and this line, closes a block. -/
inductive Line : Nat → Bool → List Char → Nat → Bool → Prop where
  | plain {depth : Nat} {closed : Bool} {cs : List Char} :
      Content cs → Line depth closed (margin depth ++ cs) depth false
  | opening {depth : Nat} {closed : Bool} {cs : List Char} :
      Content cs → Line depth closed (margin depth ++ (cs ++ [' ', '\x7b'])) (depth + 1) false
  | closing {depth : Nat} {closed : Bool} : Line (depth + 1) closed (margin depth ++ ['\x7d']) depth true
  /-- The word `else` follows a line that closes a block. -/
  | otherwise {depth : Nat} {cs : List Char} :
      Quiet cs → Line depth true (margin depth ++ ("else ".toList ++ (cs ++ ['\x7b']))) (depth + 1) false

theorem plain_margin (depth : Nat) : ∀ c ∈ margin depth, Plain c := plain_spaces _

theorem dropWhile_margin {c : Char} (hc : c ≠ ' ') (depth : Nat) (cs : List Char) :
    (margin depth ++ c :: cs).dropWhile (· = ' ') = c :: cs := by
  rw [List.dropWhile_append_of_pos (by simp [margin])]
  simp [hc]

theorem indentation_margin {c : Char} (hc : c ≠ ' ') (depth : Nat) (cs : List Char) :
    indentation (margin depth ++ c :: cs) = 4 * depth := by
  rw [indentation, List.takeWhile_append_of_pos (by simp [margin])]
  simp [hc, margin, Term.indentWidth, Nat.mul_comm]

theorem mem_words_margin {w : List Char} (hw : w ≠ []) (depth : Nat) (cs : List Char) :
    w ∈ words (margin depth ++ cs) ↔ w ∈ words cs :=
  mem_words_replicate hw _

namespace Line

variable {depth depth' : Nat} {closed closed' : Bool} {line front : List Char}

/-- There is a brace at the end of a line at most. -/
theorem brace (h : Line depth closed line depth' closed') :
    ∃ cs last, line = cs ++ last ∧ (∀ c ∈ cs, Plain c) ∧ last ∈ [[], ['\x7b'], ['\x7d']] := by
  cases h with
  | @plain _ _ cs h =>
      refine ⟨margin depth ++ cs, [], (List.append_nil _).symm, ?_, by simp⟩
      exact List.forall_mem_append.mpr ⟨plain_margin depth, h.plain⟩
  | @opening _ _ cs h =>
      refine ⟨margin depth ++ (cs ++ [' ']), ['\x7b'], by simp, ?_, by simp⟩
      simp only [List.forall_mem_append, List.forall_mem_singleton]
      exact ⟨plain_margin depth, h.plain, by decide⟩
  | closing => exact ⟨margin depth', ['\x7d'], rfl, plain_margin depth', by simp⟩
  | @otherwise _ cs h =>
      refine ⟨margin depth ++ ("else ".toList ++ cs), ['\x7b'], by simp, ?_, by simp⟩
      simp only [List.forall_mem_append]
      exact ⟨plain_margin depth, plain_of_all (by decide), h.plain⟩

theorem not_mem_newline (h : Line depth closed line depth' closed') : '\n' ∉ line := by
  obtain ⟨cs, last, rfl, hcs, hlast⟩ := h.brace
  rw [List.mem_append, not_or]
  refine ⟨not_mem_of_plain hcs, ?_⟩
  simp only [List.mem_cons, List.mem_nil_iff, or_false] at hlast
  rcases hlast with rfl | rfl | rfl <;> decide

/-- The braces of a line take the depth to what it is behind the line. -/
theorem nesting (h : Line depth closed line depth' closed') : nesting line = depth' - depth := by
  have hmargin (depth : Nat) := nesting_of_plain (plain_margin depth)
  cases h with
  | plain h =>
      rw [nesting_append, hmargin, nesting_of_plain h.plain]
      omega
  | opening h =>
      have hbrace : Abacus.nesting [' ', '\x7b'] = 1 := rfl
      rw [nesting_append, nesting_append, hmargin, nesting_of_plain h.plain, hbrace]
      omega
  | closing =>
      have hbrace : Abacus.nesting ['\x7d'] = -1 := rfl
      rw [nesting_append, hmargin, hbrace]
      omega
  | otherwise h =>
      have hword : Abacus.nesting "else ".toList = 0 := by decide
      have hbrace : Abacus.nesting ['\x7b'] = 1 := rfl
      rw [nesting_append, nesting_append, nesting_append, hmargin, hword, nesting_of_plain h.plain, hbrace]
      omega

/-- A line closes no more blocks than are open, up to any of its characters. -/
theorem opened (h : Line depth closed line depth' closed') (hfront : front <+: line) :
    -(depth : ℤ) ≤ Abacus.nesting front := by
  have hline := h.nesting
  obtain ⟨cs, last, rfl, hcs, hlast⟩ := h.brace
  have hcases : front = cs ++ last ∨ front <+: cs := by
    simp only [List.mem_cons, List.mem_nil_iff, or_false] at hlast
    rcases hlast with rfl | rfl | rfl
    · rw [List.append_nil] at hfront
      exact .inr hfront
    · exact List.prefix_concat_iff.mp hfront
    · exact List.prefix_concat_iff.mp hfront
  rcases hcases with rfl | hfront
  · omega
  · have hplain : Abacus.nesting front = 0 := nesting_of_plain fun c hc => hcs c (hfront.subset hc)
    omega

/-- Behind its spaces a line begins with a brace that closes a block, or has the indentation of all open blocks. -/
theorem begins (h : Line depth closed line depth' closed') :
    ∃ k c cs, line = margin k ++ c :: cs ∧ c ≠ ' ' ∧ (c = '\x7d' ∧ depth = k + 1 ∨ c ≠ '\x7d' ∧ depth = k) := by
  cases h with
  | plain h =>
      obtain ⟨c, ds, rfl, hspace⟩ := h.visible
      have hplain := h.plain c (List.mem_cons_self ..)
      exact ⟨depth, c, ds, rfl, hspace, .inr ⟨hplain.2.2, rfl⟩⟩
  | opening h =>
      obtain ⟨c, ds, rfl, hspace⟩ := h.visible
      have hplain := h.plain c (List.mem_cons_self ..)
      exact ⟨depth, c, _, rfl, hspace, .inr ⟨hplain.2.2, rfl⟩⟩
  | closing => exact ⟨depth', '\x7d', [], rfl, by decide, .inl ⟨rfl, rfl⟩⟩
  | otherwise h => exact ⟨depth, 'e', _, rfl, by decide, .inr ⟨by decide, rfl⟩⟩

theorem indented (h : Line depth closed line depth' closed') :
    (indentation line : ℤ) = 4 * depth - if (line.dropWhile (· = ' ')).head? = some '\x7d' then 4 else 0 := by
  obtain ⟨k, c, cs, rfl, hspace, ⟨rfl, rfl⟩ | ⟨hbrace, rfl⟩⟩ := h.begins
  · rw [indentation_margin hspace, dropWhile_margin hspace, List.head?_cons, if_pos rfl]
    omega
  · rw [indentation_margin hspace, dropWhile_margin hspace, List.head?_cons, if_neg (by simpa using hbrace)]
    omega

/-- The word `else` is where a line begins, behind a line that closes a block. -/
theorem otherwise_of_mem (h : Line depth closed line depth' closed') (helse : "else".toList ∈ words line) :
    closed = true ∧ ∃ rest, line = margin depth ++ "else ".toList ++ rest ∧ "else".toList ∉ words rest := by
  have hbraces : "else".toList ∉ words ['\x7b'] ∧ "else".toList ∉ words ['\x7d'] := by decide
  cases h with
  | plain h =>
      rw [mem_words_margin (by decide)] at helse
      exact absurd helse h.noElse
  | opening h =>
      rw [mem_words_margin (by decide), words_append (by decide), List.mem_append] at helse
      exact absurd helse (not_or.mpr ⟨h.noElse, hbraces.1⟩)
  | closing =>
      rw [mem_words_margin (by decide)] at helse
      exact absurd helse hbraces.2
  | @otherwise _ cs h =>
      refine ⟨rfl, cs ++ ['\x7b'], by rw [List.append_assoc], ?_⟩
      rw [words_append (by decide), List.mem_append, not_or]
      exact ⟨h.noElse, by decide⟩

theorem closes (h : Line depth closed line depth' true) : line = margin depth' ++ ['\x7d'] := by
  cases h
  rfl

/-- Behind a line that closes a block more lines are possible. -/
theorem behindClosing (h : Line depth false line depth' closed') : Line depth true line depth' closed' := by
  cases h with
  | plain h => exact .plain h
  | opening h => exact .opening h
  | closing => exact .closing

end Line

/-! ## All lines -/

/-- The lines up to the end of a text where `depth` blocks are open, and the line before closes one or does not. -/
inductive Laid : Nat → Bool → List (List Char) → Prop where
  | done {closed : Bool} : Laid 0 closed []
  | cons {depth depth' : Nat} {closed closed' : Bool} {line : List Char} {lines : List (List Char)} :
      Line depth closed line depth' closed' → Laid depth' closed' lines → Laid depth closed (line :: lines)

namespace Laid

variable {depth : Nat} {closed : Bool} {lines : List (List Char)}

theorem behindClosing (h : Laid depth false lines) : Laid depth true lines := by
  cases h with
  | done => exact .done
  | cons hline h => exact .cons hline.behindClosing h

/-- In the end no block is open. -/
theorem nesting_flatten (h : Laid depth closed lines) : nesting lines.flatten = -depth := by
  induction h with
  | done => rfl
  | cons hline _ ih =>
      rw [List.flatten_cons, nesting_append, hline.nesting, ih]
      omega

/-- At no character more blocks are closed than are open. -/
theorem opened (h : Laid depth closed lines) {front : List Char} (hfront : front <+: ['\n'].intercalate lines) :
    -(depth : ℤ) ≤ nesting front := by
  induction h generalizing front with
  | done =>
      rw [List.prefix_nil.mp hfront]
      simp
  | @cons depth depth' _ _ line lines hline _ ih =>
      cases lines with
      | nil =>
          rw [List.intercalate_singleton] at hfront
          exact hline.opened hfront
      | cons line' lines =>
          rw [List.intercalate_cons_cons] at hfront
          have hbreak : nesting (line ++ ['\n']) = depth' - depth := by
            rw [nesting_append, hline.nesting]
            exact Int.add_zero _
          rcases prefix_append_cases hfront with hfront | ⟨rest, rfl, hrest⟩
          · rcases List.prefix_concat_iff.mp hfront with rfl | hfront
            · omega
            · exact hline.opened hfront
          · have hmore := ih hrest
            rw [nesting_append, hbreak]
            omega

/-- **Each line is one of a text in which as many blocks are open as the lines before it leave open.** Where a block
has just been closed, the line before is that of its brace. -/
theorem line_of_append (h : Laid depth closed lines) {before after : List (List Char)} {line : List Char}
    (hlines : lines = before ++ line :: after) :
    ∃ here justClosed depth' closed', Line here justClosed line depth' closed' ∧
      nesting before.flatten = here - depth ∧
      (justClosed = true →
        before = [] ∧ closed = true ∨ ∃ earlier, before = earlier ++ [margin here ++ ['\x7d']]) := by
  induction before generalizing depth closed lines with
  | nil =>
      subst hlines
      cases h with
      | cons hline _ => exact ⟨_, _, _, _, hline, by simp, fun hclosed => .inl ⟨rfl, hclosed⟩⟩
  | cons first before ih =>
      subst hlines
      cases h with
      | @cons _ depth₁ _ _ _ _ hfirst hmore =>
          obtain ⟨here, justClosed, depth', closed', hline, hnesting, hclosing⟩ := ih hmore rfl
          refine ⟨here, justClosed, depth', closed', hline, ?_, fun hclosed => .inr ?_⟩
          · rw [List.flatten_cons, nesting_append, hfirst.nesting, hnesting]
            omega
          · rcases hclosing hclosed with ⟨rfl, rfl⟩ | ⟨earlier, rfl⟩
            · rw [List.flatten_nil, nesting_nil] at hnesting
              obtain rfl : here = depth₁ := by omega
              exact ⟨[], by rw [hfirst.closes]; rfl⟩
            · exact ⟨first :: earlier, rfl⟩

/-- **Texts whose lines can be followed are laid out.** -/
theorem laidOut {text : List Char} (h : Laid 0 false (text.splitOn '\n')) : LaidOut text := by
  have htext : ['\n'].intercalate (text.splitOn '\n') = text := List.intercalate_splitOn '\n'
  refine ⟨?_, fun front hfront => ?_, fun before line after hlines => ?_, fun before line after hlines helse => ?_⟩
  · have hnesting := h.nesting_flatten
    rw [← nesting_intercalate, htext, nesting] at hnesting
    omega
  · rw [← htext] at hfront
    have hopened := h.opened hfront
    rw [nesting] at hopened
    omega
  · obtain ⟨here, _, _, _, hline, hnesting, -⟩ := h.line_of_append hlines
    rw [hline.indented, hnesting]
    simp
  · obtain ⟨here, justClosed, _, _, hline, -, hclosing⟩ := h.line_of_append hlines
    obtain ⟨hclosed, rest, hrest, hnone⟩ := hline.otherwise_of_mem helse
    rcases hclosing hclosed with ⟨-, hfalse⟩ | ⟨earlier, hearlier⟩
    · cases hfalse
    · exact ⟨here * Term.indentWidth, rest, earlier, hrest, hnone, hearlier⟩

end Laid

/-! ## Texts between other lines -/

/-- The text is made of lines that lead from one depth to another. -/
def Lays (depth : Nat) (closed : Bool) (cs : List Char) (depth' : Nat) (closed' : Bool) : Prop :=
  ∀ rest, Laid depth' closed' rest → Laid depth closed (cs.splitOn '\n' ++ rest)

namespace Lays

variable {depth depth₁ depth₂ : Nat} {closed closed₁ closed₂ : Bool} {cs ds : List Char}

theorem line (h : Line depth closed cs depth₁ closed₁) : Lays depth closed cs depth₁ closed₁ := by
  intro rest hrest
  rw [List.splitOn_eq_singleton h.not_mem_newline]
  exact .cons h hrest

/-- Lines, and then other lines. -/
theorem append (h : Lays depth closed cs depth₁ closed₁) (h' : Lays depth₁ closed₁ ds depth₂ closed₂) :
    Lays depth closed (cs ++ '\n' :: ds) depth₂ closed₂ := by
  intro rest hrest
  rw [List.splitOn_append_cons_self, List.append_assoc]
  exact h _ (h' rest hrest)

/-- Other lines are possible behind a closing brace than elsewhere, but none is asked for. -/
theorem weaken (h : Lays depth closed cs depth₁ true) : Lays depth closed cs depth₁ false :=
  fun rest hrest => h rest hrest.behindClosing

theorem laidOut (h : Lays 0 false cs 0 false) : LaidOut cs := by
  have hlaid := h [] .done
  rw [List.append_nil] at hlaid
  exact hlaid.laidOut

end Lays

end Abacus
