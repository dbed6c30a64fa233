import Abacus.Proofs.Token.Spelling

/-!
# `Text.Semicolons` — lines ended by semicolons

The text of a term has no semicolons. `withSemicolons` puts one at the end of every line that neither opens nor
closes a block, which makes it the text of a program.

## Contents
- `endLine`, `endLines`, `withSemicolons` — the semicolons;
- `endLines_of_plain`, `endLines_brace` — single lines;
- `endLines_append`, `endLines_front` — several lines, and what stands in front of the first one.
-/

namespace Abacus

/-- A line with a semicolon behind it, unless it ends with a brace. -/
def endLine (line : List Char) : List Char :=
  if line.getLast? = some '\x7b' ∨ line.getLast? = some '\x7d' then line else line ++ [';']

/-- The text with all its lines ended. -/
def endLines (cs : List Char) : List Char := ['\n'].intercalate ((cs.splitOn '\n').map endLine)

/-- The text with a semicolon behind every line that ends with no brace. -/
def withSemicolons (text : String) : String := .ofList (endLines text.toList)

/-! ## Single lines -/

theorem endLines_line {cs : List Char} (h : '\n' ∉ cs) : endLines cs = endLine cs := by
  rw [endLines, List.splitOn_eq_singleton h, List.map_singleton, List.intercalate_singleton]

theorem not_mem_of_plain {cs : List Char} (h : ∀ c ∈ cs, Plain c) : '\n' ∉ cs :=
  fun hmem => (h '\n' hmem).1 rfl

/-- A line without braces gets a semicolon. -/
theorem endLines_of_plain {cs : List Char} (h : ∀ c ∈ cs, Plain c) : endLines cs = cs ++ [';'] := by
  rw [endLines_line (not_mem_of_plain h), endLine, if_neg]
  rintro (hlast | hlast)
  · exact (h _ (List.mem_of_getLast? hlast)).2.1 rfl
  · exact (h _ (List.mem_of_getLast? hlast)).2.2 rfl

/-- A line that ends with a brace stays as it is. -/
theorem endLines_brace {cs : List Char} {brace : Char} (h : ∀ c ∈ cs, Plain c)
    (hbrace : brace = '\x7b' ∨ brace = '\x7d') : endLines (cs ++ [brace]) = cs ++ [brace] := by
  have hline : '\n' ∉ cs ++ [brace] := by
    intro hmem
    rcases List.mem_append.mp hmem with hmem | hmem
    · exact not_mem_of_plain h hmem
    · rw [← List.mem_singleton.mp hmem] at hbrace
      revert hbrace
      decide
  rw [endLines_line hline, endLine, if_pos]
  rw [List.getLast?_concat]
  rcases hbrace with rfl | rfl
  · exact .inl rfl
  · exact .inr rfl

/-- A text on one line scans with a semicolon behind it. -/
theorem Lexes.ended {cs : List Char} {P R : List Token → Prop} (hplain : ∀ c ∈ cs, Plain c)
    (h : Lexes cs P) (hR : ∀ ts semicolon, P ts → semicolon.kind = .semicolon → R (ts ++ [semicolon])) :
    Lexes (endLines cs) R := by
  rw [endLines_of_plain hplain]
  refine h.seq (.cons (by decide)) fun ts hts => ?_
  exact .single (fun _ => rfl) fun semicolon hsemi _ => .nil (hR ts semicolon hts hsemi)

/-! ## Several lines -/

theorem intercalate_append {α : Type} {sep : List α} {xs ys : List (List α)} (hx : xs ≠ []) (hy : ys ≠ []) :
    sep.intercalate (xs ++ ys) = sep.intercalate xs ++ (sep ++ sep.intercalate ys) := by
  induction xs with
  | nil => exact absurd rfl hx
  | cons x xs ih =>
      cases xs with
      | nil =>
          rw [List.singleton_append, List.intercalate_cons_of_ne_nil hy, List.intercalate_singleton,
            List.append_assoc]
      | cons x' xs =>
          rw [List.cons_append, List.intercalate_cons_of_ne_nil (by simp), ih (by simp),
            List.intercalate_cons_cons]
          simp only [List.append_assoc]

/-- The lines in front of a line break and those behind it are ended apart. -/
theorem endLines_append (cs ds : List Char) :
    endLines (cs ++ '\n' :: ds) = endLines cs ++ '\n' :: endLines ds := by
  have hne : ∀ cs : List Char, (cs.splitOn '\n').map endLine ≠ [] := by
    intro cs
    simp
  rw [endLines, List.splitOn_append_cons_self, List.map_append, intercalate_append (hne cs) (hne ds)]
  rfl

theorem endLine_cons {c : Char} {line : List Char} (h : line ≠ []) :
    endLine (c :: line) = c :: endLine line := by
  unfold endLine
  rw [List.getLast?_cons_of_ne_nil h]
  split <;> rfl

/-- The first line keeps its first character. -/
theorem endLines_cons {c : Char} (hc : c ≠ '\n') (cs : List Char) : ∃ ds, endLines (c :: cs) = c :: ds := by
  obtain ⟨line, lines, hlines⟩ := List.exists_cons_of_ne_nil (List.splitOn_ne_nil '\n' cs)
  obtain ⟨ds, hds⟩ : ∃ ds, endLine (c :: line) = c :: ds := by
    unfold endLine
    split
    · exact ⟨line, rfl⟩
    · exact ⟨line ++ [';'], rfl⟩
  rw [endLines, List.splitOn_cons_eq_if_modifyHead, if_neg (by simpa using hc), hlines,
    List.modifyHead_cons, List.map_cons, hds]
  cases lines with
  | nil => exact ⟨ds, by simp⟩
  | cons line' lines => exact ⟨_, by rw [List.map_cons, List.intercalate_cons_cons]; rfl⟩

/-- What stands in front of a line that is not empty stays in front of it. -/
theorem endLines_front {front : List Char} {c : Char} {cs : List Char} (hfront : '\n' ∉ front)
    (hc : c ≠ '\n') : endLines (front ++ c :: cs) = front ++ endLines (c :: cs) := by
  induction front with
  | nil => rfl
  | cons d front ih =>
      have hd : d ≠ '\n' := fun heq => hfront (heq ▸ List.mem_cons_self)
      rw [List.cons_append, List.cons_append, ← ih fun hmem => hfront (List.mem_cons_of_mem _ hmem)]
      -- the first line behind `d` is not empty, so `d` does not become its last character
      obtain ⟨e, rest, hrest, he⟩ : ∃ e rest, front ++ c :: cs = e :: rest ∧ e ≠ '\n' := by
        cases front with
        | nil => exact ⟨c, cs, rfl, hc⟩
        | cons e front => exact ⟨e, front ++ c :: cs, rfl, fun heq => hfront (by simp [heq])⟩
      rw [hrest]
      obtain ⟨line, lines, hlines⟩ := List.exists_cons_of_ne_nil (List.splitOn_ne_nil '\n' rest)
      have hsplit : (e :: rest).splitOn '\n' = (e :: line) :: lines := by
        rw [List.splitOn_cons_eq_if_modifyHead, if_neg (by simpa using he), hlines]
        rfl
      rw [endLines, endLines, List.splitOn_cons_eq_if_modifyHead, if_neg (by simpa using hd), hsplit,
        List.modifyHead_cons, List.map_cons, List.map_cons, endLine_cons (by simp)]
      cases lines with
      | nil => simp
      | cons line' lines => simp

/-! ## Lines at a depth -/

/-- The text is not empty and begins with no line break. -/
def Visible (cs : List Char) : Prop := ∃ d ds, cs = d :: ds ∧ d ≠ '\n'

theorem plain_spaces (k : Nat) : ∀ c ∈ List.replicate k ' ', Plain c := by
  intro c hc
  rw [(List.mem_replicate.mp hc).2]
  decide

/-- Lines may be indented. -/
theorem Lexes.indented {cs : List Char} {R : List Token → Prop} (k : Nat) (hvisible : Visible cs)
    (h : Lexes (endLines cs) R) : Lexes (endLines (List.replicate k ' ' ++ cs)) R := by
  obtain ⟨d, ds, rfl, hd⟩ := hvisible
  rw [endLines_front (not_mem_of_plain (plain_spaces k)) hd]
  exact .blanks k h

/-- Lines, and then other lines. -/
theorem Lexes.lines {cs ds : List Char} {P R : List Token → Prop} (h : Lexes (endLines cs) P)
    (h' : ∀ ts, P ts → Lexes (endLines ds) fun us => R (ts ++ us)) :
    Lexes (endLines (cs ++ '\n' :: ds)) R := by
  rw [endLines_append]
  exact h.seq (.cons (by decide)) fun ts hts => .blank rfl (h' ts hts)

/-- A line that opens a block, and then other lines. -/
theorem Lexes.opening {line cs : List Char} {P R : List Token → Prop} (hplain : ∀ c ∈ line, Plain c)
    (h : Lexes line P)
    (h' : ∀ ts opening, P ts → opening.isOperator "\x7b" = true →
      Lexes (endLines cs) fun us => R (ts ++ opening :: us)) :
    Lexes (endLines (line ++ ' ' :: '\x7b' :: '\n' :: cs)) R := by
  have htext : ∀ cs, line ++ ' ' :: '\x7b' :: '\n' :: cs = ((line ++ [' ']) ++ ['\x7b']) ++ '\n' :: cs := by
    simp
  have hline : ∀ c ∈ line ++ [' '], Plain c := by
    rw [List.forall_mem_append, List.forall_mem_singleton]
    exact ⟨hplain, by decide⟩
  rw [htext, endLines_append, endLines_brace hline (.inl rfl), ← htext]
  refine h.seq (.cons (by decide)) fun ts hts => .blank rfl ?_
  refine .single (fun _ => rfl) fun opening hkind htext => .blank rfl ?_
  exact h' ts opening hts (by simp [Token.isOperator, hkind, htext])

/-- The line of a closing brace. -/
theorem Lexes.closing {R : List Token → Prop} (k : Nat)
    (h : ∀ closing, closing.isOperator "\x7d" = true → R [closing]) :
    Lexes (endLines (List.replicate k ' ' ++ ['\x7d'])) R := by
  rw [endLines_brace (plain_spaces k) (.inr rfl)]
  refine .blanks k (.single (fun _ => rfl) fun closing hkind htext => .nil (h closing ?_))
  simp [Token.isOperator, hkind, htext]

end Abacus
