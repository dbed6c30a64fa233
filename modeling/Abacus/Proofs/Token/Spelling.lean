import Abacus.Operator
import Abacus.Proofs.Token.Scanning

/-!
# `Token.Spelling` — texts that scan as one wants

`Lexes cs R` says that the text `cs`, wherever it stands, scans to tokens that satisfy `R`. The rules read a text
from left to right and move what has been scanned into `R`, so that the last rule is about all tokens at once.

A word is a text that is **one lexeme** (`IsLexeme`): scanned in front of a character that continues no lexeme, it
gives one token. The names of a text that has been scanned are words, so they can be written down again.

## Contents
- `Lexes` and its rules: `nil`, `blank`, `single`, `word`, `seq`;
- `IsLexeme` — words, and the characters they are made of;
- `Lexes.list` — lists with commas;
- `spelled_of_tokens` — the names of a text are words.
-/

namespace Abacus

open Scanner (tokens)

theorem Lexeme.first_of_isBlank {c : Char} (h : isBlank c = true) (cs : List Char) :
    first c cs = .refused c := by
  simp only [isBlank, Bool.or_eq_true, decide_eq_true_eq] at h
  rcases h with ((((rfl | rfl) | rfl) | rfl) | rfl) | rfl <;> rfl

/-- What begins a token is no blank. -/
theorem Lexeme.isBlank_of_first {c : Char} {cs text : List Char} {kind : Token.Kind}
    (h : first c cs = .token kind text) : isBlank c = false := by
  rw [Bool.eq_false_iff]
  intro hblank
  rw [first_of_isBlank hblank] at h
  cases h

/-! ## Rules -/

/-- Wherever it stands, the text scans to tokens that satisfy `R`, and `END`. -/
def Lexes (cs : List Char) (R : List Token → Prop) : Prop :=
  ∀ pos, ∃ ts, tokens ⟨pos, cs⟩ = .ok (ts ++ [.finish (pos.advance cs)]) ∧ R ts

namespace Lexes

variable {cs ds : List Char} {P R : List Token → Prop}

/-- What is known of the tokens may be weakened. -/
theorem imp (h : Lexes cs P) (hPR : ∀ ts, P ts → R ts) : Lexes cs R := by
  intro pos
  obtain ⟨ts, hts, hP⟩ := h pos
  exact ⟨ts, hts, hPR ts hP⟩

theorem nil (h : R []) : Lexes [] R := by
  intro pos
  exact ⟨[], Scanner.tokens_nil pos, h⟩

/-- A blank in front adds no token. -/
theorem blank {c : Char} (hc : isBlank c = true) (h : Lexes cs R) : Lexes (c :: cs) R := by
  intro pos
  obtain ⟨ts, hts, hR⟩ := h (pos.step c)
  exact ⟨ts, by rw [Scanner.tokens_blank hc]; exact hts, hR⟩

theorem blanks (n : Nat) (h : Lexes cs R) : Lexes (List.replicate n ' ' ++ cs) R := by
  induction n with
  | zero => exact h
  | succ n ih => exact blank rfl ih

/-- A lexeme that does not depend on what follows it. -/
theorem lexeme {c : Char} {text : List Char} {kind : Token.Kind}
    (hfirst : Lexeme.first c (text ++ cs) = .token kind (c :: text))
    (h : ∀ t : Token, t.kind = kind → t.text = .ofList (c :: text) → Lexes cs (fun ts => R (t :: ts))) :
    Lexes (c :: text ++ cs) R := by
  intro pos
  obtain ⟨ts, hts, hR⟩ := h ⟨kind, .ofList (c :: text), pos⟩ rfl rfl (pos.advance (c :: text))
  refine ⟨_ :: ts, ?_, hR⟩
  have hdrop : (c :: (text ++ cs)).drop (c :: text).length = cs := by simp
  rw [List.cons_append, Scanner.tokens_cons_of_token (Lexeme.isBlank_of_first hfirst) hfirst, hdrop, hts,
    ← List.cons_append, Position.advance_append]
  rfl

/-- A character that is a token by itself, whatever follows it. -/
theorem single {c : Char} {kind : Token.Kind} (hfirst : ∀ cs, Lexeme.first c cs = .token kind [c])
    (h : ∀ t : Token, t.kind = kind → t.text = .ofList [c] → Lexes cs (fun ts => R (t :: ts))) :
    Lexes (c :: cs) R := by
  have hlexeme : Lexeme.first c ([] ++ cs) = .token kind (c :: []) := hfirst cs
  exact lexeme hlexeme h

/-- Two texts, the second one beginning where lexemes stop. -/
theorem seq (h : Lexes cs P) (hstop : Stops ds)
    (h' : ∀ ts, P ts → Lexes ds (fun us => R (ts ++ us))) : Lexes (cs ++ ds) R := by
  intro pos
  obtain ⟨ts, hts, hP⟩ := h pos
  obtain ⟨us, hus, hrest⟩ := tokens_append pos cs hts
  obtain ⟨rfl, -⟩ := List.append_inj' hus rfl
  obtain ⟨us, hus, hR⟩ := h' ts hP (pos.advance cs)
  refine ⟨ts ++ us, ?_, hR⟩
  rw [hrest ds hstop, hus, Position.advance_append, List.append_assoc]
  rfl

end Lexes

/-! ## Words -/

/-- The text is one lexeme of the given kind. -/
def IsLexeme (kind : Token.Kind) (text : List Char) : Prop :=
  ∃ c cs, text = c :: cs ∧ Lexeme.first c cs = .token kind (c :: cs)

/-- A word is scanned by itself if it stops there: a first token is given, whatever its position. -/
theorem Lexes.word {kind : Token.Kind} {text cs : List Char} {R : List Token → Prop}
    (hword : IsLexeme kind text) (hstop : Stops cs)
    (h : ∀ t : Token, t.kind = kind → t.text = .ofList text → Lexes cs (fun ts => R (t :: ts))) :
    Lexes (text ++ cs) R := by
  obtain ⟨c, text, rfl, hfirst⟩ := hword
  exact Lexes.lexeme (by rw [Lexeme.first_append hstop, hfirst]) h

/-- The first token of a text that begins with a word. -/
theorem Lexes.first_word {kind : Token.Kind} {text cs : List Char} {R : List Token → Prop}
    (hword : IsLexeme kind text) (hstop : Stops cs) (h : Lexes (text ++ cs) R) :
    Lexes (text ++ cs) fun ts =>
      R ts ∧ ∃ t us, ts = t :: us ∧ t.kind = kind ∧ t.text = .ofList text := by
  obtain ⟨c, text, rfl, hfirst⟩ := hword
  have hfirst' : Lexeme.first c (text ++ cs) = .token kind (c :: text) := by
    rw [Lexeme.first_append hstop, hfirst]
  intro pos
  obtain ⟨ts, hts, hR⟩ := h pos
  refine ⟨ts, hts, hR, ?_⟩
  obtain ⟨_, _, more, heq, -, hcons⟩ :=
    Scanner.tokens_cons_eq_ok (Lexeme.isBlank_of_first hfirst) hts
  cases hfirst'.symm.trans heq
  cases ts with
  | nil =>
      injection hcons with hfinish
      exact absurd (congrArg Token.kind hfinish).symm (Lexeme.kind_ne_finish hfirst)
  | cons t us =>
      injection hcons with ht
      exact ⟨t, us, rfl, by rw [ht], by rw [ht]⟩

/-- A character that neither breaks a line nor opens or closes a block. -/
def Plain (c : Char) : Prop := c ≠ '\n' ∧ c ≠ '\x7b' ∧ c ≠ '\x7d'

instance (c : Char) : Decidable (Plain c) := inferInstanceAs (Decidable (_ ∧ _ ∧ _))

theorem plain_of_all {cs : List Char} (h : cs.all (decide <| Plain ·) = true) : ∀ c ∈ cs, Plain c :=
  fun c hc => of_decide_eq_true (List.all_eq_true.mp h c hc)

/-- Names stay on their line and open no block. -/
theorem Plain.of_isNameRest {c : Char} (h : isNameRest c = true) : Plain c := by
  refine ⟨?_, ?_, ?_⟩ <;> rintro rfl <;> revert h <;> decide

theorem isNameRest_of_isNameStart {c : Char} (h : isNameStart c = true) : isNameRest c = true := by
  simp only [isNameStart, isNameRest, Char.isAlphanum, Bool.or_eq_true, decide_eq_true_eq] at h ⊢
  rcases h with h | h
  · exact .inl (.inl h)
  · exact .inr h

/-- Numbers, truth values and names stand on one line and hold no brace. -/
theorem IsLexeme.plain {kind : Token.Kind} {text : List Char} (h : IsLexeme kind text)
    (hkind : kind ∈ [Token.Kind.number, .boolean, .identifier]) : ∀ c ∈ text, Plain c := by
  obtain ⟨c, cs, rfl, hfirst⟩ := h
  rcases Lexeme.first_cases hfirst with ⟨-, hdigits⟩ | ⟨-, hname, htext, -⟩ | hsymbol
  · intro d hd
    rcases hdigits d hd with hdigit | rfl
    · exact .of_isNameRest (isNameRest_of_isDigit hdigit)
    · decide
  · intro d hd
    rw [htext] at hd
    rcases List.mem_cons.mp hd with rfl | hd
    · exact .of_isNameRest (isNameRest_of_isNameStart hname)
    · exact .of_isNameRest (List.mem_takeWhile_imp hd)
  · have hnot := Lexeme.symbol_kind hsymbol
    simp only [List.mem_cons, List.mem_nil_iff, or_false, not_or] at hkind hnot
    rcases hkind with rfl | rfl | rfl
    · exact absurd rfl hnot.1
    · exact absurd rfl hnot.2.1
    · exact absurd rfl hnot.2.2.1

/-! ## Lists -/

/-- The character `close` is a token of the given kind, whatever stands around it. -/
structure IsCloser (close : Char) (kind : Token.Kind) : Prop where
  first : ∀ cs, Lexeme.first close cs = .token kind [close]
  stops : isNameRest close = false ∧ close ≠ '.' ∧ close ≠ '='
  plain : Plain close

theorem IsCloser.paren : IsCloser ')' .rightParen := ⟨fun _ => rfl, by decide, by decide⟩

theorem IsCloser.bracket : IsCloser ']' .rightBracket := ⟨fun _ => rfl, by decide, by decide⟩

theorem Lexes.close {close : Char} {kind : Token.Kind} {R : List Token → Prop} (hclose : IsCloser close kind)
    (h : ∀ t : Token, t.kind = kind → R [t]) : Lexes [close] R :=
  .single hclose.first fun t ht _ => .nil (h t ht)

section List

variable {α : Type} {text : α → String} {close : Char} {kind : Token.Kind}
  {I : α → List Token → Prop} {Q : List Token → List α → List Token → Prop}

/-- Texts with commas between them and a bracket behind them scan to a list, if lists are built up from their
last item. -/
theorem Lexes.list (hclose : IsCloser close kind)
    (last : ∀ {a ts t rest}, I a ts → t.kind = kind → Q (ts ++ t :: rest) [a] rest)
    (cons : ∀ {a as ts comma mid rest}, I a ts → comma.kind = .comma → Q mid as rest →
      Q (ts ++ comma :: mid) (a :: as) rest)
    (a : α) (as : List α) (h : ∀ b ∈ a :: as, Lexes (text b).toList (I b)) :
    Lexes ((", ".intercalate ((a :: as).map text)).toList ++ [close])
      (fun ts => ∀ rest, Q (ts ++ rest) (a :: as) rest) := by
  induction as generalizing a with
  | nil =>
      rw [List.map_singleton, String.intercalate_singleton]
      refine (h a (by simp)).seq (.cons hclose.stops) fun ts hts => ?_
      refine .close hclose fun t ht rest => ?_
      rw [List.append_assoc]
      exact last hts ht
  | cons b as ih =>
      have htext : (", ".intercalate ((a :: b :: as).map text)).toList ++ [close] =
          (text a).toList ++ (',' :: ' ' :: ((", ".intercalate ((b :: as).map text)).toList ++ [close])) := by
        simp [String.intercalate_cons_cons]
      rw [htext]
      refine (h a (by simp)).seq (.cons (by decide)) fun ts hts => ?_
      refine .single (fun _ => rfl) fun comma hcomma _ => .blank rfl ?_
      refine (ih b fun b hb => h b (List.mem_cons_of_mem _ hb)).imp fun us hus rest => ?_
      rw [List.append_assoc]
      exact cons hts hcomma (hus rest)

/-- Neither does a list of such texts, with the commas between them. -/
theorem plain_list {texts : List String} (h : ∀ text ∈ texts, ∀ c ∈ text.toList, Plain c) :
    ∀ c ∈ (", ".intercalate texts).toList, Plain c := by
  induction texts with
  | nil => simp
  | cons text texts ih =>
      rw [List.forall_mem_cons] at h
      cases texts with
      | nil => simpa using h.1
      | cons text' texts =>
          have htext : (", ".intercalate (text :: text' :: texts)).toList =
              text.toList ++ (',' :: ' ' :: (", ".intercalate (text' :: texts)).toList) := by
            simp [String.intercalate_cons_cons]
          rw [htext]
          simp only [List.forall_mem_append, List.forall_mem_cons]
          exact ⟨h.1, by decide, by decide, ih h.2⟩

end List

/-! ## The words of a text -/

/-- A name that is spelled as one. -/
def Token.Spelled (t : Token) : Prop := t.kind = .identifier → IsLexeme .identifier t.text.toList

/-- What has been scanned as a name scans as a name by itself. -/
theorem Lexeme.isLexeme_of_first {c : Char} {cs text : List Char}
    (h : first c cs = .token .identifier text) : IsLexeme .identifier text := by
  rcases first_cases h with ⟨hkind, -⟩ | ⟨hdigit, hname, rfl, hkind⟩ | hsymbol
  · cases hkind
  · refine ⟨c, cs.takeWhile isNameRest, rfl, ?_⟩
    rw [first, if_neg (by simp [hdigit]), if_pos hname, word, List.takeWhile_idem, ← hkind]
  · exact absurd (by decide) (symbol_kind hsymbol)

/-- Wherever a text stands, its names are words. -/
theorem spelled_of_tokens (pos : Position) (cs : List Char) {ts : List Token} (h : tokens ⟨pos, cs⟩ = .ok ts) :
    ∀ t ∈ ts, t.Spelled := by
  have hlexeme : ∀ {pos c cs kind text}, isBlank c = false → Lexeme.first c cs = .token kind text →
      Token.Spelled ⟨kind, .ofList text, pos⟩ := by
    rintro pos c cs kind text - hfirst rfl
    rw [String.toList_ofList]
    exact Lexeme.isLexeme_of_first hfirst
  obtain ⟨us, rfl, hus⟩ := forall_of_tokens hlexeme pos cs h
  intro t ht
  rcases List.mem_append.mp ht with ht | ht
  · exact hus t ht
  · -- `END` is no name
    rw [List.mem_singleton.mp ht]
    intro hkind
    cases hkind

end Abacus
