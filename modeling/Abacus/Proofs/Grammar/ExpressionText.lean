import Abacus.Proofs.Grammar.Statement
import Abacus.Proofs.Text.Semicolons
import Abacus.Term.Render

/-!
# `Grammar.ExpressionText` — the texts of expressions are expressions

Operations and assignments are written in parentheses, so the text of an expression is an **operand**: no operator
around it can take a part of it away. `Readable` says so, and one rule for each kind of term builds it up. Not
every term can be read again; `Rereadable` is what its parts have to satisfy.

## Contents
- `Readable` and its rules: `number`, `boolean`, `var`, `binary`, `assign`, `store`, `lookup`, `call`, `array`;
- `Rereadable` — the terms whose text can be read;
- `Expression.readable`, `Condition.readable` — what has been read can be read again.
-/

namespace Abacus
namespace Grammar

open Parse (levels)

/-! ## Names -/

/-- A word that can name a variable, an array or a function. -/
structure IsName (x : String) : Prop where
  word : IsLexeme .identifier x.toList
  notKeyword : isKeyword x = false

/-- A name that is written is read as one. -/
theorem IsName.token {x : String} (h : IsName x) {t : Token} (hkind : t.kind = .identifier)
    (htext : t.text = x) : t.isName = true := by
  simp [Token.isName, hkind, htext, h.notKeyword]

/-- A name that was read from a text can be written. -/
theorem IsName.of_token {t : Token} (h : t.isName = true) (hspelled : t.Spelled) : IsName t.text := by
  simp only [Token.isName, Bool.and_eq_true, decide_eq_true_eq, Bool.not_eq_true'] at h
  exact ⟨hspelled h.1, h.2⟩

/-! ## Operands and operations -/

/-- An operand is an operation of any levels. -/
theorem Operation.of_operand {known ts n rest} (L : List (List Operator)) (h : Operand known ts n rest) :
    Operation known L ts n rest := by
  induction L with
  | nil => exact .operand h
  | cons level L ih => exact .tighter ih

/-- Two operands and an operator of one of the levels. -/
theorem Operation.of_operands {known ts mid left right rest} {symbol : Token} {op : Operator}
    {L : List (List Operator)} (hop : ∃ level ∈ L, op ∈ level)
    (hleft : Operand known ts left (symbol :: mid)) (hsymbol : symbol.isOperator op.symbol = true)
    (hright : Operand known mid right rest) : Operation known L ts (.binary op left right) rest := by
  induction L with
  | nil =>
      obtain ⟨_, hmem, _⟩ := hop
      cases hmem
  | cons level L ih =>
      by_cases hlevel : op ∈ level
      · exact .binary (.of_operand _ hleft) hsymbol hlevel (.of_operand _ hright)
      · -- The operator is one of a tighter level.
        obtain ⟨level', hmem, hop⟩ := hop
        rcases List.mem_cons.mp hmem with rfl | hmem
        · exact absurd hop hlevel
        · exact .tighter (ih ⟨level', hmem, hop⟩)

/-- Every operator with a meaning has a level. -/
theorem exists_level {op : Operator} (h : op ∈ Operator.meaningful) : ∃ level ∈ levels, op ∈ level := by
  revert op
  decide

/-- The symbols of operators are scanned as one token each, with two characters or with one. -/
theorem isLexeme_symbol {op : Operator} (h : op ∈ Operator.meaningful) :
    IsLexeme .operator op.symbol.toList := by
  simp only [Operator.meaningful, List.mem_cons, List.mem_nil_iff, or_false] at h
  rcases h with rfl | rfl | rfl | rfl | rfl | rfl | rfl | rfl | rfl | rfl | rfl | rfl | rfl | rfl <;>
    exact ⟨_, _, rfl, rfl⟩

theorem plain_symbol {op : Operator} (h : op ∈ Operator.meaningful) : ∀ c ∈ op.symbol.toList, Plain c := by
  have hall : ∀ op ∈ Operator.meaningful, op.symbol.toList.all (decide <| Plain ·) = true := by decide
  exact plain_of_all (hall op h)

/-- An operand is an expression: it stands on every level of operators. -/
theorem Expression.of_operand {known ts n rest} (h : Operand known ts n rest) :
    Expression known ts n rest :=
  .operation (.of_operand _ h)

/-! ## Texts that can be read -/

/-- Written at any depth, the term stands on one line and is an operand. -/
structure Readable (known : List String) (n : Term) : Prop where
  plain : ∀ depth, ∀ c ∈ (n.renderAt depth).toList, Plain c
  lexes : ∀ depth, Lexes (n.renderAt depth).toList fun ts => ∀ rest, Operand known (ts ++ rest) n rest

namespace Readable

variable {known : List String}

/-- A term that is written as one word. -/
theorem word {n : Term} {kind : Token.Kind} {text : String} (htext : ∀ depth, n.renderAt depth = text)
    (hword : IsLexeme kind text.toList) (hkind : kind ∈ [Token.Kind.number, .boolean, .identifier])
    (h : ∀ t rest, t.kind = kind → t.text = text → Operand known (t :: rest) n rest) : Readable known n where
  plain depth := by
    rw [htext]
    exact hword.plain hkind
  lexes depth := by
    rw [htext, ← List.append_nil text.toList]
    refine .word hword (by simp [Stops]) fun t ht htext => .nil fun rest => ?_
    exact h t rest ht (by rw [htext, String.ofList_toList])

/-- Whether a number is read again depends on its text, which the caller has to know about. -/
theorem number {v : Float} (hword : IsLexeme .number (Number.text v).toList)
    (hread : Number.read? (Number.text v) = some v) : Readable known (.number v) := by
  have htext : ∀ depth, (Term.number v).renderAt depth = Number.text v := fun _ => by rw [Term.renderAt]
  exact word htext hword (by decide) fun _ _ hkind htext => .number hkind (by rw [htext, hread])

theorem boolean (b : Bool) : Readable known (.boolean b) := by
  have hword : IsLexeme .boolean (truthText b).toList := by
    cases b <;> exact ⟨_, _, rfl, rfl⟩
  refine word (fun _ => rfl) hword (by decide) fun t rest hkind htext => ?_
  have hvalue : decide (t.text = "true") = b := by
    rw [htext]
    cases b <;> rfl
  exact hvalue ▸ Operand.boolean hkind

/-- A variable is read again unless its name is known to be a function. -/
theorem var {x : String} (hx : IsName x) (hknown : x ∉ known) : Readable known (.var x) := by
  refine word (fun _ => rfl) hx.word (by decide) fun t rest hkind htext => ?_
  subst htext
  exact .variable (hx.token hkind rfl) hknown

/-- An operation is written in parentheses. -/
theorem binary {op : Operator} {left right : Term} (hop : op ∈ Operator.meaningful)
    (hleft : Readable known left) (hright : Readable known right) :
    Readable known (.binary op left right) := by
  have htext : ∀ depth, ((Term.binary op left right).renderAt depth).toList =
      '(' :: ((left.renderAt depth).toList ++ (' ' :: (op.symbol.toList ++
        (' ' :: ((right.renderAt depth).toList ++ [')']))))) := by
    intro depth
    simp [Term.renderAt]
  constructor
  · intro depth
    rw [htext]
    simp only [List.forall_mem_cons, List.forall_mem_append]
    exact ⟨by decide, hleft.plain depth, by decide, plain_symbol hop, by decide, hright.plain depth,
      by decide, by simp⟩
  · intro depth
    rw [htext]
    refine .single (fun _ => rfl) fun opening hopening _ => ?_
    refine (hleft.lexes depth).seq (.cons (by decide)) fun ls hls => .blank rfl ?_
    refine .word (isLexeme_symbol hop) (.cons (by decide)) fun symbol hkind hsymbol => ?_
    refine .blank rfl ((hright.lexes depth).seq (.cons (by decide)) fun rs hrs => ?_)
    refine .close .paren fun closing hclosing rest => ?_
    have hoperator : symbol.isOperator op.symbol = true := by
      simp [Token.isOperator, hkind, hsymbol]
    -- both sides are operands, so no level of operators matters
    have h := Operation.of_operands (exists_level hop) (hls (symbol :: (rs ++ closing :: rest)))
      hoperator (hrs (closing :: rest))
    simpa using Operand.group hopening (.operation h) hclosing

/-- Something assigned to `target` is written in parentheses. -/
theorem assignment {n target value : Term}
    (htext : ∀ depth, (n.renderAt depth).toList = '(' :: ((target.renderAt depth).toList ++
      (' ' :: '=' :: ' ' :: ((value.renderAt depth).toList ++ [')']))))
    (h : ∀ {ts equals mid rest}, Operation known levels ts target (equals :: mid) →
      equals.kind = .assignment → Expression known mid value rest → Expression known ts n rest)
    (htarget : Readable known target) (hvalue : Readable known value) : Readable known n := by
  constructor
  · intro depth
    rw [htext]
    simp only [List.forall_mem_cons, List.forall_mem_append]
    exact ⟨by decide, htarget.plain depth, by decide, by decide, by decide, hvalue.plain depth,
      by decide, by simp⟩
  · intro depth
    rw [htext]
    refine .single (fun _ => rfl) fun opening hopening _ => ?_
    refine (htarget.lexes depth).seq (.cons (by decide)) fun us hus => .blank rfl ?_
    have hequals : IsLexeme .assignment ['='] := ⟨_, _, rfl, rfl⟩
    refine .word hequals (.cons (by decide)) fun equals hkind _ => .blank rfl ?_
    refine (hvalue.lexes depth).seq (.cons (by decide)) fun vs hvs => ?_
    refine .close .paren fun closing hclosing rest => ?_
    have hassign := h (.of_operand _ (hus (equals :: (vs ++ closing :: rest)))) hkind
      (.of_operand (hvs (closing :: rest)))
    simpa using Operand.group hopening hassign hclosing

/-- The target is a variable that can be read by itself. -/
theorem assign {x : String} {value : Term} (hx : Readable known (.var x)) (hvalue : Readable known value) :
    Readable known (.assign x value) :=
  assignment (fun depth => by simp [Term.renderAt]) .assign hx hvalue

theorem store {x : String} {index value : Term} (hx : Readable known (.lookup x index))
    (hvalue : Readable known value) : Readable known (.store x index value) :=
  assignment (fun depth => by simp [Term.renderAt]) .store hx hvalue

/-- The index stands between brackets, where it may be any expression. -/
theorem lookup {x : String} {index : Term} (hx : IsName x) (hknown : x ∉ known)
    (hindex : Readable known index) : Readable known (.lookup x index) := by
  have htext : ∀ depth, ((Term.lookup x index).renderAt depth).toList =
      x.toList ++ ('[' :: ((index.renderAt depth).toList ++ [']'])) := by
    intro depth
    simp [Term.renderAt]
  constructor
  · intro depth
    rw [htext]
    simp only [List.forall_mem_cons, List.forall_mem_append]
    exact ⟨hx.word.plain (by decide), by decide, hindex.plain depth, by decide, by simp⟩
  · intro depth
    rw [htext]
    refine .word hx.word (.cons (by decide)) fun t hkind hname => ?_
    rw [String.ofList_toList] at hname
    subst hname
    refine .single (fun _ => rfl) fun opening hopening _ => ?_
    refine (hindex.lexes depth).seq (.cons (by decide)) fun us hus => ?_
    refine .close .bracket fun closing hclosing rest => ?_
    have h := Operand.lookup (hx.token hkind rfl) hknown hopening
      (.of_operand (hus (closing :: rest))) hclosing
    simpa using h

/-- Terms in a list are written like terms elsewhere. -/
theorem renderEach_eq_map (depth : Nat) (terms : List Term) :
    Term.renderEach depth terms = terms.map (·.renderAt depth) := by
  induction terms with
  | nil => rfl
  | cons term terms ih => rw [Term.renderEach, ih, List.map_cons]

/-- The texts between the commas are scanned one by one, since a comma stops each of them. -/
theorem lexes_arguments {close : Char} {kind : Token.Kind} (hclose : IsCloser close kind) {args : List Term}
    (hargs : ∀ n ∈ args, Readable known n) (depth : Nat) :
    Lexes ((", ".intercalate (Term.renderEach depth args)).toList ++ [close])
      (fun ts => ∀ rest, Arguments known kind (ts ++ rest) args rest) := by
  rw [renderEach_eq_map]
  cases args with
  | nil =>
      refine .close hclose fun t ht rest => ?_
      exact .empty ht
  | cons n args =>
      refine (Lexes.list hclose ?_ ?_ n args fun m hm => (hargs m hm).lexes depth).imp
        fun ts hts rest => .items (hts rest)
      · intro m ts t rest hm ht
        exact .last (.of_operand (hm _)) ht
      · intro m args ts comma mid rest hm hcomma h
        exact .cons (.of_operand (hm _)) hcomma h

theorem plain_arguments {args : List Term} (hargs : ∀ n ∈ args, Readable known n) (depth : Nat) :
    ∀ c ∈ (", ".intercalate (Term.renderEach depth args)).toList, Plain c := by
  apply plain_list
  rw [renderEach_eq_map]
  intro text htext
  obtain ⟨n, hn, rfl⟩ := List.mem_map.mp htext
  exact (hargs n hn).plain depth

/-- A call can be read again whether its function is known or not. -/
theorem call {x : String} {args : List Term} (hx : IsName x) (hargs : ∀ n ∈ args, Readable known n) :
    Readable known (.call x args) := by
  have htext : ∀ depth, ((Term.call x args).renderAt depth).toList =
      x.toList ++ ('(' :: ((", ".intercalate (Term.renderEach depth args)).toList ++ [')'])) := by
    intro depth
    simp [Term.renderAt]
  constructor
  · intro depth
    rw [htext]
    simp only [List.forall_mem_cons, List.forall_mem_append]
    exact ⟨hx.word.plain (by decide), by decide, plain_arguments hargs depth, by decide, by simp⟩
  · intro depth
    rw [htext]
    refine .word hx.word (.cons (by decide)) fun t hkind hname => ?_
    rw [String.ofList_toList] at hname
    subst hname
    refine .single (fun _ => rfl) fun opening hopening _ => ?_
    refine (lexes_arguments .paren hargs depth).imp fun ts hts rest => ?_
    exact .call (hx.token hkind rfl) hopening (hts rest)

theorem array {elements : List Term} (h : ∀ n ∈ elements, Readable known n) :
    Readable known (.array elements) := by
  have htext : ∀ depth, ((Term.array elements).renderAt depth).toList =
      '[' :: ((", ".intercalate (Term.renderEach depth elements)).toList ++ [']']) := by
    intro depth
    simp [Term.renderAt]
  constructor
  · intro depth
    rw [htext]
    simp only [List.forall_mem_cons, List.forall_mem_append]
    exact ⟨by decide, plain_arguments h depth, by decide, by simp⟩
  · intro depth
    rw [htext]
    refine .single (fun _ => rfl) fun opening hopening _ => ?_
    refine (lexes_arguments .bracket h depth).imp fun ts hts rest => ?_
    exact .array hopening (hts rest)

end Readable

/-! ## Terms that can be read again -/

/-- The terms whose text means what they are, where the names that satisfy `taken` are functions. -/
structure Rereadable (taken : String → Prop) (n : Term) : Prop where
  /-- Numbers are written as literals that have their value. -/
  numbers : ∀ v, Term.Within (.number v) n →
    IsLexeme .number (Number.text v).toList ∧ Number.read? (Number.text v) = some v
  /-- Functions are not used as variables or arrays. -/
  names : ∀ p, Term.Within p n → ∀ x ∈ p.place?, ¬taken x
  /-- All operators have a meaning. -/
  operators : ∀ c left right, ¬Term.Within (.binary (.unknown c) left right) n

namespace Rereadable

variable {taken : String → Prop}

/-- What can be read again has parts that can. -/
theorem part {p n : Term} (h : Rereadable taken n) (hp : p ∈ n.parts) : Rereadable taken p where
  numbers v hv := h.numbers v (.part hp hv)
  names q hq := h.names q (.part hp hq)
  operators c left right hop := h.operators c left right (.part hp hop)

/-- It is enough to look at a term and its parts. -/
theorem iff_parts {n : Term} : Rereadable taken n ↔
    (∀ v, n = .number v →
      IsLexeme .number (Number.text v).toList ∧ Number.read? (Number.text v) = some v) ∧
    (∀ x ∈ n.place?, ¬taken x) ∧ (∀ c left right, n ≠ .binary (.unknown c) left right) ∧
    ∀ p ∈ n.parts, Rereadable taken p := by
  constructor
  · intro h
    refine ⟨?_, h.names n .refl, ?_, fun p hp => h.part hp⟩
    · rintro v rfl
      exact h.numbers v .refl
    · rintro c left right rfl
      exact h.operators c left right .refl
  · rintro ⟨number, name, operator, parts⟩
    constructor
    · intro v hv
      rcases Term.within_iff.mp hv with heq | ⟨p, hp, hv⟩
      · exact number v heq.symm
      · exact (parts p hp).numbers v hv
    · intro q hq
      rcases Term.within_iff.mp hq with rfl | ⟨p, hp, hq⟩
      · exact name
      · exact (parts p hp).names q hq
    · intro c left right h
      rcases Term.within_iff.mp h with heq | ⟨p, hp, h⟩
      · exact operator c left right heq.symm
      · exact (parts p hp).operators c left right h

/-- A term that is no number and no variable, and whose operator has a meaning. -/
theorem node {n : Term} (number : ∀ v, n ≠ .number v) (name : n.place? = none)
    (operator : ∀ c left right, n ≠ .binary (.unknown c) left right)
    (parts : ∀ p ∈ n.parts, Rereadable taken p) : Rereadable taken n :=
  iff_parts.mpr ⟨fun v hv => absurd hv (number v), by simp [name], operator, parts⟩

/-- A variable is none of the functions. -/
theorem not_mem {known : List String} {n : Term} {x : String} (h : Rereadable taken n) (hx : x ∈ n.place?)
    (hknown : ∀ x ∈ known, taken x) : x ∉ known :=
  fun hmem => h.names n .refl x hx (hknown x hmem)

theorem operator {op : Operator} {left right : Term} (h : Rereadable taken (.binary op left right)) :
    op ∈ Operator.meaningful := by
  cases op with
  | unknown c => exact absurd .refl (h.operators c left right)
  | _ => decide

/-- What is assigned to can be read by itself. -/
theorem assigned {x : String} {value : Term} (h : Rereadable taken (.assign x value)) :
    Rereadable taken (.var x) :=
  iff_parts.mpr ⟨by simp, h.names (.assign x value) .refl, by simp, by simp [Term.parts]⟩

/-- What is stored to could as well be looked up. -/
theorem stored {x : String} {index value : Term} (h : Rereadable taken (.store x index value)) :
    Rereadable taken (.lookup x index) := by
  refine iff_parts.mpr ⟨by simp, h.names (.store x index value) .refl, by simp, fun p hp => ?_⟩
  rw [List.mem_singleton.mp hp]
  exact h.part (by simp [Term.parts])

end Rereadable

/-! ## What has been read can be read again -/

/-- The tokens behind a phrase are among those of the text. -/
theorem Before.spelled {ts rest : List Token} (h : Before ts rest) (hs : ∀ t ∈ ts, t.Spelled) :
    ∀ t ∈ rest, t.Spelled :=
  fun t ht => hs t (h.suffix.subset ht)

section Readable

variable {known₀ known : List String} {taken : String → Prop}

mutual

/-- The text of an expression that has been read is an expression, also where other names are functions. -/
theorem Expression.readable {ts n rest} (hknown : ∀ x ∈ known, taken x) :
    Expression known₀ ts n rest → (∀ t ∈ ts, t.Spelled) → Rereadable taken n → Readable known n
  | .operation h, hs, hr => h.readable hknown hs hr
  | .assign h _ h', hs, hr =>
      .assign (h.readable hknown hs hr.assigned)
        (h'.readable hknown ((h.before.trans (.cons _ _)).spelled hs) (hr.part (by simp [Term.parts])))
  | .store h _ h', hs, hr =>
      .store (h.readable hknown hs hr.stored)
        (h'.readable hknown ((h.before.trans (.cons _ _)).spelled hs) (hr.part (by simp [Term.parts])))

theorem Operation.readable {L ts n rest} (hknown : ∀ x ∈ known, taken x) :
    Operation known₀ L ts n rest → (∀ t ∈ ts, t.Spelled) → Rereadable taken n → Readable known n
  | .operand h, hs, hr => h.readable hknown hs hr
  | .tighter h, hs, hr => h.readable hknown hs hr
  | .binary h _ hop h', hs, hr =>
      .binary hr.operator (h.readable hknown hs (hr.part (by simp [Term.parts])))
        (h'.readable hknown ((h.before.trans (.cons _ _)).spelled hs) (hr.part (by simp [Term.parts])))

/-- One case for each rule. What was a variable when it was read is not taken by a function. -/
theorem Operand.readable {ts n rest} (hknown : ∀ x ∈ known, taken x) :
    Operand known₀ ts n rest → (∀ t ∈ ts, t.Spelled) → Rereadable taken n → Readable known n
  | .number _ _, _, hr => .number (hr.numbers _ .refl).1 (hr.numbers _ .refl).2
  | .boolean _, _, _ => .boolean _
  | .call hname _ h, hs, hr =>
      .call (.of_token hname (hs _ (by simp)))
        (h.readable hknown (fun t ht => hs t (by simp [ht])) fun n hn => hr.part hn)
  | .lookup hname _ _ h _, hs, hr =>
      .lookup (.of_token hname (hs _ (by simp))) (hr.not_mem rfl hknown)
        (h.readable hknown (fun t ht => hs t (by simp [ht])) (hr.part (by simp [Term.parts])))
  | .variable hname _, hs, hr =>
      .var (.of_token hname (hs _ (by simp))) (hr.not_mem rfl hknown)
  | .function hname _ _, hs, hr =>
      .var (.of_token hname (hs _ (by simp))) (hr.not_mem rfl hknown)
  | .group _ h _, hs, hr => h.readable hknown (fun t ht => hs t (by simp [ht])) hr
  | .array _ h, hs, hr => .array (h.readable hknown (fun t ht => hs t (by simp [ht])) fun n hn => hr.part hn)

theorem Arguments.readable {closing ts args rest} (hknown : ∀ x ∈ known, taken x) :
    Arguments known₀ closing ts args rest → (∀ t ∈ ts, t.Spelled) → (∀ n ∈ args, Rereadable taken n) →
    ∀ n ∈ args, Readable known n
  | .empty _, _, _ => by simp
  | .items h, hs, hr => h.readable hknown hs hr

/-- The items of a list one by one; the tokens of the later ones are behind those of the first. -/
theorem Items.readable {closing ts args rest} (hknown : ∀ x ∈ known, taken x) :
    Items known₀ closing ts args rest → (∀ t ∈ ts, t.Spelled) → (∀ n ∈ args, Rereadable taken n) →
    ∀ n ∈ args, Readable known n
  | .last h _, hs, hr => by
      rw [List.forall_mem_singleton] at hr ⊢
      exact h.readable hknown hs hr
  | .cons h _ h', hs, hr => by
      rw [List.forall_mem_cons] at hr ⊢
      exact ⟨h.readable hknown hs hr.1, h'.readable hknown ((h.before.trans (.cons _ _)).spelled hs) hr.2⟩

end

/-- Also a condition that has been read, whatever operators it was written with. -/
theorem Condition.readable {ts n rest} (hknown : ∀ x ∈ known, taken x) :
    Condition known₀ ts n rest → (∀ t ∈ ts, t.Spelled) → Rereadable taken n → Readable known n
  | .factor h, hs, hr => h.readable hknown hs hr
  | .join h _ _ h', hs, hr =>
      .binary hr.operator (h.readable hknown hs (hr.part (by simp [Term.parts])))
        (h'.readable hknown ((h.before.trans (.cons _ _)).spelled hs) (hr.part (by simp [Term.parts])))

/-- An expression that stands alone, an array included. -/
theorem Alone.readable {ts n rest} (hknown : ∀ x ∈ known, taken x) :
    Alone known₀ ts n rest → (∀ t ∈ ts, t.Spelled) → Rereadable taken n → Readable known n
  | .array _ h, hs, hr =>
      .array (h.readable hknown (fun t ht => hs t (by simp [ht])) fun n hn => hr.part hn)
  | .expression _ h _, hs, hr => h.readable hknown hs hr

end Readable

end Grammar
end Abacus
