import Abacus.Term

/-!
# `Term.Parts` — the terms inside a term

`parts` are the terms right inside a term, `Within` those at any depth, the term itself included. Not all of them
are evaluated with the term: the body of a definition waits for a call. `Exposed` leaves those bodies out.

`IsExpression` says that nothing inside a term is a statement of another kind.

`Defines` says which definitions are inside a term, and `definitions` lists them in **post-order**: what is defined
inside a body comes before the definition the body belongs to, and otherwise what stands further left comes first.
-/

namespace Abacus

/-- The terms right inside a term. -/
def Term.parts : Term → List Term
  | .number _ | .boolean _ | .var _ => []
  | .assign _ value => [value]
  | .binary _ left right => [left, right]
  | .block statements => statements
  | .braced body => [body]
  | .ifElse condition body otherwise => condition :: body :: otherwise.toList
  | .elseClause nested inside => nested.toList ++ inside.toList
  | .whileLoop condition body => [condition, body]
  | .print value => [value]
  | .define _ _ body => [body]
  | .giveBack value => value.toList
  | .call _ args => args
  | .array elements => elements
  | .lookup _ index => [index]
  | .store _ index value => [index, value]

/-- The variable or array a term reads or assigns to. -/
def Term.place? : Term → Option String
  | .var name | .assign name _ | .lookup name _ | .store name _ _ => some name
  | _ => none

namespace Term

/-- A term inside a term, at any depth. -/
inductive Within (t : Term) : Term → Prop where
  | refl : Within t t
  | part {p n : Term} : p ∈ n.parts → Within t p → Within t n

/-- What is inside something inside a term is inside the term. -/
theorem Within.trans {t p n : Term} (h : Within t p) (h' : Within p n) : Within t n := by
  induction h' with
  | refl => exact h
  | part hmem _ ih => exact .part hmem ih

/-- A term inside a term is the term itself or inside one of its parts. -/
theorem within_iff {t n : Term} : Within t n ↔ t = n ∨ ∃ p ∈ n.parts, Within t p := by
  constructor
  · intro h
    cases h with
    | refl => exact .inl rfl
    | part hmem h => exact .inr ⟨_, hmem, h⟩
  · rintro (rfl | ⟨p, hmem, h⟩)
    · exact .refl
    · exact .part hmem h

/-- What holds of all terms inside a term holds of the term, and of all terms inside its parts. -/
theorem forall_within_iff {P : Term → Prop} {n : Term} :
    (∀ t, Within t n → P t) ↔ P n ∧ ∀ p ∈ n.parts, ∀ t, Within t p → P t := by
  constructor
  · intro h
    exact ⟨h n .refl, fun p hp t ht => h t (.part hp ht)⟩
  · rintro ⟨hhere, hparts⟩ t ht
    cases ht with
    | refl => exact hhere
    | part hp ht => exact hparts _ hp t ht

/-- The definition `d` stands somewhere inside a term. -/
def Defines (d : Definition) (n : Term) : Prop := Within (.define d.name d.params d.body) n

theorem defines_iff {d : Definition} {n : Term} :
    Defines d n ↔ .define d.name d.params d.body = n ∨ ∃ p ∈ n.parts, Defines d p :=
  within_iff

/-- A term that is no definition has those of its parts. -/
theorem defines_iff_parts {d : Definition} {n : Term} (h : ∀ name params body, n ≠ .define name params body) :
    Defines d n ↔ ∃ p ∈ n.parts, Defines d p := by
  rw [defines_iff]
  constructor
  · rintro (heq | hpart)
    · exact absurd heq.symm (h _ _ _)
    · exact hpart
  · exact .inr

/-! ## Expressions -/

/-- Tells whether a term is put together like an expression. -/
def hasExpressionHead : Term → Bool
  | number _ | boolean _ | var _ | assign _ _ | binary _ _ _ => true
  | call _ _ | array _ | lookup _ _ | store _ _ _ => true
  | _ => false

/-- An expression: nothing inside it is a statement of another kind. -/
def IsExpression (n : Term) : Prop := ∀ t, Within t n → t.hasExpressionHead = true

theorem IsExpression.part {p n : Term} (h : n.IsExpression) (hp : p ∈ n.parts) : p.IsExpression :=
  fun t ht => h t (.part hp ht)

/-- An expression is one by its own form and by that of its parts. -/
theorem isExpression_iff {n : Term} :
    n.IsExpression ↔ n.hasExpressionHead = true ∧ ∀ p ∈ n.parts, p.IsExpression :=
  forall_within_iff

/-- No definition stands inside an expression. -/
theorem IsExpression.not_defines {n : Term} (h : n.IsExpression) (d : Definition) : ¬n.Defines d := by
  intro hd
  cases h _ hd

/-! ## Outside the bodies of definitions -/

/-- The terms right inside a term that are evaluated with it. The body of a definition is not. -/
def exposedParts : Term → List Term
  | .define _ _ _ => []
  | n => n.parts

/-- What is exposed is a part. Of all parts only the body of a definition is not. -/
theorem mem_parts_of_exposed {p n : Term} (h : p ∈ n.exposedParts) : p ∈ n.parts := by
  cases n with
  | define name params body => cases h
  | _ => exact h

/-- A term inside a term, at any depth but outside the bodies of definitions. -/
inductive Exposed (t : Term) : Term → Prop where
  | refl : Exposed t t
  | part {p n : Term} : p ∈ n.exposedParts → Exposed t p → Exposed t n

theorem Exposed.trans {t p n : Term} (h : Exposed t p) (h' : Exposed p n) : Exposed t n := by
  induction h' with
  | refl => exact h
  | part hmem _ ih => exact .part hmem ih

theorem Exposed.within {t n : Term} (h : Exposed t n) : Within t n := by
  induction h with
  | refl => exact .refl
  | part hmem _ ih => exact .part (mem_parts_of_exposed hmem) ih

/-! ## The list of definitions -/

mutual

/-- The definitions inside a term, in post-order. -/
def definitions : Term → List Definition
  | number _ | boolean _ | var _ => []
  | assign _ value => value.definitions
  | binary _ left right => left.definitions ++ right.definitions
  | block statements => definitionsOfEach statements
  | braced body => body.definitions
  | ifElse condition body otherwise =>
    condition.definitions ++ (body.definitions ++ definitionsOf? otherwise)
  | elseClause nested inside => definitionsOf? nested ++ definitionsOf? inside
  | whileLoop condition body => condition.definitions ++ body.definitions
  | print value => value.definitions
  | define name params body => body.definitions ++ [{ name, params, body }]
  | giveBack value => definitionsOf? value
  | call _ args => definitionsOfEach args
  | array elements => definitionsOfEach elements
  | lookup _ index => index.definitions
  | store _ index value => index.definitions ++ value.definitions

/-- The definitions inside several terms, from left to right. -/
def definitionsOfEach : List Term → List Definition
  | [] => []
  | term :: rest => term.definitions ++ definitionsOfEach rest

/-- The definitions inside a term that may be missing. -/
def definitionsOf? : Option Term → List Definition
  | none => []
  | some term => term.definitions

end

@[simp] theorem definitionsOfEach_eq (ns : List Term) : definitionsOfEach ns = ns.flatMap definitions := by
  induction ns with
  | nil => rfl
  | cons n ns ih => rw [definitionsOfEach, ih, List.flatMap_cons]

@[simp] theorem definitionsOf?_eq (n : Option Term) : definitionsOf? n = n.toList.flatMap definitions := by
  cases n with
  | none => rfl
  | some n => simp [definitionsOf?]

/-- A term that is no definition has those of its parts. -/
theorem definitions_eq_parts {n : Term} (h : ∀ name params body, n ≠ .define name params body) :
    n.definitions = n.parts.flatMap definitions := by
  cases n with
  | define name params body => exact absurd rfl (h name params body)
  | _ => simp [definitions, parts]

/-- Parts are smaller, so recursion over parts ends. -/
theorem sizeOf_lt_of_mem_parts {p n : Term} (h : p ∈ n.parts) : sizeOf p < sizeOf n := by
  cases n with
  | block terms | call _ terms | array terms =>
      have hlt : sizeOf p < sizeOf terms := List.sizeOf_lt_of_mem h
      grind
  | _ => grind [parts]

theorem Exposed.sizeOf_le {t n : Term} (h : Exposed t n) : sizeOf t ≤ sizeOf n := by
  induction h with
  | refl => exact Nat.le_refl _
  | part hmem _ ih => exact Nat.le_trans ih (Nat.le_of_lt (sizeOf_lt_of_mem_parts (mem_parts_of_exposed hmem)))

/-- What a term inherits from its parts, every term has. -/
theorem induction_parts {P : Term → Prop} (h : ∀ n, (∀ p ∈ n.parts, P p) → P n) (n : Term) : P n :=
  h n fun p hp => have := sizeOf_lt_of_mem_parts hp; induction_parts h p
termination_by n

/-- The list holds the definitions inside the term, and no others. -/
theorem mem_definitions_iff {d : Definition} {n : Term} : d ∈ n.definitions ↔ n.Defines d := by
  induction n using induction_parts with
  | h n ih =>
      have hparts : d ∈ n.parts.flatMap definitions ↔ ∃ p ∈ n.parts, Defines d p := by
        rw [List.mem_flatMap]
        exact exists_congr fun p => and_congr_right (ih p)
      by_cases hn : ∃ name params body, n = .define name params body
      · obtain ⟨name, params, body, rfl⟩ := hn
        rw [defines_iff, ← hparts]
        cases d
        simp [definitions, parts, or_comm]
      · have hne : ∀ name params body, n ≠ .define name params body :=
          fun name params body heq => hn ⟨name, params, body, heq⟩
        rw [defines_iff_parts hne, definitions_eq_parts hne]
        exact hparts

/-- An expression has no definitions to list. -/
theorem IsExpression.definitions_eq_nil {n : Term} (h : n.IsExpression) : n.definitions = [] := by
  rw [List.eq_nil_iff_forall_not_mem]
  intro d hd
  exact h.not_defines d (mem_definitions_iff.mp hd)

end Term
end Abacus
