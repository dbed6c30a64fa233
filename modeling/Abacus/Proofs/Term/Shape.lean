import Abacus.Proofs.Eval.Returns

/-!
# `Term.Shape` — terms that are put together well

The type of terms allows a block outside of braces, a loop inside of a sum, or an operator without a meaning anywhere.
`WellFormed` says that a term has none of this. Where a term stands matters for one thing only: an operator without a
meaning may stand on the **left spine of a condition**, which is the condition itself, its left operand, the left
operand of that, and so on. `Occurs` follows the ways down into a term and keeps account of whether they are on such a
spine.

## Contents
- `Everywhere` — properties of all terms inside a term;
- `Shaped` — what stands right inside a term;
- `names`, `HasMeaning` — the words of a term;
- `Occurs`, `OnSpines` — where an operator stands;
- `WellFormed` — all of it.
-/

namespace Abacus
namespace Term

/-! ## All terms inside a term -/

/-- All terms inside the term have the property, the term itself included. -/
def Everywhere (P : Term → Prop) (n : Term) : Prop := ∀ t, Within t n → P t

section Everywhere

variable {P Q : Term → Prop} {p n : Term}

theorem Everywhere.here (h : n.Everywhere P) : P n := h n .refl

/-- A part has no more terms inside than the whole. -/
theorem Everywhere.part (h : n.Everywhere P) (hp : p ∈ n.parts) : p.Everywhere P := fun t ht => h t (.part hp ht)

theorem Everywhere.imp (h : n.Everywhere P) (hPQ : ∀ t, P t → Q t) : n.Everywhere Q := fun t ht => hPQ t (h t ht)

theorem Everywhere.and (h : n.Everywhere P) (h' : n.Everywhere Q) : n.Everywhere fun t => P t ∧ Q t :=
  fun t ht => ⟨h t ht, h' t ht⟩

/-- What holds everywhere holds of the term and everywhere in its parts; this is how it is shown, one case per rule.
-/
theorem everywhere_iff : n.Everywhere P ↔ P n ∧ ∀ p ∈ n.parts, p.Everywhere P :=
  forall_within_iff

end Everywhere

/-! ## Kinds of terms -/

/-- Tells whether a term is a list of statements. -/
def isBlock : Term → Bool
  | block _ => true
  | _ => false

/-- Tells whether a term stands between braces. -/
def isBraced : Term → Bool
  | braced _ => true
  | _ => false

/-- Tells whether a term is a branch. -/
def isIf : Term → Bool
  | ifElse _ _ _ => true
  | _ => false

/-- Tells whether a term is what follows `else`. -/
def isElse : Term → Bool
  | elseClause _ _ => true
  | _ => false

/-- The parts of a term are of the kinds that belong there. -/
def PartsFit : Term → Prop
  | block statements => statements ≠ []
  | braced body => body.isBlock = true
  | ifElse _ body otherwise => body.isBraced = true ∧ ∀ e ∈ otherwise, e.isElse = true
  | elseClause nested inside =>
    (∃ m, nested = some m ∧ m.isIf = true ∧ inside = none) ∨
      ∃ body, nested = none ∧ inside = some body ∧ body.isBraced = true
  | whileLoop _ body => body.isBraced = true
  | define _ _ body => body.isBraced = true
  | _ => True

/-- The parts of a term fit, and only in braces is one of them a block. -/
structure Shaped (t : Term) : Prop where
  inBraces : ∀ p ∈ t.parts, p.isBlock = true → t.isBraced = true
  fit : t.PartsFit

/-- Where no part is a block, the parts have to fit. -/
theorem Shaped.of_parts {t : Term} (hparts : ∀ p ∈ t.parts, p.isBlock = false) (hfit : t.PartsFit) : t.Shaped := by
  refine ⟨fun p hp hblock => ?_, hfit⟩
  rw [hparts p hp] at hblock
  cases hblock

theorem IsExpression.isBlock {n : Term} (h : n.IsExpression) : n.isBlock = false := by
  have hhead := h n .refl
  cases n with
  | block statements => cases hhead
  | _ => rfl

/-- Expressions are shaped well, as they hold only expressions. -/
theorem IsExpression.shaped {n : Term} (h : n.IsExpression) : n.Everywhere Shaped := by
  intro t ht
  have hhead := h t ht
  refine .of_parts (fun p hp => ?_) ?_
  · have hpart : Within p t := .part hp .refl
    exact IsExpression.isBlock fun s hs => h s (hs.trans (hpart.trans ht))
  · cases t with
    | block | braced | ifElse | elseClause | whileLoop | define => cases hhead
    | _ => trivial

/-! ## Words -/

/-- The names right in a term: of variables, arrays, functions and parameters. -/
def names : Term → List String
  | var name | assign name _ | lookup name _ | store name _ _ | call name _ => [name]
  | define name params _ => name :: params
  | _ => []

/-- The operator of a term is one that has a meaning. -/
def HasMeaning : Term → Prop
  | binary op _ _ => op ∈ Operator.meaningful
  | _ => True

/-- An operator without a meaning is nowhere inside. -/
theorem Everywhere.not_unknown {n left right : Term} {c : Char} (h : n.Everywhere HasMeaning) :
    ¬Within (binary (.unknown c) left right) n := by
  intro ht
  have hmeaning : Operator.unknown c ∈ Operator.meaningful := h _ ht
  simp [Operator.meaningful] at hmeaning

/-! ## Left spines of conditions -/

/-- The condition of a branch or a loop. -/
def condition? : Term → Option Term
  | ifElse condition _ _ | whileLoop condition _ => some condition
  | _ => none

/-- The parts of a term that are neither a condition nor a left operand. -/
def asides : Term → List Term
  | binary _ _ right => [right]
  | ifElse _ body otherwise => body :: otherwise.toList
  | whileLoop _ body => [body]
  | n => n.parts

/-- A way down to `t` from a term that is on the left spine of a condition or is not. It ends on such a spine or does
not. -/
inductive Occurs (t : Term) (spine : Bool) : Bool → Term → Prop where
  | here : Occurs t spine spine t
  | condition {b : Bool} {n c : Term} : c ∈ n.condition? → Occurs t spine true c → Occurs t spine b n
  | left {b : Bool} {op : Operator} {left right : Term} :
      Occurs t spine b left → Occurs t spine b (binary op left right)
  | aside {b : Bool} {n p : Term} : p ∈ n.asides → Occurs t spine false p → Occurs t spine b n

theorem mem_parts_of_condition? {n c : Term} (h : c ∈ n.condition?) : c ∈ n.parts := by
  cases n with
  | ifElse | whileLoop =>
      cases h
      exact List.mem_cons_self ..
  | _ => cases h

theorem mem_parts_of_asides {n p : Term} (h : p ∈ n.asides) : p ∈ n.parts := by
  cases n with
  | binary | ifElse | whileLoop => exact List.mem_cons_of_mem _ h
  | _ => exact h

/-- A part is a condition, a left operand or neither. -/
theorem mem_parts_cases {n p : Term} (h : p ∈ n.parts) :
    p ∈ n.condition? ∨ (∃ op right, n = binary op p right) ∨ p ∈ n.asides := by
  cases n with
  | binary op left right =>
      rcases List.mem_cons.mp h with rfl | h
      · exact .inr (.inl ⟨op, right, rfl⟩)
      · exact .inr (.inr h)
  | ifElse | whileLoop =>
      rcases List.mem_cons.mp h with rfl | h
      · exact .inl rfl
      · exact .inr (.inr h)
  | _ => exact .inr (.inr h)

theorem Occurs.within {t n : Term} {spine b : Bool} (h : Occurs t spine b n) : Within t n := by
  induction h with
  | here => exact .refl
  | condition hc _ ih => exact .part (mem_parts_of_condition? hc) ih
  | left _ ih => exact .part (List.mem_cons_self ..) ih
  | aside hp _ ih => exact .part (mem_parts_of_asides hp) ih

/-- There is a way down to every term inside. -/
theorem Within.occurs {t n : Term} (h : Within t n) : ∀ b, ∃ spine, Occurs t spine b n := by
  induction h with
  | refl => exact fun b => ⟨b, .here⟩
  | part hp _ ih =>
      intro b
      rcases mem_parts_cases hp with hc | ⟨op, right, rfl⟩ | hside
      · obtain ⟨spine, h⟩ := ih true
        exact ⟨spine, .condition hc h⟩
      · obtain ⟨spine, h⟩ := ih b
        exact ⟨spine, .left h⟩
      · obtain ⟨spine, h⟩ := ih false
        exact ⟨spine, .aside hside h⟩

/-- In a term that is on the left spine of a condition or is not, operators without a meaning stand on such spines
only. -/
def OnSpines (b : Bool) (n : Term) : Prop :=
  ∀ c left right spine, Occurs (binary (.unknown c) left right) spine b n → spine = true

section OnSpines

variable {b : Bool} {n left right : Term} {op : Operator}

/-- Where there is no such operator, it does not matter where the conditions are. -/
theorem OnSpines.of_meaning (h : n.Everywhere HasMeaning) : OnSpines b n := by
  intro c left right spine hoccurs
  exact absurd hoccurs.within h.not_unknown

/-- On a left spine any operator may stand. -/
theorem OnSpines.binary (hleft : OnSpines true left) (hright : OnSpines false right) :
    OnSpines true (binary op left right) := by
  intro c l r spine h
  cases h with
  | here => rfl
  | condition hc h => cases hc
  | left h => exact hleft c l r spine h
  | aside hp h =>
      rw [List.mem_singleton.mp hp] at h
      exact hright c l r spine h

/-- Statements have no operators of their own. -/
theorem OnSpines.of_parts (hhead : ∀ op left right, n ≠ Term.binary op left right)
    (hcondition : ∀ c ∈ n.condition?, OnSpines true c) (hasides : ∀ p ∈ n.asides, OnSpines false p) :
    OnSpines b n := by
  intro c l r spine h
  cases h with
  | here => exact absurd rfl (hhead _ _ _)
  | condition hc h => exact hcondition _ hc c l r spine h
  | left h => exact absurd rfl (hhead _ _ _)
  | aside hp h => exact hasides _ hp c l r spine h

/-- Most statements have no condition either. -/
theorem OnSpines.of_asides (hhead : ∀ op left right, n ≠ Term.binary op left right) (hcondition : n.condition? = none)
    (hasides : ∀ p ∈ n.asides, OnSpines false p) : OnSpines b n :=
  .of_parts hhead (by simp [hcondition]) hasides

end OnSpines

/-! ## Well-formed terms -/

/-- A term as the parser builds it, whatever the tokens. -/
structure WellFormed (n : Term) : Prop where
  /-- A block stands right inside braces, and nothing else does. -/
  notBlock : n.isBlock = false
  inBraces : ∀ t p, Within t n → p ∈ t.parts → p.isBlock = true → t.isBraced = true
  braces : ∀ body, Within (braced body) n → body.isBlock = true
  notEmpty : ¬Within (block []) n
  /-- Bodies stand between braces, and `else` is followed by another branch or by a body. -/
  branch : ∀ condition body otherwise, Within (ifElse condition body otherwise) n →
    body.isBraced = true ∧ ∀ e ∈ otherwise, e.isElse = true
  otherwise : ∀ nested inside, Within (elseClause nested inside) n →
    (∃ m, nested = some m ∧ m.isIf = true ∧ inside = none) ∨
      ∃ body, nested = none ∧ inside = some body ∧ body.isBraced = true
  loop : ∀ condition body, Within (whileLoop condition body) n → body.isBraced = true
  body : ∀ d, n.Defines d → d.body.isBraced = true
  /-- Inside an expression stand expressions only. -/
  expressions : ∀ t, Within t n → ∀ p ∈ t.operands, p.IsExpression
  names : ∀ t, Within t n → ∀ x ∈ t.names, isKeyword x = false
  /-- An operator without a meaning stands on the left spine of a condition, and nowhere else. -/
  operators : ∀ c left right, Within (Term.binary (.unknown c) left right) n →
    Occurs (Term.binary (.unknown c) left right) true false n ∧
      ¬Occurs (Term.binary (.unknown c) left right) false false n

/-- The shape is gathered from what holds of each term by itself and from where the conditions are. -/
theorem WellFormed.of_shaped {n : Term} (hblock : n.isBlock = false) (hshaped : n.Everywhere Shaped)
    (hsorted : n.WellSorted) (hnames : n.Everywhere fun t => ∀ x ∈ t.names, isKeyword x = false)
    (hspines : OnSpines false n) : n.WellFormed where
  notBlock := hblock
  inBraces t p ht := (hshaped t ht).inBraces p
  braces _ h := (hshaped _ h).fit
  notEmpty h := (hshaped _ h).fit rfl
  branch _ _ _ h := (hshaped _ h).fit
  otherwise _ _ h := (hshaped _ h).fit
  loop _ _ h := (hshaped _ h).fit
  body _ h := (hshaped _ h).fit
  expressions := hsorted
  names := hnames
  operators c left right h := by
    obtain ⟨spine, hoccurs⟩ := h.occurs false
    rw [hspines c left right spine hoccurs] at hoccurs
    exact ⟨hoccurs, fun hoff => by cases hspines c left right false hoff⟩

end Term
end Abacus
