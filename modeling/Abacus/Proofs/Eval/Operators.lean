import Abacus.Proofs.Eval.Contracts

/-!
# `Eval.Operators` — who complains about an operator

An operator without a meaning fails when it is applied, and there are three places for that: one for operators of no
family, and one in each of two families for operators of another family. The last two are never reached, because the
families tell the operators apart; and the first one complains about an operator **that is written** in the term, or in
the body of a registered function. Evaluation can bring no other operator up (`Env.Uses`).

`evalOr` does something arbitrary in all three places, to say that they are not reached.

## Contents
- `Term.Uses`, `Env.Uses` — the operators of a term and of the registered functions;
- `evalOr`, `step_operator` — evaluation with something else done in the three places;
- `Guarded`, `eval_guarded` — what is complained about is written somewhere;
- `eval_without_unknown` — nothing is complained about.
-/

namespace Abacus

open Term (Within)

/-! ## The operators of a program -/

/-- All operators in the term have the property, also those in the bodies of definitions. -/
def Term.Uses (P : Operator → Prop) (n : Term) : Prop := ∀ op left right, Within (.binary op left right) n → P op

theorem Term.Uses.within {P : Operator → Prop} {t n : Term} (h : n.Uses P) (ht : Within t n) : t.Uses P :=
  fun op left right hop => h op left right (hop.trans ht)

/-- All operators in the bodies of registered functions have the property. -/
def Env.Uses (P : Operator → Prop) (env : Env) : Prop :=
  ∀ name frame, env.functions.get? name = some frame → frame.definition.body.Uses P

namespace Env.Uses

variable {P : Operator → Prop} {env after : Env}

theorem of_sameFunctions (h : env.Uses P) (hsame : env.SameFunctions after) : after.Uses P :=
  Env.BodiesHave.of_sameFunctions (P := Term.Uses P) h hsame

theorem define (h : env.Uses P) {d : Definition} (hd : d.body.Uses P) : (env.define d).Uses P :=
  Env.BodiesHave.define (P := Term.Uses P) h hd

end Env.Uses

/-! ## Places that are left open -/

/-- For an operator that has a family, it does not matter what is done with others. -/
theorem operate_eq {op : Operator} (h : op.family ≠ .unknown) (left right : Bool) (x y : Float)
    (other other' : Operator → Except RuntimeError Float) :
    operate op left right x y other = operate op left right x y other' := by
  cases op with
  | unknown c => exact absurd rfl h
  | _ => rfl

/-- Only an operator of no family is complained about. -/
theorem operate_invalidOperator {op op' : Operator} {left right : Bool} {x y : Float}
    (h : operate op left right x y = .error (.invalidOperator op')) : op' = op ∧ op.family = .unknown := by
  cases op with
  | unknown c =>
      cases h
      exact ⟨rfl, rfl⟩
  | add | sub | mul =>
      simp only [operate, Operator.family, arithmetic] at h
      split at h <;> cases h
  | div | rem =>
      simp only [operate, Operator.family, arithmetic] at h
      split at h
      · cases h
      · split at h <;> cases h
  | lt | gt | le | ge | eq | ne =>
      simp only [operate, Operator.family] at h
      split at h <;> cases h
  | and | xor | or =>
      simp only [operate, Operator.family, logic] at h
      split at h <;> cases h

namespace Eval

/-- Evaluation, with something else done in these places. -/
def evalOr (other : Operator → Except RuntimeError Float) : Nat → Term → Eval Float :=
  evalWith { toRecheck := .failing, operator := other, beyond := fail .outOfBounds }

/-- With the complaint in these places it is the evaluation. -/
theorem evalOr_complain (fuel : Nat) : evalOr complain fuel = eval fuel := rfl

/-- In a term whose operator has a family, these places do not matter. -/
theorem step_operator {term : Term} (h : term.Uses (·.family ≠ .unknown)) (arms : Arms)
    (other : Operator → Except RuntimeError Float) (n : Nat) (ev : Term → Eval Float) :
    step { arms with operator := other } n ev term = step arms n ev term := by
  cases term with
  | binary op left right =>
      have hop : op.family ≠ .unknown := h op left right .refl
      simp only [step, binary, operate_eq hop _ _ _ _ other arms.operator]
  | elseClause nested inside => cases nested <;> rfl
  | _ => rfl

theorem evalOr_succ {term : Term} (h : term.Uses (·.family ≠ .unknown))
    (other : Operator → Except RuntimeError Float) (n : Nat) :
    evalOr other (n + 1) term = step .failing n (evalOr other n) term :=
  step_operator h .failing other n (evalOr other n)

/-! ## Operators that are left out -/

variable {α β : Type} {P : Operator → Prop}

/-- The law of operators: none comes up that is not written. -/
def operatorsLaw (P : Operator → Prop) : Law where
  allows term env := term.Uses P ∧ env.Uses P
  rel a b := a.Keeps b ∧ (a.Uses P → b.Uses P)
  keeps h := h.1
  refl env := ⟨.refl env, id⟩
  trans h h' := ⟨h.1.trans h'.1, fun ha => h'.2 (h.2 ha)⟩
  stays h hrel := ⟨h.1, hrel.2 h.2⟩
  part h hpart := ⟨h.1.within (.part (Term.mem_parts_of_exposed hpart) .refl), h.2⟩
  body {name _ frame a b} bindings h hget hrel := by
    have henter : (b.enter name bindings).Uses P := (hrel.2 h.2).of_sameFunctions (.enter name bindings)
    exact ⟨h.2 name frame hget, henter⟩
  setScalar result _ := ⟨.setScalar _ result, fun h => h.of_sameFunctions (.setScalar _ result)⟩
  bindArray _ name elements := ⟨.bindArray name elements, id⟩
  define h := ⟨.define _, fun henv => henv.define (h.1.within (.part (by simp [Term.parts]) .refl))⟩
  enter _ function bindings := ⟨.enter function bindings, fun h => h.of_sameFunctions (.enter function bindings)⟩
  write _ sink := ⟨.write sink, id⟩
  leave _ h := ⟨.leave h.1, h.2⟩

/-- Where all operators have families, it does not matter what is done in these places. -/
theorem evalOr_follows (other other' : Operator → Except RuntimeError Float) (fuel : Nat) :
    ∀ {term : Term} {base : Env}, (operatorsLaw (·.family ≠ .unknown)).allows term base →
      Follows (operatorsLaw (·.family ≠ .unknown)) base (evalOr other fuel term) (evalOr other' fuel term) := by
  induction fuel with
  | zero => intro term base _; exact .outOfFuel
  | succ n ih =>
      intro term base h
      have hterm : term.Uses (·.family ≠ .unknown) := h.1
      rw [evalOr_succ hterm, evalOr_succ hterm]
      exact step_follows (fun {_ _} => ih) .failing .failing (Nat.le_refl n) h

theorem evalOr_eq_eval {term : Term} {env : Env} (hterm : term.Uses (·.family ≠ .unknown))
    (henv : env.Uses (·.family ≠ .unknown)) (other : Operator → Except RuntimeError Float) (fuel : Nat) :
    evalOr other fuel term env = eval fuel term env := by
  let law := operatorsLaw (·.family ≠ .unknown)
  have hfollows (f g : Operator → Except RuntimeError Float) :
      Follows law env (evalOr f fuel term) (evalOr g fuel term) :=
    evalOr_follows f g fuel ⟨hterm, henv⟩
  rw [← evalOr_complain]
  -- An evaluation that ends is followed by the other one, whichever of the two it is.
  cases hother : evalOr other fuel term env with
  | some y => exact (hfollows other _ (law.refl env) hother).1.symm
  | none =>
      cases hend : evalOr complain fuel term env with
      | none => rfl
      | some y =>
          have hsame := (hfollows _ other (law.refl env) hend).1
          rw [hother] at hsame
          cases hsame

/-! ## Complaints -/

/-- Whenever `x` ends, from a state with operators of `P` only, there are still no others; and if it complains about an
operator then that is one of `P` without a family. -/
def Guarded (P : Operator → Prop) (x : Eval α) : Prop :=
  ∀ ⦃env⦄, env.Uses P → ∀ ⦃r after⦄, x env = some (r, after) →
    after.Uses P ∧ ∀ op, r = .error (.invalidOperator op) → P op ∧ op.family = .unknown

/-- An operation complains about its own operator. -/
theorem eq_binary_of_move (begun last : Env) (values more : List Float) {term : Term} {op : Operator}
    (h : move begun last values more term = .fail (.invalidOperator op)) :
    ∃ left right, term = .binary op left right ∧ op.family = .unknown := by
  cases term with
  | binary op' left right =>
      simp only [move] at h
      cases hresult : operate op' left.isBoolean right.isBoolean (values.getD 0 0) (values.getD 1 0) with
      | ok value =>
          rw [hresult] at h
          cases h
      | error e =>
          rw [hresult] at h
          cases h
          obtain ⟨rfl, hfamily⟩ := operate_invalidOperator hresult
          exact ⟨left, right, rfl, hfamily⟩
  | print value =>
      rw [move_print] at h
      split at h <;> cases h
  | define name params body => cases h
  | _ =>
      have hplain : (Move.fail (.invalidOperator op)).isPlain = true := by
        rw [← h]
        exact isPlain_move begun last values more rfl
      cases hplain

/-- The contract of complaints: with operators of `P` only, one of these is complained about, and has no family. -/
def complaints (P : Operator → Prop) : Contract where
  allows := Term.Uses P
  part h hp := h.within (.part hp .refl)
  rel _ failure _ := ∀ op, failure = some (.invalidOperator op) → P op ∧ op.family = .unknown
  refl _ := nofun
  trans _ h := h
  enter _ _ _ := nofun
  leave h := h
  move {term begun last after values more r} hterm hmakes op hop := by
    generalize hmove : Eval.move begun last values more term = m at hmakes
    cases hmakes with
    | fail error =>
        cases hop
        obtain ⟨left, right, rfl, hfamily⟩ := eq_binary_of_move begun last values more hmove
        exact ⟨hterm op left right .refl, hfamily⟩
    | _ => cases hop

/-- **What evaluation complains about is written**, in the term or in the body of a registered function. -/
theorem eval_guarded (fuel : Nat) {term : Term} (h : term.Uses P) : Guarded P (eval fuel term) := by
  intro env henv r after heval
  obtain ⟨hafter, hcomplaint⟩ := eval_upholds (complaints P) fuel h env henv heval
  refine ⟨hafter, fun op hop => hcomplaint op ?_⟩
  rw [hop]
  rfl

theorem uses_of_not_unknown {n : Term} (h : ∀ c left right, ¬Within (.binary (.unknown c) left right) n) :
    n.Uses (·.family ≠ .unknown) := by
  intro op left right hop
  cases op with
  | unknown c => exact absurd hop (h c left right)
  | _ => simp [Operator.family]

/-- **Without operators that have no meaning, none is complained about**, and no place for it is reached. -/
theorem eval_without_unknown {term : Term} {env : Env}
    (hterm : ∀ c left right, ¬Within (.binary (.unknown c) left right) term)
    (henv : ∀ name frame, env.functions.get? name = some frame →
      ∀ c left right, ¬Within (.binary (.unknown c) left right) frame.definition.body) (fuel : Nat) :
    (∀ r after, eval fuel term env = some (r, after) → ∀ op, r ≠ .error (.invalidOperator op)) ∧
      ∀ other, evalOr other fuel term env = eval fuel term env := by
  have hterm := uses_of_not_unknown hterm
  have henv : env.Uses (·.family ≠ .unknown) := fun name frame hget => uses_of_not_unknown (henv name frame hget)
  constructor
  · intro r after heval op hr
    obtain ⟨hfamily, hunknown⟩ := (eval_guarded fuel hterm henv heval).2 op hr
    exact hfamily hunknown
  · exact fun other => evalOr_eq_eval hterm henv other fuel

end Eval
end Abacus
