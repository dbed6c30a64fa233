import Abacus.Proofs.Eval.Functions
import Abacus.Proofs.Eval.Moves

/-!
# `Eval.Contracts` — what every move keeps, every run keeps

A run is made of moves, and they are moves of terms in the program: of the term that is evaluated, or of the body of a
function, which is registered before or comes from a definition in the program. So what is said of the moves of such
terms can be said of runs.

A `Contract` says what terms a program may have, and how the state before and the state behind have to be related; the
relation may depend on the failure that ends the run there. `Law` is about such relations too, and about two runs at
once, but asks that a relation admit any array. Here each move is looked at **with its term**, in the state in which it
is made.

## Contents
- `Move.Makes` — what a move can do;
- `Contract`, `Upholds` — the terms and the relation, and actions that keep to them;
- `eval_upholds` — runs keep to a contract that moves keep to.
-/

namespace Abacus
namespace Eval

variable {α β : Type}

/-! ## What a move can do -/

/-- The move, made in the state `env`, ends with the given result in the given state. -/
inductive Move.Makes (env : Env) : Move → Except RuntimeError Float → Env → Prop where
  | give (value : Float) : Makes env (.give value) (.ok value) env
  | fail (error : RuntimeError) : Makes env (.fail error) (.error error) env
  | setScalar (name : String) (value : Float) :
      Makes env (.setScalar name value) (.ok value) (env.setScalar name value)
  | bindArray (name : String) (elements : Elements) (value : Float) :
      Makes env (.bindArray name elements value) (.ok value) (env.bindArray name elements)
  | define (definition : Definition) : Makes env (.define definition) (.ok 0) (env.define definition)
  | print (line : String) (value : Float) (sink : Sink) : Makes env (.print line value) (.ok value) { env with sink }
  | refused (line : String) (value : Float) (reason : String) :
      Makes env (.print line value) (.error (.output reason)) env

theorem Move.makes_of_run {move : Move} {env after : Env} {r : Except RuntimeError Float}
    (h : move.run env = some (r, after)) : Makes env move r after := by
  cases move with
  | give value =>
      cases h
      exact .give value
  | fail error =>
      cases h
      exact .fail error
  | setScalar name value =>
      cases h
      exact .setScalar name value
  | bindArray name elements value =>
      cases h
      exact .bindArray name elements value
  | define definition =>
      cases h
      exact .define definition
  | print line value =>
      rw [Move.run, bind_apply, write] at h
      cases hwrite : env.sink.write line with
      | ok sink =>
          rw [hwrite] at h
          cases h
          exact .print line value sink
      | error reason =>
          rw [hwrite] at h
          cases h
          exact .refused line value reason

/-- A move brings no body but that of its definition. -/
theorem Move.Makes.bodiesHave {P : Term → Prop} {move : Move} {env after : Env} {r : Except RuntimeError Float}
    (h : Makes env move r after) (henv : env.BodiesHave P) (hdefine : ∀ d, move = .define d → P d.body) :
    after.BodiesHave P := by
  cases h with
  | setScalar name value => exact henv.of_sameFunctions (.setScalar name value)
  | define d => exact henv.define (hdefine d rfl)
  | _ => exact henv

/-! ## Contracts -/

/-- The failure that a result is, if it is one. -/
def failure? : Except RuntimeError α → Option RuntimeError
  | .ok _ => none
  | .error error => some error

/-- The terms that a program may have, and how the state before a run, its failure and the state behind it are
related. -/
structure Contract where
  allows : Term → Prop
  part : ∀ {p n : Term}, allows n → p ∈ n.parts → allows p
  rel : Env → Option RuntimeError → Env → Prop
  refl : ∀ env, rel env none env
  trans : ∀ {a b c : Env} {failure : Option RuntimeError}, rel a none b → rel b failure c → rel a failure c
  enter : ∀ env function bindings, rel env none (env.enter function bindings)
  leave : ∀ {function : String} {a b : Env} {failure : Option RuntimeError},
    rel { a with active := some function } failure b → rel a failure { b with active := a.active }
  /-- The moves of these terms, each in the state in which it is made. -/
  move : ∀ {term : Term} {begun last after : Env} {values more : List Float} {r : Except RuntimeError Float},
    allows term → Move.Makes last (Eval.move begun last values more term) r after → rel last (failure? r) after

/-- What is inside of an allowed term is allowed. -/
theorem Contract.within (C : Contract) {t n : Term} (h : C.allows n) (ht : Term.Within t n) : C.allows t := by
  induction ht with
  | refl => exact h
  | part hp _ ih => exact ih (C.part h hp)

/-- Whenever `x` ends, from the state `env` with allowed bodies, the bodies are allowed still, and the states are
related. -/
def Upholds (C : Contract) (x : Eval α) (env : Env) : Prop :=
  env.BodiesHave C.allows → ∀ ⦃r after⦄, x env = some (r, after) →
    after.BodiesHave C.allows ∧ C.rel env (failure? r) after

namespace Upholds

variable {C : Contract} {env : Env}

theorem pure (a : α) : Upholds C (Pure.pure a : Eval α) env := by
  intro hbodies r after h
  cases h
  exact ⟨hbodies, C.refl env⟩

theorem outOfFuel : Upholds C (Eval.outOfFuel : Eval α) env := by
  intro _ r after h
  cases h

/-- What both actions uphold, their sequence does; if the first one fails, only that counts. -/
theorem bind {x : Eval α} {f : α → Eval β} (hx : Upholds C x env) (hf : ∀ a mid, Upholds C (f a) mid) :
    Upholds C (x >>= f) env := by
  intro hbodies r after h
  rw [bind_apply] at h
  split at h
  · cases h
  · next a mid hmid =>
    obtain ⟨hbodies', hrel⟩ := hx hbodies hmid
    obtain ⟨hafter, hrel'⟩ := hf a mid hbodies' h
    exact ⟨hafter, C.trans hrel hrel'⟩
  · next e mid hmid =>
    cases h
    exact hx hbodies hmid

/-- The state that is looked at is the one there is. -/
theorem look {f : Env → Eval α} (h : env.BodiesHave C.allows → Upholds C (f env) env) :
    Upholds C (Eval.env >>= f) env :=
  fun hbodies _ _ hend => h hbodies hbodies hend

/-- Leaving the scope of a call counts as a step of its own. -/
theorem inCall {function : String} {body : Eval α} (h : Upholds C body { env with active := some function }) :
    Upholds C (inCall function body) env := by
  intro hbodies r after hend
  unfold Eval.inCall at hend
  split at hend
  · cases hend
  · next result last hbody =>
    cases hend
    obtain ⟨hlast, hrel⟩ := h hbodies hbody
    exact ⟨hlast, C.leave hrel⟩

theorem enter (function : String) (bindings : List (String × Float)) :
    Upholds C (update (·.enter function bindings)) env := by
  intro hbodies r after h
  cases h
  exact ⟨hbodies.of_sameFunctions (.enter function bindings), C.enter env function bindings⟩

/-- The move of an allowed term. A definition that is made has a body that is part of the term. -/
theorem move {term : Term} (hterm : C.allows term) (begun : Env) (values more : List Float) :
    Upholds C (Eval.move begun env values more term).run env := by
  intro hbodies r after h
  have hmakes := Move.makes_of_run h
  refine ⟨hmakes.bodiesHave hbodies fun d hd => ?_, C.move hterm hmakes⟩
  rw [eq_define_of_move begun env values more hd] at hterm
  exact C.part hterm (by simp [Term.parts])

section Terms

variable {ev : Term → Eval Float}

/-- The terms of a list are evaluated one behind the other, each in whatever state the others have left. -/
theorem each {terms : List Term} (h : ∀ t ∈ terms, ∀ env, Upholds C (ev t) env) : Upholds C (each ev terms) env := by
  induction terms generalizing env with
  | nil => exact pure []
  | cons term rest ih =>
      obtain ⟨hterm, hrest⟩ := List.forall_mem_cons.mp h
      exact (hterm env).bind fun value _ => (ih hrest).bind fun values _ => pure _

/-- By induction on the number of rounds. -/
theorem repeatWhile {condition body : Eval Float} (hcondition : ∀ env, Upholds C condition env)
    (hbody : ∀ env, Upholds C body env) (n : Nat) (last : Float) :
    Upholds C (repeatWhile condition body n last) env := by
  induction n generalizing env last with
  | zero => exact outOfFuel
  | succ n ih =>
      refine (hcondition env).bind fun value mid => ?_
      split
      · exact (hbody mid).bind fun _ _ => ih _
      · exact pure last

/-- What is evaluated next may be in another scope, but its terms are asked the same. -/
theorem sequel_run {sequel : Sequel} (h : ∀ t ∈ sequel.terms, ∀ env, Upholds C (ev t) env) :
    Upholds C (sequel.run ev) env := by
  obtain ⟨terms, _ | ⟨function, bindings⟩⟩ := sequel
  · exact each h
  · exact (enter function bindings).bind fun _ _ => inCall (each h)

/-- One term: what it evaluates is allowed, and so is its own move. -/
theorem inOrder {term : Term} (hterm : C.allows term) (hev : ∀ t, C.allows t → ∀ env, Upholds C (ev t) env) :
    Upholds C (inOrder ev term) env := by
  have hpart : ∀ t, (∃ part ∈ term.exposedParts, Term.Exposed t part) → ∀ env, Upholds C (ev t) env := by
    rintro t ⟨part, hpart, ht⟩
    exact hev t (C.within hterm (Term.Exposed.part hpart ht).within)
  refine look fun hbegun => ?_
  refine (each fun t ht => hpart t (exposed_of_opening ht)).bind fun values now => look fun _ => ?_
  have hsequel : ∀ t ∈ (sequel env now values term).terms, ∀ env, Upholds C (ev t) env := by
    intro t ht
    rcases sequel_cases env now values term with ⟨terms, heq, hparts⟩ | ⟨function, args, frame, rfl, hget, heq⟩
    · rw [heq] at ht
      exact hpart t ⟨t, hparts t ht, .refl⟩
    · rw [heq] at ht
      rw [List.mem_singleton.mp ht]
      exact hev _ (hbegun function frame hget)
  exact (sequel_run hsequel).bind fun more last => look fun _ => move hterm env values more

end Terms

end Upholds

/-- **Runs keep to a contract that moves keep to.** -/
theorem eval_upholds (C : Contract) (fuel : Nat) {term : Term} (h : C.allows term) (env : Env) :
    Upholds C (eval fuel term) env := by
  induction fuel generalizing term env with
  | zero => exact .outOfFuel
  | succ n ih =>
      rcases loop_or_inOrder term with ⟨condition, body, rfl⟩ | ⟨-, hstep⟩
      · have hcondition : C.allows condition := C.part h (by simp [Term.parts])
        have hbody : C.allows body := C.part h (by simp [Term.parts])
        exact .repeatWhile (ih hcondition) (ih hbody) n 0
      · rw [hstep]
        exact .inOrder h fun t ht => ih ht

end Eval
end Abacus
