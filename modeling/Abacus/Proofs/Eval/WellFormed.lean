import Abacus.Proofs.Eval.Following

/-!
# `Eval.WellFormed` — evaluation keeps the state well formed

A state is well scoped when the function whose call is running is registered. Evaluation takes such a state to
another one in which nothing has been lost, **whether it ends with a value or with a failure**, and it does not
rely on any of the precautions the evaluator takes against a broken state:

- numbers are looked up among the globals only if no call is running;
- a function that is about to be called is found;
- an array that an element is written to, or that is handed to a builtin, is still there after the rest of the
  operands has been evaluated.

To say that a branch is never taken, `evalWatched` leaves open what happens in it: something arbitrary takes the
place of the branch, and the evaluation ends as before.
-/

namespace Abacus

/-! ## Scopes -/

/-- The function whose call is running, if any, is registered. -/
def Env.WellScoped (env : Env) : Prop :=
  ∀ name, env.active = some name → env.functions.contains name = true

/-- Tells whether a call is running and the globals are in scope all the same. -/
def Env.fallsBack (env : Env) : Bool := env.active.isSome && env.running?.isNone

namespace Env

variable {env after : Env}

theorem WellScoped.of_keeps (h : env.WellScoped) (hkeeps : env.Keeps after) : after.WellScoped := by
  intro name hactive
  rw [hkeeps.active] at hactive
  exact hkeeps.registered (h name hactive)

theorem WellScoped.fallsBack_eq (h : env.WellScoped) : env.fallsBack = false := by
  unfold fallsBack running?
  cases hactive : env.active with
  | none => rfl
  | some name =>
      obtain ⟨frame, hget⟩ := Table.contains_iff.mp (h name hactive)
      simp [hget]

/-- While a call is running, a state that does not fall back has the table of the function in scope. -/
theorem scope_eq_locals {name : String} (hactive : env.active = some name)
    (h : env.fallsBack = false) :
    ∃ frame, env.functions.get? name = some frame ∧ env.scope = frame.locals := by
  cases hget : env.functions.get? name with
  | none => simp [fallsBack, running?, hactive, hget] at h
  | some frame => exact ⟨frame, rfl, by simp [scope, running?, hactive, hget]⟩

end Env

namespace Eval

variable {α : Type}

/-! ## Watched evaluation -/

/-- Does `x`, but `other` if `x` begins or ends in a state that falls back to the globals.

A term looks numbers up in the state in which its evaluation begins, or in which that of a part has just ended,
and nowhere else. -/
def watch (other x : Eval α) : Eval α := fun env =>
  if env.fallsBack then other env
  else
    match x env with
    | none => none
    | some (result, after) => if after.fallsBack then other after else some (result, after)

/-- Evaluation with every term watched, and with `again` where a second check fails. -/
def evalWatched (again : Recheck) (other : Eval Float) : Nat → Term → Eval Float
  | 0, _ => outOfFuel
  | n + 1, term => watch other (step again.arms n (evalWatched again other n) term)

/-- From a well-scoped state that stays well scoped, watching changes nothing. -/
theorem watch_apply {other x : Eval α} {env after : Env} {r : Except RuntimeError α}
    (h : x env = some (r, after)) (henv : env.WellScoped) (hafter : after.WellScoped) :
    watch other x env = some (r, after) := by
  simp [watch, h, henv.fallsBack_eq, hafter.fallsBack_eq]

/-- The law that nothing is lost, for any term in the states that satisfy `P`. -/
def keepsLaw (P : Env → Prop) (hstays : ∀ {a b : Env}, P a → a.Keeps b → P b)
    (hbody : ∀ {a b : Env} {name : String} {frame : Frame}, a.functions.get? name = some frame →
      a.Keeps b → P { b with active := some name }) : Law where
  allows _ := P
  rel := Env.Keeps
  keeps h := h
  refl := .refl
  trans := .trans
  stays := hstays
  part h _ := h
  body bindings _ hget hrel := hbody hget (hrel.trans (.enter _ bindings))
  setScalar result _ := .setScalar _ result
  bindArray _ := .bindArray
  define _ := .define _
  enter _ := .enter
  write _ := .write
  leave _ := .leave

/-- The scope of a call is that of a registered function: nothing was lost since it was found. -/
theorem wellScoped_of_call {a b : Env} {name : String} {frame : Frame}
    (hget : a.functions.get? name = some frame) (hkeeps : a.Keeps b) :
    { b with active := some name }.WellScoped := by
  intro name' hactive
  cases hactive
  exact hkeeps.registered (Table.contains_iff.mpr ⟨frame, hget⟩)

/-- The law of well-scoped states. -/
def scopeLaw : Law := keepsLaw Env.WellScoped .of_keeps wellScoped_of_call

/-- Watched evaluation follows evaluation. -/
theorem eval_follows_evalWatched (again : Recheck) (other : Eval Float) (fuel : Nat) :
    ∀ {term : Term} {base : Env}, base.WellScoped →
      Follows scopeLaw base (eval fuel term) (evalWatched again other fuel term) := by
  induction fuel with
  | zero => intro term base _; exact .outOfFuel
  | succ n ih =>
      intro term base hbase env henv r env' h
      have hscoped : env.WellScoped := hbase.of_keeps henv
      have hstep : Follows scopeLaw base (step .failing n (eval n) term)
          (step again.arms n (evalWatched again other n) term) :=
        step_follows (L := scopeLaw) (fun {_ _} => ih) _ _ (Nat.le_refl n) hbase
      obtain ⟨hsame, hkeeps⟩ := hstep henv h
      exact ⟨watch_apply hsame hscoped (hscoped.of_keeps hkeeps), hkeeps⟩

/-- **Evaluation keeps the state well formed.** From a well-scoped state, an evaluation that ends, with a value
or with a failure, leaves the scope as it was and everything bound that was bound; functions keep their
definitions, and those that were called still count as called. It ends the same whatever is done in the branches
that guard against a broken state, so none of them is ever taken. -/
theorem eval_keeps_wellFormed {env after : Env} {fuel : Nat} {term : Term}
    {r : Except RuntimeError Float} (henv : env.WellScoped)
    (h : eval fuel term env = some (r, after)) :
    env.Keeps after ∧
      ∀ again other, evalWatched again other fuel term env = some (r, after) := by
  constructor
  · exact (eval_follows_evalWatched .failing outOfFuel fuel henv (.refl env) h).2
  · intro again other
    exact (eval_follows_evalWatched again other fuel henv (.refl env) h).1

/-- A call from inside `g` that fails on a name nothing is bound to. -/
theorem eval_keeps_wellFormed_failing_call :
    let env := { (Env.empty.register ⟨"f", ["a"], .var "y"⟩).register ⟨"g", [], .boolean true⟩ with
      active := some "g" }
    ∃ after, eval 2 (.call "f" [.boolean true]) env = some (.error (.unknownIdentifier "y"), after) ∧
      env.Keeps after ∧ ∀ again other,
        evalWatched again other 2 (.call "f" [.boolean true]) env =
          some (.error (.unknownIdentifier "y"), after) := by
  intro env
  have hscoped : env.WellScoped := by
    intro name hactive
    cases hactive
    rfl
  exact ⟨_, rfl, eval_keeps_wellFormed hscoped rfl⟩

end Eval
end Abacus
