import Abacus.Env
import Abacus.Number.Truth

/-!
# `Eval.Basic` — actions on the state of a program

An `Eval` action turns a state into a value or a failure **and** the state behind it: what happened before a
failure stays. It gives `none` when its fuel ends first, so a program that never ends is told apart from
one that fails.

## Contents
- `Eval`, `pure`, `bind` — actions and their sequence;
- `fail`, `lift`, `outOfFuel` — the ways to stop;
- `env`, `update`, `write`, `inCall` — the state;
- `repeatWhile` — loops.
-/

namespace Abacus

/-- An action on the state of a program that gives an `α` or a failure. -/
def Eval (α : Type) : Type := Env → Option (Except RuntimeError α × Env)

namespace Eval

variable {α β : Type}

/-! ## Sequencing -/

/-- Gives `a` and changes nothing. -/
@[always_inline, inline]
protected def pure (a : α) : Eval α := fun env => some (.ok a, env)

/-- Does `x` and then what `f` makes of its value; a failure of `x` ends both. -/
@[always_inline, inline]
protected def bind (x : Eval α) (f : α → Eval β) : Eval β := fun env =>
  match x env with
  | none => none
  | some (.ok a, env) => f a env
  | some (.error e, env) => some (.error e, env)

instance : Monad Eval where
  pure := Eval.pure
  bind := Eval.bind

/-! ## Stopping -/

/-- Does not end within its fuel. -/
def outOfFuel : Eval α := fun _ => none

/-- Fails. -/
def fail (error : RuntimeError) : Eval α := fun env => some (.error error, env)

/-- Gives the value or the failure of a calculation. -/
def lift (result : Except RuntimeError α) : Eval α := fun env => some (result, env)

/-! ## The state -/

/-- The state. -/
def env : Eval Env := fun env => some (.ok env, env)

/-- Changes the state. -/
def update (change : Env → Env) : Eval Unit := fun env => some (.ok (), change env)

/-- Prints a line. -/
def write (line : String) : Eval Unit := fun env =>
  match env.sink.write line with
  | .ok sink => some (.ok (), { env with sink })
  | .error reason => some (.error (.output reason), env)

/-- Does `body` as a call of `function`. The scope of the caller returns afterwards, also behind a
failure. -/
def inCall (function : String) (body : Eval α) : Eval α := fun env =>
  match body { env with active := some function } with
  | none => none
  | some (result, after) => some (result, { after with active := env.active })

/-! ## Loops -/

/-- Does `body` as long as `condition` holds, at most `n` times. The value is that of the last round, and
`last` if there is none. -/
def repeatWhile (condition body : Eval Float) : Nat → Float → Eval Float
  | 0, _ => outOfFuel
  | n + 1, last => do
    if Number.isTruthy (← condition) then
      let value ← body
      repeatWhile condition body n value
    else
      return last

end Eval
end Abacus
