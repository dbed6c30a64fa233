import Abacus.Eval.Basic
import Abacus.Eval.Builtin
import Abacus.Eval.Operation
import Abacus.Term.Render

/-!
# `Eval.Term` — the meaning of terms

Every term has a value; statements without a value of their own give `0`. A `return` gives its value but
does not leave its block.

The meaning of a term refers to that of other terms only through the argument `eval` of `step`, so the
recursion is in one place: `eval (n + 1)` is `step` around `eval n`. Terms inside terms, calls and rounds of
loops all spend fuel.

There are places that no check in front of them should let an evaluation come to. What is done there is an argument of
`evalWith`; in `eval` it is a failure.

## Contents
- `Recheck`, `Arms` — places that are left open;
- `each`, `sequence`, `optional` — several terms;
- `readName`, `assign`, `print` — names;
- `readElement`, `writeElement`, `lookup`, `store` — elements;
- `binary` — operators;
- `callUser`, `callBuiltin`, `call` — functions;
- `step`, `evalWith`, `eval` — all terms.
-/

namespace Abacus
namespace Eval

/-! ## Places that are left open -/

/-- What is done where something that was found before is looked up again and is gone. -/
structure Recheck where
  /-- The array of that name is gone. -/
  array : String → Eval Float
  /-- The function of that name is gone. -/
  function : String → Eval Float

/-- Fails as the first check does. -/
def Recheck.failing : Recheck where
  array name := fail (.notAnArray name)
  function name := fail (.unknownFunction name)

/-- What is done in all places that are left open. -/
structure Arms extends Recheck where
  /-- The operator has no meaning where it stands. -/
  operator : Operator → Except RuntimeError Float
  /-- The place that was found in an array is out of range. -/
  beyond : Eval Float

/-- Operators are complained about, and places out of range are out of bounds. -/
def Recheck.arms (again : Recheck) : Arms where
  toRecheck := again
  operator := complain
  beyond := fail .outOfBounds

/-- Fails in every place. -/
def Arms.failing : Arms := Recheck.failing.arms

/-! ## Several terms -/

/-- The values of terms, from left to right. -/
def each (eval : Term → Eval Float) : List Term → Eval (List Float)
  | [] => return []
  | term :: rest => do
    let value ← eval term
    return value :: (← each eval rest)

/-- The value of the last of several terms, and `last` if there is none. -/
def sequence (eval : Term → Eval Float) : Float → List Term → Eval Float
  | last, [] => return last
  | _, term :: rest => do
    let value ← eval term
    sequence eval value rest

/-- The value of a term that may be missing. -/
def optional (eval : Term → Eval Float) : Option Term → Eval Float
  | none => return 0
  | some term => eval term

/-! ## Names -/

/-- The name that reads as zero when nothing is bound to it. -/
def nullName : String := "null"

/-- Reads a name. A function that is not called reads as zero. -/
def readName (name : String) : Eval Float := do
  let env ← env
  match env.scalar? name with
  | some value => return value
  | none =>
    if name = nullName || env.functions.contains name then
      return 0
    else
      fail (.unknownIdentifier name)

/-- The array that a term names. -/
def namedArray? (env : Env) : Term → Option Elements
  | .var name => env.wholeArray? name
  | _ => none

/-- Binds a name to a number. -/
def assignScalar (eval : Term → Eval Float) (name : String) (value : Term) : Eval Float := do
  let result ← eval value
  update (·.setScalar name result)
  return result

/-- Binds a name to what `value` gives. An array literal and the bare name of an array bind an array. -/
def assign (eval : Term → Eval Float) (name : String) (value : Term) : Eval Float := do
  match value with
  | .array elements =>
    let values ← each eval elements
    update (·.bindArray name values.toArray)
    return 0
  | value =>
    match namedArray? (← env) value with
    | some elements =>
      update (·.bindArray name elements)
      return 0
    | none => assignScalar eval name value

/-- How a value is shown: as a truth value if its term is boolean-shaped, otherwise as a number. -/
def valueText (term : Term) (value : Float) : String :=
  if term.isBooleanShaped then truthText (Number.isTruthy value) else Number.text value

/-- Prints a value, or all elements of a named array. -/
def print (eval : Term → Eval Float) (term : Term) : Eval Float := do
  match namedArray? (← env) term with
  | some elements =>
    write elements.text
    return 0
  | none =>
    let value ← eval term
    write (valueText term value)
    return value

/-! ## Elements -/

/-- The element at `index`. -/
def readElement (beyond : Eval Float) (elements : Elements) (index : Float) : Eval Float := do
  let i ← lift (Elements.position index elements.size)
  if h : i < elements.size then return elements[i] else beyond

/-- Sets the element at `index` of the named array, which has the given elements. -/
def writeElement (beyond : Eval Float) (name : String) (elements : Elements) (index value : Float) :
    Eval Float := do
  let i ← lift (Elements.position index elements.size)
  if h : i < elements.size then
    update (·.bindArray name (elements.set i value))
    return value
  else
    beyond

/-- Reads an element. A number counts as an array of one element. -/
def lookup (arms : Arms) (eval : Term → Eval Float) (name : String) (index : Term) : Eval Float := do
  let index ← eval index
  let env ← env
  match env.array? name with
  | some elements => readElement arms.beyond elements index
  | none =>
    match env.scalar? name with
    | some value => readElement arms.beyond #[value] index
    | none => fail (.notAnArray name)

/-- Writes an element. The index has to fit before the value is known, and still has to fit then. -/
def store (arms : Arms) (eval : Term → Eval Float) (name : String) (index value : Term) :
    Eval Float := do
  if !(← env).arrays.contains name then
    fail (.notAnArray name)
  else
    let index ← eval index
    let _ ← lift (Elements.position index (((← env).array? name).getD #[]).size)
    let result ← eval value
    -- Evaluating the value may have shortened the array.
    match (← env).array? name with
    | none => arms.array name
    | some elements => writeElement arms.beyond name elements index result

/-! ## Operators -/

/-- Applies an operator to two terms, the left one first. -/
def binary (eval : Term → Eval Float) (op : Operator) (left right : Term)
    (other : Operator → Except RuntimeError Float := complain) : Eval Float := do
  let x ← eval left
  let y ← eval right
  lift (operate op left.isBoolean right.isBoolean x y other)

/-! ## Functions -/

/-- Calls a registered function. The arguments are evaluated in the scope of the caller. -/
def callUser (again : Recheck) (eval : Term → Eval Float) (name : String) (args : List Term) :
    Eval Float := do
  match (← env).functions.get? name with
  | none => again.function name
  | some { definition, .. } =>
    if args.length ≠ definition.params.length then
      fail (.argumentCount name definition.params.length args.length)
    else
      let values ← each eval args
      -- Nothing is written to the function's table before all arguments are known.
      update (·.enter name (definition.params.zip values))
      inCall name (eval definition.body)

/-- Calls a function that needs no definition. Its first argument has to name an array. -/
def callBuiltin (again : Recheck) (eval : Term → Eval Float) (builtin : Builtin) (args : List Term) :
    Eval Float := do
  if args.length ≠ builtin.arity then
    fail (.argumentCount builtin.name builtin.arity args.length)
  else
    match args with
    | .var name :: rest =>
      if !(← env).arrays.contains name then
        fail (.notAnArray name)
      else
        let values ← each eval rest
        -- The other arguments may have changed the array, so it is read only now.
        match (← env).array? name with
        | none => again.array name
        | some elements =>
          let (result, elements) ← lift (builtin.apply elements values)
          update (·.bindArray name elements)
          return result
    | term :: _ => fail (.notAnArray term.render)
    | [] => fail (.argumentCount builtin.name builtin.arity 0)

/-- Calls a function; a registered one comes first. -/
def call (again : Recheck) (eval : Term → Eval Float) (name : String) (args : List Term) :
    Eval Float := do
  if (← env).functions.contains name then
    callUser again eval name args
  else
    match Builtin.ofName? name with
    | some builtin => callBuiltin again eval builtin args
    | none => fail (.unknownFunction name)

/-! ## All terms -/

/-- The meaning of a term, given that of other terms; loops make at most `n` rounds. -/
def step (arms : Arms) (n : Nat) (eval : Term → Eval Float) : Term → Eval Float
  | .number value => return value
  | .boolean value => return Number.ofTruth value
  | .var name => readName name
  | .assign name value => assign eval name value
  | .binary op left right => binary eval op left right arms.operator
  | .block statements => sequence eval 0 statements
  | .braced body => eval body
  | .ifElse condition body otherwise => do
    if Number.isTruthy (← eval condition) then eval body else optional eval otherwise
  | .elseClause (some nested) _ => eval nested
  | .elseClause none block => optional eval block
  | .whileLoop condition body => repeatWhile (eval condition) (eval body) n 0
  | .print value => print eval value
  | .define name params body => do
    update (·.define { name, params, body })
    return 0
  | .giveBack value => optional eval value
  | .call name args => call arms.toRecheck eval name args
  | .array elements => do
    let _ ← each eval elements
    return 0
  | .lookup name index => lookup arms eval name index
  | .store name index value => store arms eval name index value

/-- The value of a term, within the given fuel and with `arms` in the places that are left open. -/
def evalWith (arms : Arms) : Nat → Term → Eval Float
  | 0, _ => outOfFuel
  | n + 1, term => step arms n (evalWith arms n) term

end Eval

/-- The value of a term, within the given fuel. -/
def eval : Nat → Term → Eval Float := Eval.evalWith .failing

end Abacus
