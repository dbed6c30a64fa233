import Abacus.Elements

/-!
# `Eval.Builtin` — the functions on arrays that need no definition

Each takes the name of an array first. What it does to the elements is a function on them.
-/

namespace Abacus

/-- A function that is always there, unless a definition of the same name hides it. -/
inductive Builtin where
  /-- The number of elements. -/
  | len
  /-- Appends an element. -/
  | push
  /-- Takes the last element away. -/
  | pop
deriving DecidableEq, Repr

namespace Builtin

/-- The name it is called by. -/
def name : Builtin → String
  | len => "len"
  | push => "push"
  | pop => "pop"

/-- How many arguments it takes, the array included. -/
def arity : Builtin → Nat
  | len => 1
  | push => 2
  | pop => 1

/-- The function called `name`. -/
def ofName? (name : String) : Option Builtin := [len, push, pop].find? (·.name = name)

/-- What it makes of an array and its other arguments: a value and the new elements. -/
def apply (elements : Elements) (args : List Float) : Builtin → Except RuntimeError (Float × Elements)
  | len => .ok (Number.ofNat elements.size, elements)
  | push => .ok (0, args.foldl Array.push elements)
  | pop =>
    match elements.back? with
    | some last => .ok (last, elements.pop)
    | none => .error .underflow

end Builtin
end Abacus
