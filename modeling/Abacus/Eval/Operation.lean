import Abacus.Error
import Abacus.Number.Integer
import Abacus.Number.Truth

/-!
# `Eval.Operation` — operators applied to numbers

Each family of operators is a function on numbers. These functions are total on operators: outside its family
`comparison` gives falsehood, and `arithmetic` and `logic` do what they are told to do with any `other` operator. Unless
something else is said, that is to complain about it.
-/

namespace Abacus

/-- The failure of an operator that has no meaning where it stands. -/
def complain (op : Operator) : Except RuntimeError Float := .error (.invalidOperator op)

/-- Applies an arithmetic operator. Dividing by zero fails, whatever the dividend. -/
def arithmetic (op : Operator) (x y : Float) (other : Operator → Except RuntimeError Float := complain) :
    Except RuntimeError Float :=
  match op with
  | .add => .ok (x + y)
  | .sub => .ok (x - y)
  | .mul => .ok (x * y)
  | .div => if y == 0 then .error .divisionByZero else .ok (x / y)
  | .rem => if y == 0 then .error .divisionByZero else .ok (Number.remainder x y)
  | op => other op

/-- Tells whether a comparison holds. NaN only differs. -/
def holds (op : Operator) (x y : Float) : Bool :=
  match op with
  | .lt => x < y
  | .gt => y < x
  | .le => x ≤ y
  | .ge => y ≤ x
  | .eq => x == y
  | .ne => x != y
  | _ => false

/-- Applies a comparison. -/
def comparison (op : Operator) (x y : Float) : Float := Number.ofTruth (holds op x y)

/-- Applies a logical operator. Both operands have to be zero or one; their whole parts are combined bit by bit. -/
def logic (op : Operator) (x y : Float) (other : Operator → Except RuntimeError Float := complain) :
    Except RuntimeError Float :=
  if !Number.isTruth x || !Number.isTruth y then .error .invalidOperandType
  else
    let a := Number.truncate x
    let b := Number.truncate y
    match op with
    | .and => .ok (Number.ofInt (Number.bitwise (· &&& ·) a b))
    | .xor => .ok (Number.ofInt (Number.bitwise (· ^^^ ·) a b))
    | .or => .ok (Number.ofInt (Number.bitwise (· ||| ·) a b))
    | op => other op

/-- Applies any operator. `left` and `right` tell whether an operand was written as a boolean literal:
arithmetic takes none, and a comparison takes two or none. -/
def operate (op : Operator) (left right : Bool) (x y : Float)
    (other : Operator → Except RuntimeError Float := complain) : Except RuntimeError Float :=
  match op.family with
  | .arithmetic => if left || right then .error .invalidOperandType else arithmetic op x y other
  | .comparison => if left != right then .error .invalidOperandType else .ok (comparison op x y)
  | .logical => logic op x y other
  | .unknown => other op

end Abacus
