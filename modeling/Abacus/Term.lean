import Abacus.Operator

/-!
# `Term` — programs as trees

One tree type covers expressions and statements. Reading a program builds only some of its trees (see the
statement rules), but every tree has a text and a meaning.

## Contents
- `Term`, `Definition` — the trees and the functions they define;
- `isBoolean`, `isBooleanShaped` — trees that stand for truth values.
-/

namespace Abacus

/-- A statement or an expression. -/
inductive Term where
  /-- A numeric literal. -/
  | number (value : Float)
  /-- `true` or `false`. -/
  | boolean (value : Bool)
  /-- A variable, or the bare name of an array or a function. -/
  | var (name : String)
  /-- `name = value` -/
  | assign (name : String) (value : Term)
  /-- `left op right` -/
  | binary (op : Operator) (left right : Term)
  /-- Statements in order. -/
  | block (statements : List Term)
  /-- A block between braces. -/
  | braced (body : Term)
  /-- `if condition body`, with an optional `else`. -/
  | ifElse (condition body : Term) (otherwise : Option Term)
  /-- `else`, followed by another `if` or by a block. -/
  | elseClause (nested block : Option Term)
  /-- `while condition body` -/
  | whileLoop (condition body : Term)
  /-- `print value` -/
  | print (value : Term)
  /-- `def name(params) body` -/
  | define (name : String) (params : List String) (body : Term)
  /-- `return`, with an optional value. -/
  | giveBack (value : Option Term)
  /-- `name(args)` -/
  | call (name : String) (args : List Term)
  /-- `[elements]` -/
  | array (elements : List Term)
  /-- `name[index]` -/
  | lookup (name : String) (index : Term)
  /-- `name[index] = value` -/
  | store (name : String) (index value : Term)
deriving Repr, Inhabited

/-- A function as it was written. -/
structure Definition where
  name : String
  params : List String
  body : Term
deriving Repr, Inhabited

namespace Term

/-- Tells whether a term is a boolean literal. -/
def isBoolean : Term → Bool
  | boolean _ => true
  | _ => false

/-- Tells whether a term gives a truth value: a boolean literal, a comparison, a logical operation, or an
assignment of one. Such values are shown as `true` and `false`. -/
def isBooleanShaped : Term → Bool
  | boolean _ => true
  | binary op _ _ => op.givesTruth
  | assign _ value => value.isBooleanShaped
  | _ => false

end Term
end Abacus
