import Abacus.Elements
import Abacus.Table
import Abacus.Term

/-!
# `Env` — what a running program has in store

Numbers live in the table of globals or in the table of a function. Each function has **one** table for all
its calls: it is filled with a copy of the globals when the function is registered, and again whenever its
definition is evaluated. While a call runs, only the called function's table is in scope. Arrays are global.

## Contents
- `Sink`, `Frame`, `Env` — the parts of the state;
- `scope`, `scalar?`, `setScalar` — numbers in scope;
- `array?`, `wholeArray?`, `bindArray` — arrays;
- `register`, `define`, `enter` — functions.
-/

namespace Abacus

/-- Where printed lines go. -/
inductive Sink where
  /-- Keeps the lines, the oldest first. -/
  | accepting (lines : Array String)
  /-- Refuses every line for a reason. -/
  | refusing (reason : String)
deriving DecidableEq, Repr, Inhabited

namespace Sink

/-- The lines that were accepted. -/
def lines : Sink → Array String
  | accepting lines => lines
  | refusing _ => #[]

/-- Writes a line, or gives the reason why it is refused. -/
def write (line : String) : Sink → Except String Sink
  | accepting lines => .ok (accepting (lines.push line))
  | refusing reason => .error reason

end Sink

/-- A registered function. -/
structure Frame where
  definition : Definition
  /-- Parameters and other local numbers, shared by all calls. -/
  locals : Table Float
  /-- Whether the function has been called. -/
  called : Bool
deriving Inhabited

/-- The state of a running program. -/
structure Env where
  globals : Table Float
  arrays : Table Elements
  functions : Table Frame
  /-- The function whose call is running, if any. -/
  active : Option String
  sink : Sink
deriving Inhabited

namespace Env

/-- The state of a program that has not begun. -/
def ofSink (sink : Sink) : Env :=
  { globals := ∅, arrays := ∅, functions := ∅, active := none, sink }

/-- A fresh state that keeps what is printed. -/
def empty : Env := ofSink (.accepting #[])

/-! ## Numbers -/

/-- The function whose call is running, with its name. -/
def running? (env : Env) : Option (String × Frame) :=
  match env.active with
  | none => none
  | some name => (env.functions.get? name).map (name, ·)

/-- The numbers in scope. -/
def scope (env : Env) : Table Float :=
  match env.running? with
  | some (_, frame) => frame.locals
  | none => env.globals

/-- The number that `name` has in scope. -/
def scalar? (env : Env) (name : String) : Option Float := env.scope.get? name

/-- Binds a number in scope. -/
def setScalar (env : Env) (name : String) (value : Float) : Env :=
  match env.running? with
  | some (function, frame) =>
    let frame := { frame with locals := frame.locals.insert name value }
    { env with functions := env.functions.insert function frame }
  | none => { env with globals := env.globals.insert name value }

/-! ## Arrays -/

/-- The array called `name`. -/
def array? (env : Env) (name : String) : Option Elements := env.arrays.get? name

/-- Binds an array, in place of any other array of that name. -/
def bindArray (env : Env) (name : String) (elements : Elements) : Env :=
  { env with arrays := env.arrays.insert name elements }

/-- The array that a bare `name` stands for; a number in scope hides it. -/
def wholeArray? (env : Env) (name : String) : Option Elements :=
  match env.scalar? name with
  | some _ => none
  | none => env.array? name

/-! ## Functions -/

/-- Registers a function, in place of any other of that name. -/
def register (env : Env) (definition : Definition) : Env :=
  let frame := { definition, locals := env.globals, called := false }
  { env with functions := env.functions.insert definition.name frame }

/-- Registers functions in order. -/
def registerAll (env : Env) (definitions : List Definition) : Env := definitions.foldl register env

/-- Evaluates a definition: a registered function gets a new copy of the globals, and keeps the body it
was registered with. -/
def define (env : Env) (definition : Definition) : Env :=
  match env.functions.get? definition.name with
  | some frame =>
    let frame := { frame with locals := env.globals }
    { env with functions := env.functions.insert definition.name frame }
  | none => env.register definition

/-- Marks a function as called and writes its arguments into its table. -/
def enter (env : Env) (function : String) (bindings : List (String × Float)) : Env :=
  let change (frame : Frame) : Frame :=
    { frame with locals := frame.locals.insertAll bindings, called := true }
  { env with functions := env.functions.modify function change }

end Env
end Abacus
