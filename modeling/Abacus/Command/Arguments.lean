import Abacus.Command

/-!
# `Command.Arguments` — the arguments of the command line

    abacus [-m MODE | --mode MODE] [-f | --file] [--] [SOURCE]

`SOURCE` is the script itself, or with `--file` the path of one. Without it the script is read from standard
input. Behind `--` everything is `SOURCE`.
-/

namespace Abacus
namespace Command

/-- What the command line asks for. -/
structure Arguments where
  mode : Mode := .run
  /-- Whether the source is a path. -/
  file : Bool := false
  source : Option String := none
deriving DecidableEq, Repr, Inhabited

namespace Arguments

/-- The mode called `name`. -/
def mode? (name : String) : Option Mode :=
  if name = "run" then some .run
  else if name = "calc" then some .calc
  else if name = "parse" then some .parse
  else if name = "lex" then some .lex
  else none

/-- Chooses the mode called `name`. -/
def setMode (args : Arguments) (name : String) : Option Arguments :=
  (mode? name).map fun mode => { args with mode }

/-- Adds a source; there can be only one. -/
def addSource (args : Arguments) (source : String) : Option Arguments :=
  if args.source.isNone then some { args with source := some source } else none

/-- Reads arguments on top of those read so far. -/
def readOnto (args : Arguments) : List String → Option Arguments
  | [] => some args
  | ["--"] => some args
  | ["--", source] => args.addSource source
  | "-f" :: rest => readOnto { args with file := true } rest
  | "--file" :: rest => readOnto { args with file := true } rest
  | "-m" :: name :: rest => do readOnto (← args.setMode name) rest
  | "--mode" :: name :: rest => do readOnto (← args.setMode name) rest
  | word :: rest => do
    match word.splitOn "=" with
    | ["--mode", name] => readOnto (← args.setMode name) rest
    | _ => if word.startsWith "-" then none else readOnto (← args.addSource word) rest

/-- Reads the arguments of the command line. -/
def read (words : List String) : Option Arguments := readOnto {} words

end Arguments
end Command
end Abacus
