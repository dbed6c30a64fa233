import Abacus.Command.Arguments

/-!
# `Main` — the command line program

Reads the script, asks for the response and prints it.
-/

namespace Abacus

/-- More steps than any run can take. -/
def unlimited : Nat := Number.twoTo 62

/-- Everything a stream holds. -/
def readBytes (stream : IO.FS.Stream) : IO ByteArray := do
  let mut bytes := ByteArray.empty
  repeat
    let chunk ← stream.read 65536
    if chunk.isEmpty then
      break
    bytes := bytes ++ chunk
  return bytes

/-- The bytes of the script that the arguments name. -/
def readScript (args : Command.Arguments) : IO ByteArray := do
  match args.source with
  | some source => if args.file then IO.FS.readBinFile source else return source.toUTF8
  | none => readBytes (← IO.getStdin)

end Abacus

open Abacus in
/-- Answers the command line. -/
def main (words : List String) : IO UInt32 := do
  let some args := Command.Arguments.read words
    | IO.eprintln "usage: abacus [-m run|calc|parse|lex] [-f] [--] [SOURCE]"
      return 2
  match ← (readScript args).toBaseIO with
  | .error error =>
    IO.eprintln s!"Failed to read the input: {error}"
    return 1
  | .ok bytes =>
    match Command.respondToBytes unlimited args.mode bytes with
    | some response =>
      IO.print response.output
      return response.exitCode.toUInt32
    | none => return 1
