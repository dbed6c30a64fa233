/-!
# `Text.Lines` — texts and their lines

A line ends with a line feed, or with a carriage return and a line feed. A text that ends with a line break
has no further, empty line.
-/

namespace Abacus

/-- The lines of a text, without their line breaks. -/
def splitLines : List Char → List (List Char)
  | [] => []
  | '\n' :: rest => [] :: splitLines rest
  | '\r' :: '\n' :: rest => [] :: splitLines rest
  | c :: rest =>
    match splitLines rest with
    | [] => [[c]]
    | line :: lines => (c :: line) :: lines

/-- The lines of a text, without their line breaks. -/
def linesOf (text : String) : List String := (splitLines text.toList).map .ofList

/-- Lines as one text, each with a line feed behind it. -/
def linesText (lines : List String) : String := .join (lines.map (· ++ "\n"))

/-- `text` with spaces in front of it, at least `width` characters wide. -/
def padLeft (width : Nat) (text : String) : String :=
  .ofList (List.replicate (width - text.length) ' ') ++ text

end Abacus
