/-!
# `Position` — places in a source text

Lines and columns count from one. A line break starts a new line; every other character, whatever its
width in bytes, is one column.
-/

namespace Abacus

/-- A place in a source text. -/
structure Position where
  line : Nat
  column : Nat
deriving DecidableEq, Repr, Inhabited

namespace Position

/-- The place of the first character. -/
def start : Position := ⟨1, 1⟩

/-- The place behind the character `c`. -/
def step (pos : Position) (c : Char) : Position :=
  if c = '\n' then ⟨pos.line + 1, 1⟩ else ⟨pos.line, pos.column + 1⟩

/-- The place behind a run of characters. -/
def advance (pos : Position) (chars : List Char) : Position := chars.foldl step pos

@[simp] theorem advance_nil (pos : Position) : pos.advance [] = pos := rfl

@[simp] theorem advance_cons (pos : Position) (c : Char) (cs : List Char) :
    pos.advance (c :: cs) = (pos.step c).advance cs := rfl

/-- Passing two runs is passing one and then the other. -/
theorem advance_append (pos : Position) (cs ds : List Char) :
    pos.advance (cs ++ ds) = (pos.advance cs).advance ds := by
  simp [advance, List.foldl_append]

end Position
end Abacus
