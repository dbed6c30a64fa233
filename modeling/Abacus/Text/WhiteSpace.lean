/-!
# `Text.WhiteSpace` — characters that leave a line blank

The characters with the Unicode property `White_Space`: 25 code points.
-/

namespace Abacus

/-- The first and last code points of each run of white space. -/
def whiteSpaceRanges : List (Nat × Nat) :=
  [(0x09, 0x0d), (0x20, 0x20), (0x85, 0x85), (0xa0, 0xa0), (0x1680, 0x1680), (0x2000, 0x200a),
    (0x2028, 0x2029), (0x202f, 0x202f), (0x205f, 0x205f), (0x3000, 0x3000)]

/-- Tells whether `c` is white space. -/
def isWhiteSpace (c : Char) : Bool :=
  whiteSpaceRanges.any fun range => range.1 ≤ c.toNat && c.toNat ≤ range.2

/-- Tells whether a text is empty or only white space. -/
def isBlankText (text : String) : Bool := text.toList.all isWhiteSpace

end Abacus
