import BytePair.Text.CodeRuns

/-!
# White space

The characters with the property `White_Space` of Unicode.
-/

namespace BytePair.Text

def blanks : CodeRuns :=
  [(0x9, 0xD), (0x20, 0x20), (0x85, 0x85), (0xA0, 0xA0), (0x1680, 0x1680), (0x2000, 0x200A),
    (0x2028, 0x2029), (0x202F, 0x202F), (0x205F, 0x205F), (0x3000, 0x3000)]

def isBlank (c : Char) : Bool := blanks.holds c.toNat

/-- A text without the white space at its ends. -/
def trimBlank (cs : List Char) : List Char :=
  ((cs.dropWhile isBlank).reverse.dropWhile isBlank).reverse

end BytePair.Text
