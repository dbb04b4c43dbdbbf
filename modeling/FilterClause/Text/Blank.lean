/-!
# Blank characters

The characters with the White_Space property: what may stand around the numbers of a date.
-/

namespace FilterClause.Text

/-- A character that is white space, in the sense of the Unicode property. -/
def isBlank (c : Char) : Bool :=
  let code := c.toNat
  decide ((9 ≤ code ∧ code ≤ 13) ∨ code = 0x20 ∨ code = 0x85 ∨ code = 0xA0 ∨ code = 0x1680 ∨
    (0x2000 ≤ code ∧ code ≤ 0x200A) ∨ code = 0x2028 ∨ code = 0x2029 ∨ code = 0x202F ∨
    code = 0x205F ∨ code = 0x3000)

/-- The text from its first character that is not blank. -/
def skipBlanks (s : List Char) : List Char := s.dropWhile isBlank

end FilterClause.Text
