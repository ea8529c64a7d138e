/-!
# Blank characters

The characters that separate words: those with the property `White_Space`, and the two marks that
set the direction of writing.
-/

set_option autoImplicit false

namespace DerivativeParsing.Text

/-- White space of any script, or a mark for the direction of writing. -/
def isBlank (c : Char) : Bool :=
  let n := c.toNat
  (0x9 ≤ n && n ≤ 0xd) || n = 0x20 || n = 0x85 || n = 0xa0 || n = 0x1680 ||
    (0x2000 ≤ n && n ≤ 0x200a) || n = 0x200e || n = 0x200f || n = 0x2028 || n = 0x2029 ||
    n = 0x202f || n = 0x205f || n = 0x3000

end DerivativeParsing.Text
