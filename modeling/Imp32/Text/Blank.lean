import Imp32.Text.RangeTable

/-!
# Blank characters

The characters that separate words: the ASCII controls from tab to carriage return, the four
information separators, the space, and the space, line and paragraph separators beyond ASCII.
-/

namespace Imp32.Text

def blankTable : RangeTable :=
  [(0x09, 0x0D), (0x1C, 0x20), (0x85, 0x85), (0xA0, 0xA0), (0x1680, 0x1680), (0x2000, 0x200A),
    (0x2028, 0x2029), (0x202F, 0x202F), (0x205F, 0x205F), (0x3000, 0x3000)]

/-- A character that only separates. -/
def isBlank (c : Char) : Bool :=
  blankTable.contains c

end Imp32.Text
