/-!
# Blank characters

The characters of the Unicode property `White_Space`, and text without the
blanks around it.
-/

namespace FormulaGraph.Text

/-- Whether the character has the Unicode property `White_Space`. -/
def isBlank (c : Char) : Bool :=
  let n := c.toNat
  (0x9 ≤ n && n ≤ 0xD) || n == 0x20 || n == 0x85 || n == 0xA0 || n == 0x1680 ||
    (0x2000 ≤ n && n ≤ 0x200A) || n == 0x2028 || n == 0x2029 || n == 0x202F ||
    n == 0x205F || n == 0x3000

/-- The text without the blanks at its start and end. -/
def trim (s : String) : String :=
  let cs := (s.toList.dropWhile isBlank).reverse.dropWhile isBlank
  String.ofList cs.reverse

/-- The parts between commas, without the blanks around them, empty ones left
out. -/
def commaSeparated (s : String) : List String :=
  ((s.splitOn ",").map trim).filter fun part => part != ""

end FormulaGraph.Text
