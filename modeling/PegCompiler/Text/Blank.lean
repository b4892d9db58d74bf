import PegCompiler.Text.Scalar

/-!
# Blanks

The characters with the property `White_Space`, and the removal of those at the ends of a text.
-/

namespace PegCompiler.Text

/-- The ranges of `White_Space`. -/
def whiteSpace : List (Nat × Nat) :=
  [(0x9, 0xd), (0x20, 0x20), (0x85, 0x85), (0xa0, 0xa0), (0x1680, 0x1680), (0x2000, 0x200a),
   (0x2028, 0x2029), (0x202f, 0x202f), (0x205f, 0x205f), (0x3000, 0x3000)]

def isBlank (c : Char) : Bool :=
  inRanges whiteSpace c

def trimEnd (s : String) : String :=
  String.ofList (s.toList.reverse.dropWhile isBlank).reverse

/-- The text `s` without the blanks at its ends. -/
def trim (s : String) : String :=
  trimEnd (String.ofList (s.toList.dropWhile isBlank))

end PegCompiler.Text
