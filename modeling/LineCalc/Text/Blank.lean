/-!
# White space

The characters with the Unicode property `White_Space`, and texts made of them.
This class is wider than the blanks that separate tokens: it decides which lines
are skipped and what is cut from the end of a line typed at a terminal.
-/

namespace LineCalc.Text

/-- The ranges of code points with the property `White_Space`. -/
def whiteSpace : List (Nat × Nat) :=
  [(0x09, 0x0D), (0x20, 0x20), (0x85, 0x85), (0xA0, 0xA0), (0x1680, 0x1680),
   (0x2000, 0x200A), (0x2028, 0x2029), (0x202F, 0x202F), (0x205F, 0x205F),
   (0x3000, 0x3000)]

/-- Whether a character is white space. -/
def isWhite (c : Char) : Bool :=
  whiteSpace.any fun range => decide (range.1 ≤ c.toNat) && decide (c.toNat ≤ range.2)

/-- Whether a text is empty or made of white space only. -/
def isBlank (text : String) : Bool := text.toList.all isWhite

/-- A text without the white space at its end. -/
def trimEnd (text : String) : String :=
  .ofList (text.toList.reverse.dropWhile isWhite).reverse

end LineCalc.Text
