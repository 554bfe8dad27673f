/-!
# Blank text

Which characters count as white space. The table is the Unicode property `White_Space`; it is wider
than the four characters of `Char.isWhitespace`.

An identifier made of such characters only is as good as empty, a metadata string made of them
only stands for no metadata, and a lenient date may be padded with them.
-/

namespace ChatMemory.Text

/-- The code points with the property `White_Space`, as inclusive ranges. -/
def blankRanges : List (Nat × Nat) :=
  [(0x0009, 0x000D), (0x0020, 0x0020), (0x0085, 0x0085), (0x00A0, 0x00A0), (0x1680, 0x1680),
   (0x2000, 0x200A), (0x2028, 0x2029), (0x202F, 0x202F), (0x205F, 0x205F), (0x3000, 0x3000)]

/-- A character is blank when one of the ranges holds it. -/
def isBlank (c : Char) : Bool :=
  blankRanges.any fun r => r.1 ≤ c.toNat && c.toNat ≤ r.2

/-- A text without any visible character; the empty text is one. -/
def allBlank (text : String) : Bool := text.toList.all isBlank

/-- What follows the leading blanks. -/
def dropBlanks (cs : List Char) : List Char := cs.dropWhile isBlank

example : (blankRanges.map fun r => r.2 - r.1 + 1).sum = 25 := by decide

end ChatMemory.Text
