import LazyTensor.Text.CharSet

/-!
# White space

The characters with the Unicode property *White_Space*, and the removal of white space from both
ends of a text. The zero width space is not among them.
-/

namespace LazyTensor.Text

/-- The white space characters. -/
def blanks : CharSet := ⟨[(0x9, 0xD), (0x20, 0x20), (0x85, 0x85), (0xA0, 0xA0), (0x1680, 0x1680),
  (0x2000, 0x200A), (0x2028, 0x2029), (0x202F, 0x202F), (0x205F, 0x205F), (0x3000, 0x3000)]⟩

/-- Whether a character is white space. -/
def isBlank (c : Char) : Bool := blanks.contains c

/-- The characters without the white space at both ends. -/
def trimChars (cs : List Char) : List Char :=
  ((cs.dropWhile isBlank).reverse.dropWhile isBlank).reverse

/-- The text without the white space at both ends. -/
def trim (s : String) : String := String.ofList (trimChars s.toList)

end LazyTensor.Text
