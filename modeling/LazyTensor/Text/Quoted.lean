import LazyTensor.Text.Printable

/-!
# Quoted text

A text between double quotes on one line, with backslash escapes: the usual one-letter escapes,
`\\xNN` for other control characters below U+0080 and for bytes that belong to no character,
`\\uNNNN` and `\\UNNNNNNNN` for the other characters that are not printable.
-/

namespace LazyTensor.Text

/-- The last `width` lower case hexadecimal digits of a number. -/
def hexDigits : (width : Nat) → (n : Nat) → List Char
  | 0, _ => []
  | width + 1, n => hexDigits width (n / 16) ++ [Nat.digitChar (n % 16)]

/-- The number as `width` lower case hexadecimal digits. -/
def hex (width n : Nat) : String := String.ofList (hexDigits width n)

/-- The characters that stand for `c` between the quotes. -/
def escapeChar (c : Char) : List Char :=
  if c = '"' then ['\\', '"']
  else if c = '\\' then ['\\', '\\']
  else if isPrintable c then [c]
  else if c.toNat = 7 then ['\\', 'a']
  else if c.toNat = 8 then ['\\', 'b']
  else if c.toNat = 12 then ['\\', 'f']
  else if c.toNat = 10 then ['\\', 'n']
  else if c.toNat = 13 then ['\\', 'r']
  else if c.toNat = 9 then ['\\', 't']
  else if c.toNat = 11 then ['\\', 'v']
  else if c.toNat < 0x80 then '\\' :: 'x' :: hexDigits 2 c.toNat
  else if c.toNat < 0x10000 then '\\' :: 'u' :: hexDigits 4 c.toNat
  else '\\' :: 'U' :: hexDigits 8 c.toNat

/-- The quoted form of a text followed by bytes that are not part of any character. -/
def quoteWithBytes (s : String) (stray : List UInt8) : String :=
  String.ofList ('"' :: s.toList.flatMap escapeChar ++
    stray.flatMap (fun b => '\\' :: 'x' :: hexDigits 2 b.toNat) ++ ['"'])

/-- The quoted form of a text. -/
def quote (s : String) : String := quoteWithBytes s []

end LazyTensor.Text
