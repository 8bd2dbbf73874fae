import LazyTensor.Failure
import LazyTensor.Number.Decimal
import LazyTensor.Number.Logarithm
import LazyTensor.Text.Blank
import LazyTensor.Text.Digit
import LazyTensor.Text.LowerCase
import LazyTensor.Text.Quoted

/-!
# Byte sizes

Sizes in bytes are written with binary units, `1.5 KiB`, and read with decimal or binary units,
`512MiB` or `2GB`.
-/

namespace LazyTensor.ByteSize

/-- The binary units, each 1024 times the one before. -/
def units : List String := ["B", "KiB", "MiB", "GiB", "TiB", "PiB", "EiB"]

/-- The unit of a size of at least ten bytes: the whole part of its logarithm to base 1024, in double
precision. -/
def unitOf (n : UInt64) : Nat :=
  let x : Double := .ofInt n.toNat
  ((Double.log x).div (Double.log (.ofInt 1024))).datum.wholePart

/-- The size in tenths of a unit, rounded in double precision. -/
def tenths (n : UInt64) (unit : Nat) : Nat :=
  let x : Double := .ofInt n.toNat
  let scaled := x.div (.ofInt (Nat.pow 1024 unit))
  ((scaled.mul (.ofInt 10)).add (.ofRatio false 1 2 0)).datum.wholePart

/-- The size with a unit. Below ten units there is one digit after the point. -/
def text (n : UInt64) : String :=
  if n < 10 then s!"{n.toNat} B"
  else
    let unit := unitOf n
    let t := tenths n unit
    let number := if t < 100 then s!"{t / 10}.{t % 10}" else toString (nearestEven t 10)
    number ++ " " ++ units.getD unit ""

inductive Error where
  /-- The number is none. `stray` are the bytes after the last whole character. -/
  | notNumber (number : String) (stray : List UInt8)
  | outOfRange (number : String)
  | unit (name : String)
  | tooLarge (text : String)

def Error.reason : Error → String
  | .notNumber number stray =>
    s!"strconv.ParseFloat: parsing {Text.quoteWithBytes number stray}: invalid syntax"
  | .outOfRange number => s!"strconv.ParseFloat: parsing {Text.quote number}: value out of range"
  | .unit name => s!"unhandled size name: {name}"
  | .tooLarge text => s!"too large: {text}"

/-- The bytes in a unit of a size to be read. -/
def unitBytes (name : String) : Option Nat :=
  let decimal := ["", "k", "m", "g", "t", "p", "e"]
  if name = "" ∨ name = "b" then some 1
  else
    (List.range 7).tail.findSome? fun i =>
      let letter := decimal.getD i ""
      if name = letter ∨ name = letter ++ "b" then some (Nat.pow 1000 i)
      else if name = letter ++ "i" ∨ name = letter ++ "ib" then some (Nat.pow 1024 i)
      else none

/-- Whether a character can be part of the number of a size. -/
def isNumberChar (c : Char) : Bool := Text.isDecimalDigit c || c == '.' || c == ','

/-- The characters that lie within the first `n` bytes, the bytes of the one that is cut, and the
characters after those. -/
def takeBytes : Nat → List Char → List Char × List UInt8 × List Char
  | _, [] => ([], [], [])
  | n, c :: cs =>
    if n = 0 then ([], [], c :: cs)
    else if c.utf8Size ≤ n then
      let (whole, stray, rest) := takeBytes (n - c.utf8Size) cs
      (c :: whole, stray, rest)
    else ([], (String.utf8EncodeChar c).take n, c :: cs)

/-- The value of a text of digits with at most one point among them. -/
def decimal? (cs : List Char) : Option Decimal :=
  let whole := cs.takeWhile (· != '.')
  let fraction := (cs.dropWhile (· != '.')).drop 1
  let digits := whole ++ fraction
  if digits.isEmpty || digits.any (!·.isDigit) then none
  else some ⟨digits.foldl (fun n c => 10 * n + (c.toNat - '0'.toNat)) 0, -(fraction.length : Int)⟩

/-- The bytes of a size: a number, in which commas are skipped, and a unit. The number is as many bytes
as there are number characters at the front. -/
def parse (s : String) : Except Error UInt64 := do
  let cs := s.toList
  let (whole, stray, rest) := takeBytes (cs.takeWhile isNumberChar).length cs
  let number := whole.filter (· != ',')
  let some decimal := decimal? number | throw (.notNumber (String.ofList number) stray)
  if !stray.isEmpty then throw (.notNumber (String.ofList number) stray)
  let x : Double := .ofDecimal false decimal
  if x.isInfinite then throw (.outOfRange (String.ofList number))
  let name := Text.lower (Text.trim (String.ofList rest))
  let some bytes := unitBytes name | throw (.unit name)
  let n := Datum.saturate 0 (pow2 64) (x.mul (.ofInt bytes)).datum
  if pow2 64 ≤ n then throw (.tooLarge s)
  return UInt64.ofNat n.toNat

end LazyTensor.ByteSize
