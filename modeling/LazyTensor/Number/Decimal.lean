import LazyTensor.Number.FloatWord

/-!
# Decimal text of floating point words

Two ways to choose digits: the fewest that read back as the same word (`FloatWord.shortest`), or a
given number of significant digits of the exact value (`Decimal.significant`). Both are written in
the general form: positional for moderate exponents, with an exponent mark otherwise.
-/

namespace LazyTensor

/-- The decimal number `digits * 10 ^ exponent`. -/
structure Decimal where
  digits : Nat
  exponent : Int
deriving DecidableEq

/-- The number of decimal digits of a positive number. -/
def digitCount (n : Nat) : Nat := (Nat.toDigits 10 n).length

/-- The greatest `k` with `10 ^ k ≤ n / d`, for positive `n` and `d`. -/
def ratioLog10 (n d : Nat) : Int :=
  if d ≤ n then (digitCount (n / d) : Int) - 1 else -(digitCount ((d - 1) / n) : Int)

namespace FloatWord

variable {f : FloatFormat}

/-- The word nearest to a decimal number with the given sign. -/
def ofDecimal (negative : Bool) (x : Decimal) : FloatWord f :=
  if 0 ≤ x.exponent then ofRatio negative (x.digits * pow10 x.exponent.toNat) 1 0
  else ofRatio negative x.digits (pow10 (-x.exponent).toNat) 0

end FloatWord

namespace Decimal

/-- The ratio `n / d` in units of `10 ^ place`, as a ratio. -/
def scale (n d : Nat) (place : Int) : Nat × Nat :=
  (n * pow10 (-place).toNat, d * pow10 place.toNat)

/-- The `count` significant digits of the positive ratio `n / d`, rounded to nearest and on a tie to
even. -/
def significant (count n d : Nat) : Decimal :=
  let place := ratioLog10 n d - count + 1
  let (n, d) := scale n d place
  ⟨nearestEven n d, place⟩

/-- Of the two decimals with `count` digits next to the ratio `n / d`, the nearest one that passes the
test. -/
def nextTo? (test : Decimal → Bool) (n d count : Nat) : Option Decimal :=
  let place := ratioLog10 n d - count + 1
  let (n, d) := scale n d place
  let below := n / d
  let near := nearestEven n d
  let far := if near = below then below + 1 else below
  if test ⟨near, place⟩ then some ⟨near, place⟩
  else if test ⟨far, place⟩ then some ⟨far, place⟩
  else none

/-- The digits without the zeros at the end. -/
def trimZeros (cs : List Char) : List Char := (cs.reverse.dropWhile (· == '0')).reverse

/-- The digits of the number as characters, without zeros at the end. -/
def digitChars (x : Decimal) : List Char := trimZeros (Nat.toDigits 10 x.digits)

/-- The exponent of ten of the first digit. -/
def leadingExponent (x : Decimal) : Int := x.exponent + digitCount x.digits - 1

/-- Digits with a point after the first `n`, which are zeros as needed. -/
def positional (digits : List Char) (n : Int) : List Char :=
  if n ≤ 0 then '0' :: '.' :: List.replicate (-n).toNat '0' ++ digits
  else if digits.length ≤ n.toNat then digits ++ List.replicate (n.toNat - digits.length) '0'
  else digits.take n.toNat ++ '.' :: digits.drop n.toNat

/-- Digits with a point after the first one and an exponent of at least two digits. -/
def scientific (digits : List Char) (exponent : Int) : List Char :=
  let mark := if exponent < 0 then ['e', '-'] else ['e', '+']
  let power := Nat.toDigits 10 exponent.natAbs
  let padded := if power.length < 2 then '0' :: power else power
  digits.take 1 ++ (if digits.length ≤ 1 then [] else '.' :: digits.drop 1) ++ mark ++ padded

/-- The general form: positional if the first digit has an exponent from `-4` to below `limit`. -/
def general (limit : Int) (x : Decimal) : List Char :=
  let e := x.leadingExponent
  if e < -4 ∨ limit ≤ e then scientific x.digitChars e else positional x.digitChars (e + 1)

end Decimal

namespace FloatWord

variable {f : FloatFormat}

/-- The exact value of a finite word as a ratio. -/
def ratio (mantissa : Nat) (exponent : Int) : Nat × Nat :=
  (mantissa <<< exponent.toNat, 1 <<< (-exponent).toNat)

/-- The decimal with the fewest digits that reads back as the word with this significand, and of these
the nearest. Seventeen digits are enough for every format of at most 64 bits. -/
def shortest (f : FloatFormat) (mantissa : Nat) (exponent : Int) : Decimal :=
  let (n, d) := ratio mantissa exponent
  let word : FloatWord f := ofRatio false n d 0
  let readsBack (x : Decimal) : Bool := (ofDecimal false x : FloatWord f) == word
  ((List.range 17).findSome? fun k => Decimal.nextTo? readsBack n d (k + 1)).getD
    (Decimal.significant 17 n d)

/-- A text for words that are numbers other than zero, extended to zeros, infinities and NaNs. -/
def textWith (number : Nat → Int → List Char) (x : FloatWord f) : String :=
  match x.datum with
  | .nan => "NaN"
  | .infinite s => if s then "-Inf" else "+Inf"
  | .finite s m e =>
    String.ofList ((if s then ['-'] else []) ++ if m = 0 then ['0'] else number m e)

/-- The shortest text: an exponent is written from a million on. -/
def text (x : FloatWord f) : String :=
  x.textWith fun m e => (shortest f m e).general 6

/-- More digits than any word of at most 64 bits has. -/
def allDigits : Nat := 1100

/-- The text with a number of significant digits, at least one. An exponent is written when the digits
do not reach the point. -/
def textWithDigits (count : Nat) (x : FloatWord f) : String :=
  let count := Nat.max count 1
  x.textWith fun m e =>
    let (n, d) := ratio m e
    (Decimal.significant (Nat.min count allDigits) n d).general count

end FloatWord

end LazyTensor
