import LazyTensor.Number.Polynomial

/-!
# Sine and cosine

An angle is reduced to a number of quarter turns and a rest of at most an eighth of a turn, for which
sine and cosine are polynomials. Below `2 ^ 29` the quarter turns are subtracted in three parts; above,
the angle is multiplied with as many bits of `4 / π` as bear on the result.
-/

namespace LazyTensor.Double

/-- An angle as quarter turns, modulo four, and a rest. -/
structure Quadrant where
  turns : Nat
  rest : Double

/-- An eighth of a turn, `π / 4`. -/
def eighthTurn : Double := ⟨0x3FE921FB54442D18⟩

/-- An eighth of a turn as the sum of three words, of which the first two have so few bits that their
products with a number of eighths are exact. -/
def eighthTurnParts : List Double := [⟨0x3FE921FB40000000⟩, ⟨0x3E64442D00000000⟩, ⟨0x3CE8469898CC5170⟩]

/-- Eighths of a turn per unit, `4 / π`. -/
def eighthsPerUnit : Double := ⟨0x3FF45F306DC9C883⟩

/-- The number `4 / π` in 64 bits before the point and 1216 bits after it, in digits of 64 bits. -/
def eighthsPerUnitDigits : List Nat :=
  [0x0000000000000001, 0x45F306DC9C882A53, 0xF84EAFA3EA69BB81, 0xB6C52B3278872083,
   0xFCA2C757BD778AC3, 0x6E48DC74849BA5C0, 0x0C925DD413A32439, 0xFC3BD63962534E7D,
   0xD1046BEA5D768909, 0xD338E04D68BEFC82, 0x7323AC7306A673E9, 0x3908BF177BF25076,
   0x3FF12FFFBC0B301F, 0xDE5E2316B414DA3E, 0xDA6CFD9E4F96136E, 0x9E8C7ECD3CBFD45A,
   0xEA4F758FD7CBE2F6, 0x7A0E73EF14A525D4, 0xD7F6BF623F1ABA10, 0xAC06608DF8F6D757]

/-- The number `4 / π` times `2 ^ 1216`. -/
def eighthsPerUnitScaled : Nat := eighthsPerUnitDigits.foldl (fun n digit => n * pow2 64 + digit) 0

/-- From here on the bits of `4 / π` are used. -/
def largeAngle : Double := .ofInt (pow2 29)

namespace Quadrant

/-- A positive angle below `largeAngle`. -/
def ofSmall (x : Double) : Quadrant :=
  let turns := ((x.mul eighthsPerUnit).datum.wholePart + 1) / 2
  let eighths : Double := .ofInt (2 * turns : Nat)
  ⟨turns % 4, eighthTurnParts.foldl (fun rest part => rest.sub (eighths.mul part)) x⟩

/-- The product of a large finite angle and `4 / π`, modulo eight, times `2 ^ 125`. The bits of `4 / π`
above the window only add multiples of eight, and those below it are too small to count. -/
def eighths (x : Double) : Nat :=
  let weight := FloatFormat.double.exponentWeight
  let window := (eighthsPerUnitScaled >>> (2102 - x.magnitude / weight)) % pow2 192
  ((window * (weight + x.magnitude % weight)) >>> 64) % pow2 128

/-- The fraction below the three leading bits of a product of 128 bits, as a word. It is given by its 64
leading bits; where they start with zeros, the places that become free are filled from the lower half
of the product. -/
def fraction (product : Nat) : Double :=
  let lead := (product >>> 61) % pow2 64
  let low := product % pow2 64
  let zeros := 63 - lead.log2
  let significand := (lead <<< (zeros + 1)) % pow2 64 + low >>> (63 - zeros)
  .ofDatum (.finite false (pow2 52 + significand >>> 12) (-53 - (zeros : Int)))

/-- A finite angle from `largeAngle` on. -/
def ofLarge (x : Double) : Quadrant :=
  let product := eighths x
  let count := product >>> 125
  let rest := fraction product
  let rest := if count % 2 = 1 then rest.sub (.ofInt 1) else rest
  ⟨(count + 1) / 2 % 4, rest.mul eighthTurn⟩

/-- The quadrant of a finite angle that is not negative. -/
def ofAngle (x : Double) : Quadrant := if x.lt largeAngle then ofSmall x else ofLarge x

end Quadrant

/-- The coefficients of the sine, from the thirteenth power to the third. -/
def sineCoefficients : List Double :=
  [⟨0x3DE5D8FD1FD19CCD⟩, ⟨0xBE5AE5E5A9291F5D⟩, ⟨0x3EC71DE3567D48A1⟩, ⟨0xBF2A01A019BFDF03⟩,
   ⟨0x3F8111111110F7D0⟩, ⟨0xBFC5555555555548⟩]

/-- The coefficients of the cosine, from the fourteenth power to the fourth. -/
def cosineCoefficients : List Double :=
  [⟨0xBDA8FA49A0861A9B⟩, ⟨0x3E21EE9D7B4E3F05⟩, ⟨0xBE927E4F7EAC4BC6⟩, ⟨0x3EFA01A019C844F5⟩,
   ⟨0xBF56C16C16C14F91⟩, ⟨0x3FA555555555554B⟩]

/-- The sine of at most an eighth of a turn. -/
def sineRest (x : Double) : Double :=
  let square := x.mul x
  x.add ((x.mul square).mul (square.horner sineCoefficients))

/-- The cosine of at most an eighth of a turn. -/
def cosineRest (x : Double) : Double :=
  let square := x.mul x
  (FloatWord.sub (.ofInt 1) (square.scale (-1))).add
    ((square.mul square).mul (square.horner cosineCoefficients))

def sin (x : Double) : Double :=
  if x.isNaN || x.isZero then x
  else if x.isInfinite then .nan
  else
    let q := Quadrant.ofAngle (.ofMagnitude false x.magnitude)
    let y := if q.turns % 2 = 1 then cosineRest q.rest else sineRest q.rest
    if x.negative != decide (2 ≤ q.turns) then y.neg else y

def cos (x : Double) : Double :=
  if x.isNaN || x.isInfinite then .nan
  else
    let q := Quadrant.ofAngle (.ofMagnitude false x.magnitude)
    let y := if q.turns % 2 = 1 then sineRest q.rest else cosineRest q.rest
    if q.turns = 1 ∨ q.turns = 2 then y.neg else y

end LazyTensor.Double
