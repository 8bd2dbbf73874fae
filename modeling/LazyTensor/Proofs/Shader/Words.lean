import LazyTensor.Element.Arithmetic
import LazyTensor.Proofs.Number
import LazyTensor.Proofs.Shader.Semantics

/-!
# Elements as words of the device

The host computes with the values of integers and takes the results modulo `2 ^ 32`, and the device computes with
the words themselves. Both agree on each operation that the device has for elements of 32 bits.
-/

namespace LazyTensor

namespace IntWord

variable {f : IntFormat}

theorem bits_neg (x : IntWord f) : x.neg.bits = -x.bits := by
  rw [neg, ofInt, BitVec.ofInt_neg, ofInt_value]

theorem bits_add (x y : IntWord f) : (x.add y).bits = x.bits + y.bits := by
  rw [add, ofInt, BitVec.ofInt_add, ofInt_value, ofInt_value]

theorem bits_sub (x y : IntWord f) : (x.sub y).bits = x.bits - y.bits := by
  rw [sub, ofInt, Int.sub_eq_add_neg, BitVec.ofInt_add, BitVec.ofInt_neg, ofInt_value, ofInt_value,
    BitVec.sub_eq_add_neg]

theorem bits_mul (x y : IntWord f) : (x.mul y).bits = x.bits * y.bits := by
  rw [mul, ofInt, BitVec.ofInt_mul, ofInt_value, ofInt_value]

/-- Only the quotient of the least word by `-1` is not that of the values: it is the least word again. -/
theorem bits_div? {x y z : IntWord f} (h : x.div? y = some z) :
    y.bits ≠ 0 ∧ z.bits = if f.signed then x.bits.sdiv y.bits else x.bits / y.bits := by
  unfold div? at h
  split at h
  · cases h
  · rename_i hy
    obtain rfl := Option.some.inj h
    constructor
    · intro hzero
      simp [value, hzero] at hy
    · unfold value ofInt
      split
      · apply BitVec.eq_of_toInt_eq
        rw [BitVec.toInt_ofInt, BitVec.toInt_sdiv]
      · rw [← Int.ofNat_tdiv, BitVec.ofInt_natCast, BitVec.udiv_def]

theorem bits_abs {width : Nat} (x : IntWord ⟨width, true⟩) : x.abs.bits = x.bits.abs := by
  have hvalue : x.value = x.bits.toInt := rfl
  rw [BitVec.abs_eq, BitVec.msb_eq_toInt, abs, hvalue]
  by_cases h : x.bits.toInt < 0
  · simp [h, bits_neg]
  · simp [h]

end IntWord

namespace Shader

/-- The integer type of 32 bits, with or without sign. -/
def wordType (signed : Bool) : ScalarType := if signed then .i32 else .u32

/-- The word of the type with the bits. -/
def Word.ofBits (signed : Bool) (bits : BitVec 32) : Word :=
  if signed then .i32 (.ofBitVec bits) else .u32 (.ofBitVec bits)

/-- An element of 32 bits as a word. -/
def Word.ofElement {signed : Bool} (x : IntWord ⟨32, signed⟩) : Word := .ofBits signed x.bits

variable {signed : Bool} {x y z : IntWord ⟨32, signed⟩}

theorem type_ofElement (x : IntWord ⟨32, signed⟩) : (Word.ofElement x).type = wordType signed := by
  cases signed <;> rfl

theorem ofLiteral?_zero : Word.ofLiteral? (wordType signed) 0 = some (.ofElement (.zero : IntWord ⟨32, signed⟩)) := by
  cases signed <;> rfl

theorem convert?_ofElement (x : IntWord ⟨32, signed⟩) :
    Word.convert? (wordType signed) (.ofElement x) = some (.ofElement x) := by
  cases signed <;> rfl

theorem neg?_ofElement (x : IntWord ⟨32, true⟩) : (Word.ofElement x).neg? = some (.ofElement x.neg) := by
  rw [Word.ofElement, Word.ofElement, IntWord.bits_neg]
  rfl

theorem abs_ofElement (x : IntWord ⟨32, true⟩) : Function.abs.apply? (.ofElement x) = some (.ofElement x.abs) := by
  rw [Word.ofElement, Word.ofElement, IntWord.bits_abs]
  rfl

theorem add_ofElement (x y : IntWord ⟨32, signed⟩) :
    Operator.add.apply? (.ofElement x) (.ofElement y) = some (.ofElement (x.add y)) := by
  rw [Word.ofElement, Word.ofElement, Word.ofElement, IntWord.bits_add]
  cases signed <;> rfl

theorem sub_ofElement (x y : IntWord ⟨32, signed⟩) :
    Operator.sub.apply? (.ofElement x) (.ofElement y) = some (.ofElement (x.sub y)) := by
  rw [Word.ofElement, Word.ofElement, Word.ofElement, IntWord.bits_sub]
  cases signed <;> rfl

theorem mul_ofElement (x y : IntWord ⟨32, signed⟩) :
    Operator.mul.apply? (.ofElement x) (.ofElement y) = some (.ofElement (x.mul y)) := by
  rw [Word.ofElement, Word.ofElement, Word.ofElement, IntWord.bits_mul]
  cases signed <;> rfl

theorem div_ofElement (h : x.div? y = some z) :
    Operator.div.apply? (.ofElement x) (.ofElement y) = some (.ofElement z) := by
  obtain ⟨hy, hz⟩ := IntWord.bits_div? h
  rw [Word.ofElement, Word.ofElement, Word.ofElement, hz]
  cases signed with
  | true =>
    have hzero : ¬Int32.ofBitVec y.bits = 0 := fun hzero => hy (congrArg Int32.toBitVec hzero)
    simp [Word.ofBits, Operator.apply?, hzero]
  | false =>
    have hzero : ¬UInt32.ofBitVec y.bits = 0 := fun hzero => hy (congrArg UInt32.toBitVec hzero)
    simp [Word.ofBits, Operator.apply?, hzero]

theorem lt_iff_signed {x y : IntWord ⟨32, true⟩} : Int32.ofBitVec x.bits < Int32.ofBitVec y.bits ↔ x.value < y.value :=
  Int32.lt_iff_toInt_lt

theorem lt_iff_unsigned {x y : IntWord ⟨32, false⟩} :
    UInt32.ofBitVec x.bits < UInt32.ofBitVec y.bits ↔ x.value < y.value := by
  rw [UInt32.lt_iff_toNat_lt]
  simp [IntWord.value]

theorem max_ofElement (x y : IntWord ⟨32, signed⟩) :
    Function₂.max.apply? (.ofElement x) (.ofElement y) = some (.ofElement (x.max y)) := by
  cases signed <;> by_cases h : x.value < y.value <;>
    simp [Word.ofElement, Word.ofBits, Function₂.apply?, IntWord.max, lt_iff_signed, lt_iff_unsigned, h]

theorem min_ofElement (x y : IntWord ⟨32, signed⟩) :
    Function₂.min.apply? (.ofElement x) (.ofElement y) = some (.ofElement (x.min y)) := by
  cases signed <;> by_cases h : y.value < x.value <;>
    simp [Word.ofElement, Word.ofBits, Function₂.apply?, IntWord.min, lt_iff_signed, lt_iff_unsigned, h]

end Shader

end LazyTensor
