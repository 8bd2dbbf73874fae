import LazyTensor.Element.Scalar
import Mathlib.Data.Int.ModEq
import Mathlib.Data.Rat.Floor
import Mathlib.Tactic.FieldSimp
import Mathlib.Tactic.Push

/-!
# Integer words as residues

A word of an integer format stands for its value modulo `2 ^ width`, so sums and products of words are congruent to
those of the values. A double becomes a word by truncation toward zero and by clamping: `clamped` says so with rational
numbers, and the conversion agrees with it.
-/

namespace LazyTensor

/-! ## Words -/

namespace IntWord

variable {f : IntFormat}

theorem ofInt_value (x : IntWord f) : BitVec.ofInt f.width x.value = x.bits := by
  unfold value
  split <;> simp

theorem value_ofInt (n : Int) : (ofInt n : IntWord f).value ≡ n [ZMOD 2 ^ f.width] := by
  have hpow : (2 ^ f.width : Int) = ((2 ^ f.width : Nat) : Int) := by simp
  unfold value ofInt
  rw [Int.ModEq, hpow]
  split
  · rw [BitVec.toInt_ofInt, Int.bmod_emod]
  · rw [BitVec.toNat_ofInt, Int.toNat_of_nonneg (Int.emod_nonneg n (by positivity)), Int.emod_emod]

theorem value_zero : (zero : IntWord f).value = 0 := by
  unfold value zero
  split <;> simp

theorem value_add (x y : IntWord f) : (x.add y).value ≡ x.value + y.value [ZMOD 2 ^ f.width] := value_ofInt _

theorem value_mul (x y : IntWord f) : (x.mul y).value ≡ x.value * y.value [ZMOD 2 ^ f.width] := value_ofInt _

theorem eq_of_modEq {x y : IntWord f} (h : x.value ≡ y.value [ZMOD 2 ^ f.width]) : x = y := by
  have hbits : x.bits = y.bits := by
    rw [← ofInt_value, ← ofInt_value]
    apply BitVec.eq_of_toInt_eq
    rw [BitVec.toInt_ofInt, BitVec.toInt_ofInt, ← Int.emod_bmod, ← Int.emod_bmod y.value]
    have hmod : x.value % ((2 ^ f.width : Nat) : Int) = y.value % ((2 ^ f.width : Nat) : Int) := by
      simpa [Int.ModEq] using h
    rw [hmod]
  exact congrArg IntWord.mk hbits

end IntWord

/-! ## Clamped numbers -/

/-- The whole number next to a number toward zero. -/
def truncated (q : ℚ) : Int := if 0 ≤ q then ⌊q⌋ else ⌈q⌉

/-- A double truncated toward zero and clamped to the values of a format. NaN gives zero. -/
def clamped (f : IntFormat) (x : Double) : Int :=
  match x.datum with
  | .nan => 0
  | .infinite negative => if negative then f.least else f.greatest
  | .finite negative m e => max f.least (min f.greatest (truncated ((if negative then -1 else 1) * (m * 2 ^ e))))

private theorem floor_shift (m : Nat) (e : Int) :
    ((if 0 ≤ e then m <<< e.toNat else m >>> (-e).toNat : Nat) : Int) = ⌊(m * 2 ^ e : ℚ)⌋ := by
  by_cases he : 0 ≤ e
  · obtain ⟨k, rfl⟩ := Int.eq_ofNat_of_zero_le he
    have hcast : (m * 2 ^ (k : Int) : ℚ) = ((m * 2 ^ k : Nat) : ℚ) := by
      push_cast
      rw [zpow_natCast]
    rw [if_pos he, Int.toNat_natCast, Nat.shiftLeft_eq, hcast, Int.floor_natCast]
  · -- the quotient rounds down
    obtain ⟨k, hk⟩ := Int.eq_ofNat_of_zero_le (show 0 ≤ -e by omega)
    have hcast : (m * 2 ^ e : ℚ) = (m : ℚ) / ((2 ^ k : Nat) : ℚ) := by
      rw [show e = -(k : Int) by omega, zpow_neg]
      push_cast
      rfl
    rw [if_neg he, hk, Nat.shiftRight_eq_div_pow, hcast, Rat.floor_natCast_div_natCast]
    rfl

theorem truncFinite_eq (negative : Bool) (m : Nat) (e : Int) :
    Datum.truncFinite negative m e = truncated ((if negative then -1 else 1) * (m * 2 ^ e)) := by
  have hnonneg : (0 : ℚ) ≤ m * 2 ^ e := mul_nonneg (Nat.cast_nonneg m) (zpow_nonneg (by decide) e)
  unfold Datum.truncFinite truncated
  simp only
  rw [floor_shift]
  cases negative with
  | false => simp [hnonneg]
  | true =>
    by_cases hzero : (m * 2 ^ e : ℚ) = 0
    · simp [hzero]
    · have hneg : ¬ (0 : ℚ) ≤ -1 * (m * 2 ^ e) := by
        have hpos : (0 : ℚ) < m * 2 ^ e := lt_of_le_of_ne hnonneg (Ne.symm hzero)
        linarith
      rw [if_pos rfl, if_pos rfl, if_neg hneg, neg_one_mul, Int.ceil_neg]

end LazyTensor
