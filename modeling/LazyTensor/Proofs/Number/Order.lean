import LazyTensor.Proofs.Number
import Mathlib.Order.Monotone.Basic
import Mathlib.Tactic.Linarith

/-!
# Exact values of words, and their order

A word of a floating point format that is neither a NaN nor infinite stands for a whole multiple of the least positive
number of the format. `FloatFormat.units` is that multiple, from the bits below the sign. It increases with the bits, and
the bits of infinity come after those of all numbers. So words are compared by their multiples (`FloatWord.lt_iff`), and the
greater and the smaller of two words are those of the multiples.
-/

namespace LazyTensor

/-! ## Exact values -/

/-- What a floating point word stands for, with a rational number in place of mantissa and exponent. Both zeros are
the same number. -/
inductive ExactValue where
  | nan
  | infinite (negative : Bool)
  | number (q : ℚ)

/-- The value truncated toward zero and clamped to a format. NaN gives zero. -/
def ExactValue.clamped (f : IntFormat) : ExactValue → Int
  | .nan => 0
  | .infinite negative => if negative then f.least else f.greatest
  | .number q => max f.least (min f.greatest (truncated q))

def Datum.exact : Datum → ExactValue
  | .nan => .nan
  | .infinite negative => .infinite negative
  | .finite negative m e => .number ((if negative then -1 else 1) * (m * 2 ^ e))

theorem clamped_eq (f : IntFormat) (x : Double) : clamped f x = x.datum.exact.clamped f := by
  unfold clamped
  cases x.datum <;> rfl

/-! ## Multiples of the least number -/

namespace FloatFormat

variable (f : FloatFormat)

theorem exponentWeight_pos : 0 < f.exponentWeight := Nat.two_pow_pos _

/-- The multiple of the least number that the bits below the sign stand for. -/
def units (magnitude : Nat) : Nat :=
  let field := magnitude / f.exponentWeight
  let fraction := magnitude % f.exponentWeight
  (if field = 0 then fraction else f.exponentWeight + fraction) * 2 ^ (field - 1)

theorem units_add {fraction : Nat} (h : fraction < f.exponentWeight) (field : Nat) :
    f.units (field * f.exponentWeight + fraction) =
      (if field = 0 then fraction else f.exponentWeight + fraction) * 2 ^ (field - 1) := by
  have hfield : (field * f.exponentWeight + fraction) / f.exponentWeight = field := by
    rw [Nat.mul_comm, Nat.mul_add_div f.exponentWeight_pos, Nat.div_eq_of_lt h, Nat.add_zero]
  have hfraction : (field * f.exponentWeight + fraction) % f.exponentWeight = fraction := by
    rw [Nat.mul_comm, Nat.mul_add_mod, Nat.mod_eq_of_lt h]
  simp only [units, hfield, hfraction]

theorem exists_fields (magnitude : Nat) :
    ∃ field fraction, fraction < f.exponentWeight ∧ magnitude = field * f.exponentWeight + fraction :=
  ⟨magnitude / f.exponentWeight, magnitude % f.exponentWeight, Nat.mod_lt _ f.exponentWeight_pos,
    (Nat.div_add_mod' ..).symm⟩

theorem units_strictMono : StrictMono f.units := by
  apply strictMono_nat_of_lt_succ
  intro magnitude
  obtain ⟨field, fraction, hfraction, rfl⟩ := f.exists_fields magnitude
  rw [f.units_add hfraction]
  by_cases hnext : fraction + 1 < f.exponentWeight
  · rw [Nat.add_assoc, f.units_add hnext]
    apply Nat.mul_lt_mul_of_pos_right _ (Nat.two_pow_pos _)
    split <;> omega
  · -- the fraction is full, so the next field starts
    have hsucc : field * f.exponentWeight + fraction + 1 = (field + 1) * f.exponentWeight + 0 := by
      rw [Nat.succ_mul]
      omega
    rw [hsucc, f.units_add f.exponentWeight_pos, if_neg (Nat.succ_ne_zero field), Nat.add_sub_cancel]
    cases field with
    | zero =>
      simp only [if_true]
      omega
    | succ k =>
      rw [if_neg (Nat.succ_ne_zero k), Nat.pow_succ', ← Nat.mul_assoc]
      exact Nat.mul_lt_mul_of_pos_right (by omega) (Nat.two_pow_pos k)

theorem units_zero : f.units 0 = 0 := by
  simp [units]

end FloatFormat

/-! ## Words -/

namespace FloatWord

variable {f : FloatFormat} (x y : FloatWord f)

theorem magnitude_lt : x.magnitude < f.signWeight := Nat.mod_lt _ (Nat.two_pow_pos _)

/-- The multiple of the least number that a word stands for. -/
def multiple : Int := if x.negative then -(f.units x.magnitude : Int) else f.units x.magnitude

theorem signWeight_eq : f.signWeight = (f.exponentLimit + 1) * f.exponentWeight := by
  have hone : 1 ≤ 2 ^ f.exponentBits := Nat.one_le_two_pow
  show 2 ^ (f.exponentBits + f.fractionBits) = (2 ^ f.exponentBits - 1 + 1) * 2 ^ f.fractionBits
  rw [Nat.sub_add_cancel hone, Nat.pow_add]

theorem exact_of_lt (h : x.magnitude < f.infinityBits) : x.datum.exact = .number (x.multiple * 2 ^ f.leastExponent) := by
  have hfield : ¬ x.magnitude / f.exponentWeight = f.exponentLimit :=
    Nat.ne_of_lt ((Nat.div_lt_iff_lt_mul f.exponentWeight_pos).mpr h)
  unfold datum multiple FloatFormat.units
  generalize x.magnitude / f.exponentWeight = field at hfield ⊢
  generalize x.magnitude % f.exponentWeight = fraction
  simp only
  rw [if_neg hfield]
  by_cases hzero : field = 0
  · rw [if_pos hzero, hzero, Datum.exact]
    cases x.negative <;> simp
  · have hexponent : f.leastExponent + ((field : Int) - 1) = ((field - 1 : Nat) : Int) + f.leastExponent := by
      omega
    rw [if_neg hzero, if_neg hzero, Datum.exact, hexponent, zpow_add₀ (by decide)]
    cases x.negative <;> push_cast <;> simp <;> ring

theorem exact_of_isInfinite (h : x.isInfinite = true) : x.datum.exact = .infinite x.negative := by
  have hbits : x.magnitude = f.exponentLimit * f.exponentWeight := beq_iff_eq.mp h
  unfold datum
  simp only [hbits, Nat.mul_div_cancel _ f.exponentWeight_pos, Nat.mul_mod_left]
  rfl

theorem exact_of_isNaN (h : x.isNaN = true) : x.datum.exact = .nan := by
  have hbits : f.exponentLimit * f.exponentWeight < x.magnitude := of_decide_eq_true h
  have hlt := x.magnitude_lt
  rw [signWeight_eq] at hlt
  have hfield : x.magnitude / f.exponentWeight = f.exponentLimit :=
    Nat.div_eq_of_lt_le (Nat.le_of_lt hbits) hlt
  have hfraction : ¬ x.magnitude % f.exponentWeight = 0 := by
    have hparts := Nat.div_add_mod' x.magnitude f.exponentWeight
    rw [hfield] at hparts
    omega
  unfold datum
  simp only [if_pos hfield, if_neg hfraction]
  rfl

theorem word_cases : x.magnitude < f.infinityBits ∨ x.isInfinite = true ∨ x.isNaN = true := by
  simp only [isInfinite, isNaN, beq_iff_eq, decide_eq_true_eq]
  omega

variable {x y}

theorem not_isNaN_of_lt (h : x.magnitude < f.infinityBits) : x.isNaN = false := by
  simp only [isNaN, decide_eq_false_iff_not]
  omega

theorem not_isNaN_of_isInfinite (h : x.isInfinite = true) : x.isNaN = false := by
  simp only [isInfinite, beq_iff_eq] at h
  simp only [isNaN, decide_eq_false_iff_not]
  omega

/-! ## Order -/

theorem isZero_iff : x.isZero = true ↔ f.units x.magnitude = 0 := by
  rw [isZero, beq_iff_eq]
  constructor
  · intro h
    rw [h, f.units_zero]
  · intro h
    exact f.units_strictMono.injective (h.trans f.units_zero.symm)

theorem multiple_le_of_orderKey_le (h : x.orderKey ≤ y.orderKey) : x.multiple ≤ y.multiple := by
  unfold orderKey at h
  unfold multiple
  cases hx : x.negative <;> cases hy : y.negative <;>
    simp only [hx, hy, if_true, Bool.false_eq_true, if_false] at h ⊢
  · exact_mod_cast f.units_strictMono.monotone (show x.magnitude ≤ y.magnitude by omega)
  · omega
  · omega
  · have hle := f.units_strictMono.monotone (show y.magnitude ≤ x.magnitude by omega)
    omega

theorem orderKey_le_of_multiple_le (h : x.multiple ≤ y.multiple) (hzero : ¬(x.isZero = true ∧ y.isZero = true)) :
    x.orderKey ≤ y.orderKey := by
  unfold multiple at h
  unfold orderKey
  rw [isZero_iff, isZero_iff] at hzero
  cases hx : x.negative <;> cases hy : y.negative <;>
    simp only [hx, hy, if_true, Bool.false_eq_true, if_false] at h ⊢
  · exact_mod_cast f.units_strictMono.le_iff_le.mp (by omega)
  · omega
  · omega
  · have hle := f.units_strictMono.le_iff_le.mp (show f.units y.magnitude ≤ f.units x.magnitude by omega)
    omega

variable (hx : x.isNaN = false) (hy : y.isNaN = false)

include hx hy

theorem lt_iff : x.lt y = true ↔ x.multiple < y.multiple := by
  simp only [lt, hx, hy, Bool.not_false, Bool.true_and, Bool.and_eq_true, Bool.not_eq_true', decide_eq_true_eq]
  constructor
  · rintro ⟨hzero, hkey⟩
    by_contra hle
    have hkeys := orderKey_le_of_multiple_le (not_lt.mp hle) (by
      rintro ⟨hy, hx⟩
      rw [hx, hy] at hzero
      cases hzero)
    omega
  · intro hlt
    constructor
    · rw [Bool.eq_false_iff]
      intro hzero
      rw [Bool.and_eq_true, isZero_iff, isZero_iff] at hzero
      simp [multiple, hzero] at hlt
    · by_contra hle
      have hmultiple := multiple_le_of_orderKey_le (not_lt.mp hle)
      omega

theorem le_iff : x.le y = true ↔ x.multiple ≤ y.multiple := by
  rw [le, hx, hy, ← not_lt, ← lt_iff hy hx]
  simp

theorem multiple_max : (x.max y).multiple = Max.max x.multiple y.multiple := by
  rw [max, hx, hy, if_neg Bool.false_ne_true, if_neg Bool.false_ne_true]
  split
  · rename_i hkey
    exact (max_eq_right (multiple_le_of_orderKey_le (Int.le_of_lt hkey))).symm
  · rename_i hkey
    exact (max_eq_left (multiple_le_of_orderKey_le (not_lt.mp hkey))).symm

theorem multiple_min : (x.min y).multiple = Min.min x.multiple y.multiple := by
  rw [min, hx, hy, if_neg Bool.false_ne_true, if_neg Bool.false_ne_true]
  split
  · rename_i hkey
    exact (min_eq_right (multiple_le_of_orderKey_le (Int.le_of_lt hkey))).symm
  · rename_i hkey
    exact (min_eq_left (multiple_le_of_orderKey_le (not_lt.mp hkey))).symm

end FloatWord

end LazyTensor
