import LazyTensor.Proofs.Number.Exact
import LazyTensor.Shader.Launch

/-!
# Conversion to integers

A number becomes an integer of a format in one of two ways. The host compares it with the ends of the format and
truncates it if it lies between them; a parameter of a kernel is first clamped in double precision and then truncated.
Both give the exact value truncated toward zero and clamped to the format: for the first way this holds also of 64 bits,
where the greatest integer is no double and the next double above it takes its place.
-/

namespace LazyTensor

/-! ## Truncation -/

variable {q : ℚ}

theorem truncated_mono {r : ℚ} (h : q ≤ r) : truncated q ≤ truncated r := by
  unfold truncated
  split
  · rename_i hq
    rw [if_pos (le_trans hq h)]
    exact Int.floor_le_floor h
  · rename_i hq
    have hceil : ⌈q⌉ ≤ 0 := Int.ceil_le.mpr (by push_cast; linarith)
    split
    · rename_i hr
      exact le_trans hceil (Int.floor_nonneg.mpr hr)
    · exact Int.ceil_le_ceil h

theorem truncated_intCast (n : Int) : truncated n = n := by
  unfold truncated
  split <;> simp

theorem truncated_lt {k : Int} (hk : 0 < k) : truncated q < k ↔ q < k := by
  have hpos : (0 : ℚ) < k := by exact_mod_cast hk
  unfold truncated
  split
  · exact Int.floor_lt
  · rename_i hq
    have hceil : ⌈q⌉ ≤ 0 := Int.ceil_le.mpr (by push_cast; linarith)
    exact iff_of_true (lt_of_le_of_lt hceil hk) (by linarith)

theorem lt_truncated {k : Int} (hk : k < 0) : k < truncated q ↔ k < q := by
  have hneg : (k : ℚ) < 0 := by exact_mod_cast hk
  unfold truncated
  split
  · rename_i hq
    exact iff_of_true (lt_of_lt_of_le hk (Int.floor_nonneg.mpr hq)) (lt_of_lt_of_le hneg hq)
  · exact Int.lt_ceil

theorem abs_truncated_le (q : ℚ) : |(truncated q : ℚ)| ≤ |q| := by
  unfold truncated
  split
  · rename_i hq
    have hfloor : (0 : ℚ) ≤ ⌊q⌋ := by exact_mod_cast Int.floor_nonneg.mpr hq
    rw [abs_of_nonneg hfloor, abs_of_nonneg hq]
    exact Int.floor_le q
  · rename_i hq
    have hceil : (⌈q⌉ : ℚ) ≤ 0 := by exact_mod_cast Int.ceil_le.mpr (by push_cast; linarith)
    rw [abs_of_nonpos hceil, abs_of_neg (not_le.mp hq)]
    exact neg_le_neg (Int.le_ceil q)

theorem truncated_clamp (s least greatest : Int) (k : Nat) :
    truncated ((min (max s (least * 2 ^ k)) (greatest * 2 ^ k) : Int) * 2 ^ (-(k : Int))) =
      min (max (truncated (s * 2 ^ (-(k : Int)))) least) greatest := by
  have hcancel (n : Int) : ((n * 2 ^ k : Int) : ℚ) * 2 ^ (-(k : Int)) = n := by
    rw [zpow_neg, zpow_natCast]
    push_cast
    field_simp
  have hmono : Monotone fun n : Int => truncated (n * 2 ^ (-(k : Int))) := by
    intro m n h
    have hcast : (m : ℚ) ≤ n := by exact_mod_cast h
    exact truncated_mono (mul_le_mul_of_nonneg_right hcast (zpow_nonneg (by decide) _))
  have hends := hmono.map_min (a := max s (least * 2 ^ k)) (b := greatest * 2 ^ k)
  rwa [hmono.map_max, hcancel, hcancel, truncated_intCast, truncated_intCast] at hends

theorem Datum.truncOrLeast_eq {d : Datum} (h : d.exact = .number q) (hleast : -2 ^ 63 ≤ truncated q)
    (hlt : truncated q < 2 ^ 63) : d.truncOrLeast 64 = truncated q := by
  cases d with
  | nan => cases h
  | infinite negative => cases h
  | finite negative m e =>
    obtain rfl := ExactValue.number.inj h
    rw [← truncFinite_eq] at hleast hlt ⊢
    exact if_pos ⟨hleast, hlt⟩

/-! ## Integer formats -/

namespace IntFormat

variable (f : IntFormat)

theorem least_nonpos : f.least ≤ 0 := by
  unfold least
  split <;> omega

theorem greatest_nonneg : 0 ≤ f.greatest := by
  have hwidth : 0 < pow2 f.width := Nat.two_pow_pos _
  have hhalf : 0 < pow2 (f.width - 1) := Nat.two_pow_pos _
  unfold greatest
  split <;> omega

variable {f}

theorem pow2_width (hf : 0 < f.width) : pow2 f.width = 2 * pow2 (f.width - 1) := by
  show 2 ^ f.width = 2 * 2 ^ (f.width - 1)
  rw [← Nat.pow_succ', Nat.succ_eq_add_one, Nat.sub_add_cancel hf]

theorem least_word (signed : Bool) : (IntFormat.mk 32 signed).least = if signed then -2147483648 else 0 := by
  cases signed <;> rfl

theorem greatest_word (signed : Bool) : (IntFormat.mk 32 signed).greatest = if signed then 2147483647 else 4294967295 := by
  cases signed <;> rfl

end IntFormat

theorem ExactValue.clamped_mem (f : IntFormat) (v : ExactValue) : f.least ≤ v.clamped f ∧ v.clamped f ≤ f.greatest := by
  have hleast := f.least_nonpos
  have hgreatest := f.greatest_nonneg
  unfold clamped
  cases v with
  | nan => exact ⟨hleast, hgreatest⟩
  | infinite negative => cases negative <;> simp only [Bool.false_eq_true] <;> omega
  | number q =>
    simp only
    omega

theorem ExactValue.clamped_of_mem {f : IntFormat} {n : Int} (hleast : f.least ≤ n) (hgreatest : n ≤ f.greatest) :
    (ExactValue.number n).clamped f = n := by
  rw [clamped, truncated_intCast]
  omega

/-- The value lies at the whole number or farther from zero on the same side. -/
def ExactValue.Reaches (n : Int) : ExactValue → Prop
  | .nan => False
  | .infinite negative => if negative then n < 0 else 0 < n
  | .number q => 0 < n ∧ n ≤ q ∨ n < 0 ∧ q ≤ n

namespace ExactValue

variable {f : IntFormat}

theorem reaches_iff {n : Int} (hleast : f.least ≤ n) (hgreatest : n ≤ f.greatest) (v : ExactValue) :
    v.Reaches n ↔ 0 < n ∧ n ≤ v.clamped f ∨ n < 0 ∧ v.clamped f ≤ n := by
  have hends := And.intro f.least_nonpos f.greatest_nonneg
  cases v with
  | nan =>
    simp only [Reaches, clamped, false_iff]
    omega
  | infinite negative => cases negative <;> simp only [Reaches, clamped, if_true, Bool.false_eq_true, if_false] <;> omega
  | number q =>
    have hpos : 0 < n → ((n : ℚ) ≤ q ↔ n ≤ truncated q) := fun h => by
      rw [← not_lt, ← truncated_lt h, not_lt]
    have hneg : n < 0 → (q ≤ n ↔ truncated q ≤ n) := fun h => by
      rw [← not_lt, ← lt_truncated h, not_lt]
    simp only [clamped]
    constructor
    · rintro (⟨h, hq⟩ | ⟨h, hq⟩)
      · have := (hpos h).mp hq
        omega
      · have := (hneg h).mp hq
        omega
    · rintro (⟨h, hq⟩ | ⟨h, hq⟩)
      · exact .inl ⟨h, (hpos h).mpr (by omega)⟩
      · exact .inr ⟨h, (hneg h).mpr (by omega)⟩

theorem clamped_eq_clamped_iff {v w : ExactValue} :
    v.clamped f = w.clamped f ↔ ∀ n, f.least ≤ n → n ≤ f.greatest → (v.Reaches n ↔ w.Reaches n) := by
  constructor
  · intro h n hleast hgreatest
    rw [reaches_iff hleast hgreatest, reaches_iff hleast hgreatest, h]
  · intro h
    have hv := v.clamped_mem f
    have hw := w.clamped_mem f
    -- each of the two integers is reached by its own value, unless it is zero
    have hself := h (v.clamped f) hv.1 hv.2
    have hself' := h (w.clamped f) hw.1 hw.2
    rw [reaches_iff hv.1 hv.2, reaches_iff hv.1 hv.2] at hself
    rw [reaches_iff hw.1 hw.2, reaches_iff hw.1 hw.2] at hself'
    omega

end ExactValue

namespace IntWord

variable {f g : IntFormat}

theorem ofInt_eq_iff {m n : Int} : (ofInt m : IntWord f) = ofInt n ↔ m ≡ n [ZMOD 2 ^ f.width] := by
  constructor
  · intro h
    have hvalue := value_ofInt (f := f) n
    rw [← h] at hvalue
    exact (value_ofInt m).symm.trans hvalue
  · intro h
    exact eq_of_modEq ((value_ofInt m).trans (h.trans (value_ofInt n).symm))

theorem ofInt_add_mul (a i b : Int) :
    (ofInt a : IntWord f).add ((ofInt i).mul (ofInt b)) = ofInt (a + i * b) := by
  have hproduct := (value_mul (ofInt i : IntWord f) (ofInt b)).trans ((value_ofInt i).mul (value_ofInt b))
  exact ofInt_eq_iff.mpr ((value_ofInt a).add hproduct)

theorem value_ofInt_of_mem (hf : 0 < f.width) {n : Int} (hleast : f.least ≤ n) (hgreatest : n ≤ f.greatest) :
    (ofInt n : IntWord f).value = n := by
  have hpow := IntFormat.pow2_width hf
  unfold IntFormat.least at hleast
  unfold IntFormat.greatest at hgreatest
  unfold value ofInt
  split
  · rename_i hsigned
    rw [if_pos hsigned] at hleast hgreatest
    rw [BitVec.toInt_ofInt]
    change n.bmod (pow2 f.width) = n
    exact Int.bmod_eq_of_le (by omega) (by omega)
  · rename_i hsigned
    rw [if_neg hsigned] at hleast hgreatest
    change ((n % (pow2 f.width : Nat)).toNat : Int) = n
    rw [Int.emod_eq_of_lt hleast (by omega), Int.toNat_of_nonneg hleast]

theorem value_mem (hf : 0 < f.width) (x : IntWord f) : f.least ≤ x.value ∧ x.value ≤ f.greatest := by
  have hpow := IntFormat.pow2_width hf
  unfold value IntFormat.least IntFormat.greatest
  split
  · have hlower := BitVec.le_two_mul_toInt (x := x.bits)
    have hupper := BitVec.two_mul_toInt_lt (x := x.bits)
    change -((pow2 f.width : Nat) : Int) ≤ _ at hlower
    change _ < ((pow2 f.width : Nat) : Int) at hupper
    omega
  · have hlt : x.bits.toNat < pow2 f.width := x.bits.isLt
    omega

theorem convert_self (x : IntWord f) : (x.convert : IntWord f) = x := eq_of_modEq (value_ofInt x.value)

theorem convert_convert (hf : 0 < f.width) (hg : 0 < g.width) (hleast : g.least ≤ f.least)
    (hgreatest : f.greatest ≤ g.greatest) (x : IntWord f) : ((x.convert : IntWord g).convert : IntWord f) = x := by
  have hmem := x.value_mem hf
  have hvalue : (x.convert : IntWord g).value = x.value :=
    value_ofInt_of_mem hg (le_trans hleast hmem.1) (le_trans hmem.2 hgreatest)
  rw [convert, hvalue]
  exact x.convert_self

end IntWord

/-! ## Positions -/

namespace FloatWord

variable {f : FloatFormat} {x y : FloatWord f}

/-- Where a word stands among the rational numbers. The infinities stand beyond all numbers of the format. -/
def position (x : FloatWord f) : ℚ := x.multiple * 2 ^ f.leastExponent

theorem multiple_of_isInfinite (h : x.isInfinite = true) :
    x.multiple = if x.negative then -(f.units f.infinityBits : Int) else f.units f.infinityBits := by
  rw [multiple, beq_iff_eq.mp h]

theorem multiple_lt_iff : x.magnitude < f.infinityBits ↔
    -(f.units f.infinityBits : Int) < x.multiple ∧ x.multiple < f.units f.infinityBits := by
  rw [← f.units_strictMono.lt_iff_lt]
  unfold multiple
  split <;> omega

theorem isNaN_max (hx : x.isNaN = false) (hy : y.isNaN = false) : (x.max y).isNaN = false := by
  rw [max, hx, hy, if_neg Bool.false_ne_true, if_neg Bool.false_ne_true]
  split
  · exact hy
  · exact hx

end FloatWord

theorem truncOrLeast_position {x : Double} (hx : x.magnitude < FloatFormat.double.infinityBits)
    (hleast : -2 ^ 63 ≤ truncated x.position) (hlt : truncated x.position < 2 ^ 63) :
    x.datum.truncOrLeast 64 = truncated x.position := Datum.truncOrLeast_eq (x.exact_of_lt hx) hleast hlt

section

variable (s n : Int) (k : Nat)

theorem le_mul_two_pow_iff : s ≤ n * 2 ^ k ↔ (s * 2 ^ (-(k : Int)) : ℚ) ≤ n := by
  rw [zpow_neg, zpow_natCast, mul_inv_le_iff₀ (by positivity)]
  exact_mod_cast Iff.rfl

theorem mul_two_pow_le_iff : n * 2 ^ k ≤ s ↔ (n : ℚ) ≤ s * 2 ^ (-(k : Int)) := by
  rw [zpow_neg, zpow_natCast, le_mul_inv_iff₀ (by positivity)]
  exact_mod_cast Iff.rfl

end

theorem multiple_le_iff (x : Double) (n : Int) : x.multiple ≤ n * 2 ^ 1074 ↔ x.position ≤ n :=
  le_mul_two_pow_iff x.multiple n 1074

theorem le_multiple_iff (x : Double) (n : Int) : n * 2 ^ 1074 ≤ x.multiple ↔ n ≤ x.position :=
  mul_two_pow_le_iff x.multiple n 1074

/-! ## The ends of a format as doubles -/

/-- What makes the order of doubles clamp to a format: its least value is a double, and its greatest value or the number
after it. All its values have 64 bits. -/
@[mk_iff]
structure IntFormat.Clampable (f : IntFormat) : Prop where
  width_pos : 0 < f.width
  least_ge : -2 ^ 63 ≤ f.least
  greatest_lt : f.greatest < 2 ^ 63
  least_number : (FloatWord.ofInt f.least : Double).magnitude < FloatFormat.double.infinityBits
  greatest_number : (FloatWord.ofInt f.greatest : Double).magnitude < FloatFormat.double.infinityBits
  multiple_least : (FloatWord.ofInt f.least : Double).multiple = f.least * 2 ^ 1074
  multiple_greatest : (FloatWord.ofInt f.greatest : Double).multiple = f.greatest * 2 ^ 1074 ∨
    (FloatWord.ofInt f.greatest : Double).multiple = (f.greatest + 1) * 2 ^ 1074

theorem IntFormat.clampable_uint8 : uint8.Clampable :=
  (clampable_iff _).mpr (by decide +kernel)

theorem IntFormat.clampable_uint32 : uint32.Clampable :=
  (clampable_iff _).mpr (by decide +kernel)

theorem IntFormat.clampable_int32 : int32.Clampable :=
  (clampable_iff _).mpr (by decide +kernel)

theorem IntFormat.clampable_word (signed : Bool) : (IntFormat.mk 32 signed).Clampable := by
  cases signed
  · exact clampable_uint32
  · exact clampable_int32

theorem IntFormat.clampable_int64 : int64.Clampable :=
  (clampable_iff _).mpr (by decide +kernel)

section

variable {f : IntFormat} (hf : f.Clampable) {x : Double}

include hf

theorem le_least_iff : x.multiple ≤ (FloatWord.ofInt f.least : Double).multiple ↔ x.position ≤ f.least := by
  rw [hf.multiple_least, multiple_le_iff]

theorem greatest_le (h : (FloatWord.ofInt f.greatest : Double).multiple ≤ x.multiple) : f.greatest ≤ x.position := by
  rcases hf.multiple_greatest with hmultiple | hmultiple
  · rwa [hmultiple, le_multiple_iff] at h
  · rw [hmultiple, le_multiple_iff] at h
    push_cast at h
    linarith

theorem lt_greatest (h : x.multiple < (FloatWord.ofInt f.greatest : Double).multiple) :
    x.position < ((f.greatest + 1 : Int) : ℚ) := by
  rcases hf.multiple_greatest with hmultiple | hmultiple
  · rw [hmultiple, ← not_le, le_multiple_iff] at h
    push_cast
    linarith
  · rwa [hmultiple, ← not_le, le_multiple_iff, not_le] at h

theorem clamped_position (hx : x.isNaN = false) :
    x.datum.exact.clamped f = max f.least (min f.greatest (truncated x.position)) := by
  have hends := And.intro f.least_nonpos f.greatest_nonneg
  rcases x.word_cases with hnumber | hinfinite | hnan
  · rw [x.exact_of_lt hnumber]
    rfl
  · have hmultiple := FloatWord.multiple_of_isInfinite hinfinite
    rw [FloatWord.exact_of_isInfinite x hinfinite, ExactValue.clamped]
    -- an infinite word is beyond the end on the side of its sign
    cases hnegative : x.negative with
    | false =>
      rw [hnegative, if_neg Bool.false_ne_true] at hmultiple
      have hlt := (FloatWord.multiple_lt_iff.mp hf.greatest_number).2
      have htruncated := truncated_mono (greatest_le hf (x := x) (by omega))
      rw [truncated_intCast] at htruncated
      rw [if_neg Bool.false_ne_true]
      omega
    | true =>
      rw [hnegative, if_pos rfl] at hmultiple
      have hlt := (FloatWord.multiple_lt_iff.mp hf.least_number).1
      have htruncated := truncated_mono ((le_least_iff hf (x := x)).mp (by omega))
      rw [truncated_intCast] at htruncated
      rw [if_pos rfl]
      omega
  · rw [hx] at hnan
    cases hnan

/-! ## Comparing and then truncating -/

/-- The exact value is truncated, and clamped at both ends. -/
theorem Double.toInteger_eq (x : Double) : Double.toInteger f x = x.datum.exact.clamped f := by
  by_cases hnan : x.isNaN = true
  · rw [Double.toInteger, if_pos hnan, x.exact_of_isNaN hnan]
    rfl
  rw [Bool.not_eq_true] at hnan
  have hends := And.intro f.least_nonpos f.greatest_nonneg
  have hcompared := FloatWord.le_iff hnan (FloatWord.not_isNaN_of_lt hf.least_number)
  have hcompared' := FloatWord.le_iff (FloatWord.not_isNaN_of_lt hf.greatest_number) hnan
  rw [clamped_position hf hnan, Double.toInteger, hnan, if_neg Bool.false_ne_true]
  split
  · rename_i hle
    have htruncated := truncated_mono ((le_least_iff hf).mp (hcompared.mp hle))
    rw [truncated_intCast] at htruncated
    omega
  · rename_i hleast
    split
    · rename_i hge
      have htruncated := truncated_mono (greatest_le hf (hcompared'.mp hge))
      rw [truncated_intCast] at htruncated
      omega
    · -- strictly between the ends: the word is a number, and truncation stays between them
      rename_i hgreatest
      rw [hcompared] at hleast
      rw [hcompared'] at hgreatest
      have hnumber : x.magnitude < FloatFormat.double.infinityBits := by
        have hlower := FloatWord.multiple_lt_iff.mp hf.least_number
        have hupper := FloatWord.multiple_lt_iff.mp hf.greatest_number
        exact FloatWord.multiple_lt_iff.mpr (by omega)
      have hlower := truncated_mono (le_of_not_ge (mt (le_least_iff hf).mpr hleast))
      rw [truncated_intCast] at hlower
      have hupper := (truncated_lt (by omega)).mpr (lt_greatest hf (not_le.mp hgreatest))
      have hbounds := And.intro hf.least_ge hf.greatest_lt
      rw [truncOrLeast_position hnumber (by omega) (by omega)]
      omega

theorem value_toIntWord (x : Double) : (Scalar.toIntWord (.double x) : IntWord f).value = clamped f x := by
  have hmem := x.datum.exact.clamped_mem f
  rw [Scalar.toIntWord, Double.toInteger_eq hf, clamped_eq]
  exact IntWord.value_ofInt_of_mem hf.width_pos hmem.1 hmem.2

/-! ## Clamping and then truncating -/

theorem Shader.integerBits_eq (hgreatest : (FloatWord.ofInt f.greatest : Double).multiple = f.greatest * 2 ^ 1074)
    (x : Double) : Shader.integerBits f x = Shader.word (clamped f x) := by
  rw [clamped_eq]
  by_cases hnan : x.isNaN = true
  · rw [Shader.integerBits, if_pos hnan, x.exact_of_isNaN hnan]
    rfl
  rw [Bool.not_eq_true] at hnan
  have hleastNaN := FloatWord.not_isNaN_of_lt hf.least_number
  have hgreatestNaN := FloatWord.not_isNaN_of_lt hf.greatest_number
  have hmultiple := FloatWord.multiple_min (FloatWord.isNaN_max hnan hleastNaN) hgreatestNaN
  rw [FloatWord.multiple_max hnan hleastNaN] at hmultiple
  rw [clamped_position hf hnan, Shader.integerBits, hnan, if_neg Bool.false_ne_true]
  generalize (x.max (.ofInt f.least)).min (.ofInt f.greatest) = c at hmultiple ⊢
  have hends := And.intro f.least_nonpos f.greatest_nonneg
  -- the clamped word is a number, also if the word is infinite
  have hnumber : c.magnitude < FloatFormat.double.infinityBits := by
    have hlower := FloatWord.multiple_lt_iff.mp hf.least_number
    have hupper := FloatWord.multiple_lt_iff.mp hf.greatest_number
    exact FloatWord.multiple_lt_iff.mpr (by omega)
  have htruncated : truncated c.position = min (max (truncated x.position) f.least) f.greatest := by
    rw [FloatWord.position, hmultiple, hf.multiple_least, hgreatest]
    exact truncated_clamp x.multiple f.least f.greatest 1074
  have hbounds := And.intro hf.least_ge hf.greatest_lt
  rw [truncOrLeast_position hnumber (by omega) (by omega)]
  congr 1
  omega

end

namespace Shader

theorem word_modEq (n : Int) : ((word n).toNat : Int) ≡ n [ZMOD 2 ^ 32] := by
  have hpow : (pow2 32 : Int) = 2 ^ 32 := by decide
  have hnonneg : 0 ≤ n % 2 ^ 32 := Int.emod_nonneg n (by decide)
  rw [word, UInt32.toNat_ofNat', hpow, Nat.mod_eq_of_lt (by omega), Int.toNat_of_nonneg hnonneg]
  exact Int.mod_modEq n (2 ^ 32)

theorem word_eq_ofBitVec (n : Int) : word n = .ofBitVec (BitVec.ofInt 32 n) := by
  have hpow : ((pow2 32 : Nat) : Int) = (2 ^ 32 : Nat) := rfl
  apply UInt32.toNat_inj.mp
  rw [word, UInt32.toNat_ofNat', UInt32.toNat_ofBitVec, BitVec.toNat_ofInt, hpow]
  omega

theorem scalarBits_int32 (x : Double) : scalarBits .int32 x = word (clamped .int32 x) :=
  integerBits_eq IntFormat.clampable_int32 (by decide +kernel) x

theorem scalarBits_uint32 (x : Double) : scalarBits .uint32 x = word (clamped .uint32 x) :=
  integerBits_eq IntFormat.clampable_uint32 (by decide +kernel) x

end Shader

end LazyTensor
