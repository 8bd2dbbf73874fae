import LazyTensor.Proofs.Kernel.Transpose
import LazyTensor.Proofs.RowMajor
import Mathlib.Tactic.Ring

/-!
# Transposition permutes the axes

The place of an index in the output of a transposition leads to the operand's index that has the same coordinates,
each on the axis where the permutation takes it from. So the output has the elements of the operand with permuted
axes, whichever ranges it is written in, and a transposition by the inverse gives back the operand.
-/

namespace LazyTensor.Kernel

namespace Cursor

/-- The coordinates of an index move the flat index of the operand by their strides. The axes of the index are the
last ones of all. -/
theorem offset_axesAt_rowMajor {dims index : List Int} (h : IsIndex dims index) {strides : List Int}
    (hlength : strides.length = dims.length) (rest : List (Int × Int)) {i : Int} (hi : 0 ≤ i) :
    offset (axesAt ((dims.zip strides).reverse ++ rest) (rowMajor dims index + dims.prod * i)) =
      (List.zipWith (· * ·) index strides).sum + offset (axesAt rest i) := by
  -- an axis is taken away from the front of the index and put in front of the rest
  induction h generalizing strides rest i with
  | nil =>
    show offset (axesAt rest (0 + 1 * i)) = 0 + offset (axesAt rest i)
    rw [Int.one_mul, Int.zero_add, Int.zero_add]
  | @cons d x dims index hx h ih =>
    cases strides with
    | nil => cases hlength
    | cons stride strides =>
      have hlength : strides.length = dims.length := Nat.succ.inj hlength
      have hplace : rowMajor (d :: dims) (x :: index) + (d :: dims).prod * i =
          rowMajor dims index + dims.prod * (x + d * i) := by
        rw [rowMajor, List.prod_cons]
        ring
      have hi' : 0 ≤ x + d * i := Int.add_nonneg hx.1 (Int.mul_nonneg (by omega) hi)
      rw [hplace, List.zip_cons_cons, List.reverse_cons, List.append_assoc, List.singleton_append,
        ih hlength _ hi', offset_axesAt_add rest hx.1 hx.2 hi, List.zipWith_cons_cons, List.sum_cons]
      omega

end Cursor

section

variable {permutation dims outDims strides index outIndex : List Int}

theorem Cursor.source_start_reorders (hpos : ∀ d ∈ dims, 0 < d) (hsmall : dims.prod < wordLimit)
    (haxes : permutation.Perm (axesInOrder dims.length)) (hstrides : Reorders permutation (Shape.stridesOf dims) strides)
    (hindex : IsIndex dims index) (houtIndex : IsIndex outDims outIndex) (h : Reorders permutation index outIndex) :
    (start outDims strides (rowMajor outDims outIndex).toNat).source = rowMajor dims index := by
  have hlength : strides.length = outDims.length := by
    rw [hstrides.length_eq, houtIndex.length_eq, h.length_eq]
  have hsum : (List.zipWith (· * ·) outIndex strides).sum = rowMajor dims index := by
    rw [h.sum_mul_eq haxes hstrides hindex.length_eq.symm (Shape.length_stridesOf dims)]
    exact Shape.sum_index_strides hpos hsmall hindex
  have hoffset := offset_axesAt_rowMajor houtIndex hlength [] (Int.le_refl 0)
  rw [List.append_nil, Int.mul_zero, Int.add_zero, offset_axesAt_zero, Int.add_zero, hsum] at hoffset
  have hbounds := rowMajor_bounds hindex
  have houtBounds := rowMajor_bounds houtIndex
  rw [source_start, Int.toNat_of_nonneg houtBounds.1, hoffset]
  exact wrap64_eq_self (by unfold wordLimit; omega) (by omega)

end

variable {α : Type} {src mid out : Array α} {permutation inverse dims outDims strides : List Int}

/-- The elements are those of the operand with permuted axes. -/
structure IsTransposed (permutation dims outDims : List Int) (src out : Array α) : Prop where
  size_eq : out.size = src.size
  element : ∀ outIndex, IsIndex outDims outIndex → ∃ index, IsIndex dims index ∧ Reorders permutation index outIndex ∧
    ∃ x, component? dims src index = some x ∧ component? outDims out outIndex = some x

theorem IsTransposed.eq_of_inverse (h : IsTransposed permutation dims outDims src mid)
    (h' : IsTransposed inverse outDims dims mid out) (hpos : ∀ d ∈ dims, 0 < d) (hsize : (src.size : Int) = dims.prod)
    (haxes : inverse.Perm (axesInOrder dims.length))
    (hinverse : Reorders inverse permutation (axesInOrder dims.length)) : out = src := by
  have hsizes : out.size = src.size := h'.size_eq.trans h.size_eq
  refine eq_of_component?_eq hpos (by omega) hsize fun index hindex => ?_
  obtain ⟨midIndex, hmidIndex, hmid, x, hx, hout⟩ := h'.element index hindex
  obtain ⟨srcIndex, hsrcIndex, hsrc, y, hy, hmidOut⟩ := h.element midIndex hmidIndex
  -- the index of the operand is the one of the output
  obtain rfl := hmid.unique (hsrc.of_inverse haxes hinverse hsrcIndex.length_eq.symm)
  rw [hout, hy, ← hx, ← hmidOut]

section

variable (hpos : ∀ d ∈ dims, 0 < d) (hsmall : dims.prod < wordLimit)
  (haxes : permutation.Perm (axesInOrder dims.length)) (hdims : Reorders permutation dims outDims)
  (hstrides : Reorders permutation (Shape.stridesOf dims) strides) (hsize : (src.size : Int) = dims.prod)

include hpos haxes hdims

theorem pos_of_reorders : ∀ d ∈ outDims, 0 < d := by
  intro d hd
  exact hpos d ((hdims.perm haxes rfl).mem_iff.mp hd)

include hsmall hstrides hsize

theorem exists_transposedAt {outIndex : List Int} (houtIndex : IsIndex outDims outIndex) :
    ∃ index, IsIndex dims index ∧ Reorders permutation index outIndex ∧
      ∃ x, component? dims src index = some x ∧
        transposedAt src outDims strides (rowMajor outDims outIndex).toNat = some x := by
  obtain ⟨index, hindex, h⟩ := hdims.exists_index haxes rfl houtIndex
  have hbounds := rowMajor_bounds hindex
  obtain ⟨x, hx⟩ := exists_component? hsize hindex
  refine ⟨index, hindex, h, x, hx, ?_⟩
  rwa [transposedAt, elementAt, Cursor.source_start_reorders hpos hsmall haxes hstrides hindex houtIndex h,
    if_neg (by omega)]

theorem exists_isTransposed :
    ∃ out, IsTransposed permutation dims outDims src out ∧
      ∀ (ranges : List Range) (old : Array α), Covers ranges src.size → old.size = src.size →
        overRanges ranges (transpose src outDims strides) old = (out, none) := by
  have houtPos := pos_of_reorders hpos haxes hdims
  have hprod : outDims.prod = dims.prod := (hdims.perm haxes rfl).prod_eq
  have helement := fun outIndex (houtIndex : IsIndex outDims outIndex) =>
    exists_transposedAt hpos hsmall haxes hdims hstrides hsize houtIndex
  cases htable : transposed? src outDims strides src.size with
  | none =>
    -- each place is the one of an index
    obtain ⟨i, hi, hnone⟩ := table?_eq_none_iff.mp htable
    obtain ⟨outIndex, houtIndex, hplace⟩ :=
      exists_rowMajor_eq houtPos (Int.natCast_nonneg i) (show (i : Int) < outDims.prod by omega)
    obtain ⟨index, -, -, x, -, hx⟩ := helement outIndex houtIndex
    rw [hplace, Int.toNat_natCast, hnone] at hx
    cases hx
  | some out =>
    obtain ⟨houtSize, hget⟩ := table?_eq_some_iff.mp htable
    refine ⟨out, ⟨houtSize, fun outIndex houtIndex => ?_⟩, fun ranges old hranges hold => ?_⟩
    · obtain ⟨index, hindex, h, x, hx, hplace⟩ := helement outIndex houtIndex
      have hbounds := rowMajor_bounds houtIndex
      exact ⟨index, hindex, h, x, hx, by rwa [component?, hget _ (by omega)]⟩
    · rw [← hold] at hranges
      obtain ⟨-, hok, hfail⟩ := overRanges_transpose src strides houtPos hranges
      rw [hold, htable] at hok hfail
      rcases hrun : overRanges ranges (transpose src outDims strides) old with ⟨data, _ | fault⟩
      · rw [hrun] at hok
        rw [Option.some.inj (hok rfl)]
      · rw [hrun] at hfail
        cases hfail (Option.some_ne_none fault)

end

end LazyTensor.Kernel
