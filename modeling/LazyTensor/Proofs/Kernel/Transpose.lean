import LazyTensor.Kernel.Transpose
import LazyTensor.Proofs.Kernel.Range
import LazyTensor.Proofs.Size

/-!
# Transposition element by element

The cursor of a transposition walks through the output, and its place is the one of the flat index that
it has reached (`Cursor.next_start`), also where the flat index of the operand wraps around. So each
element of the output only depends on its own index, whichever range it is in. With dimensions whose
product is small enough the operand has an element at every place.
-/

namespace LazyTensor.Kernel

namespace Cursor

/-! ## Places -/

/-- How far the coordinates move the flat index of the operand. -/
def offset (axes : List AxisCursor) : Int := (axes.map fun a => a.index * a.stride).sum

theorem offset_axesAt_cons (dim stride : Int) (axes : List (Int × Int)) (i : Int) :
    offset (axesAt ((dim, stride) :: axes) i) = i.tmod dim * stride + offset (axesAt axes (i.tdiv dim)) := by
  simp [offset, axesAt]

theorem foldl_offset (axes : List AxisCursor) (n : Int) :
    axes.foldl (fun source a => wrap64 (source + a.index * a.stride)) (wrap64 n) =
      wrap64 (n + offset axes) := by
  induction axes generalizing n with
  | nil => simp [offset]
  | cons a axes ih =>
    have hoffset : offset (a :: axes) = a.index * a.stride + offset axes := by
      simp [offset]
    rw [List.foldl_cons, wrap64_add_left, ih, hoffset, Int.add_assoc]

theorem source_start (dims strides : List Int) (i : Nat) :
    (start dims strides i).source = wrap64 (offset (axesAt (dims.zip strides).reverse i)) := by
  have h := foldl_offset (axesAt (dims.zip strides).reverse i) 0
  rwa [Int.zero_add] at h

private theorem tmod_succ_of_lt {i dim : Int} (hi : 0 ≤ i) (hdim : 0 < dim) (h : i.tmod dim + 1 < dim) :
    (i + 1).tmod dim = i.tmod dim + 1 ∧ (i + 1).tdiv dim = i.tdiv dim := by
  rw [Int.tmod_eq_emod_of_nonneg hi] at h ⊢
  rw [Int.tmod_eq_emod_of_nonneg (by omega), Int.tdiv_eq_ediv_of_nonneg (by omega),
    Int.tdiv_eq_ediv_of_nonneg hi]
  have hsplit := Int.mul_ediv_add_emod i dim
  have hmod : 0 ≤ i % dim := Int.emod_nonneg i (by omega)
  have hnext : i + 1 = (i % dim + 1) + dim * (i / dim) := by omega
  refine ⟨?_, ?_⟩
  · rw [hnext, Int.add_mul_emod_self_left, Int.emod_eq_of_lt (by omega) h]
  · rw [hnext, Int.add_mul_ediv_left _ _ (by omega), Int.ediv_eq_zero_of_lt (by omega) h, Int.zero_add]

private theorem tmod_succ_of_eq {i dim : Int} (hi : 0 ≤ i) (hdim : 0 < dim) (h : ¬ i.tmod dim + 1 < dim) :
    i.tmod dim = dim - 1 ∧ (i + 1).tmod dim = 0 ∧ (i + 1).tdiv dim = i.tdiv dim + 1 := by
  rw [Int.tmod_eq_emod_of_nonneg hi] at h ⊢
  rw [Int.tmod_eq_emod_of_nonneg (by omega), Int.tdiv_eq_ediv_of_nonneg (by omega),
    Int.tdiv_eq_ediv_of_nonneg hi]
  have hsplit := Int.mul_ediv_add_emod i dim
  have hlt : i % dim < dim := Int.emod_lt_of_pos i hdim
  have hlast : i % dim = dim - 1 := by omega
  have hnext : i + 1 = dim * (i / dim + 1) := by
    rw [Int.mul_add]
    omega
  refine ⟨hlast, ?_, ?_⟩
  · rw [hnext, Int.mul_emod_right]
  · rw [hnext, Int.mul_ediv_cancel_left _ (by omega)]

/-- A step moves to the coordinates of the next flat index, and the flat index of the operand along. -/
theorem advance_axesAt {axes : List (Int × Int)} (hpos : ∀ a ∈ axes, 0 < a.1) {i : Int} (hi : 0 ≤ i) (n : Int) :
    advance (axesAt axes i) (wrap64 n) =
      (axesAt axes (i + 1), wrap64 (n - offset (axesAt axes i) + offset (axesAt axes (i + 1)))) := by
  induction axes generalizing i n with
  | nil => simp [axesAt, advance]
  | cons a axes ih =>
    obtain ⟨dim, stride⟩ := a
    have hdim : 0 < dim := hpos (dim, stride) (.head _)
    rw [offset_axesAt_cons, offset_axesAt_cons, axesAt, axesAt, advance]
    by_cases h : i.tmod dim + 1 < dim
    · -- no carry: the other coordinates stay
      obtain ⟨hmod, hdiv⟩ := tmod_succ_of_lt hi hdim h
      rw [if_pos h, hmod, hdiv, wrap64_add_left, Int.add_mul]
      congr 2
      dsimp only
      omega
    · -- a carry takes the flat index back over the axis
      obtain ⟨hlast, hmod, hdiv⟩ := tmod_succ_of_eq hi hdim h
      have hquot : 0 ≤ i.tdiv dim := Int.tdiv_nonneg hi (Int.le_of_lt hdim)
      have hback : wrap64 (wrap64 n + stride - stride * dim) = wrap64 (n - (dim - 1) * stride) := by
        have heq : wrap64 n + stride - stride * dim = wrap64 n + (stride - stride * dim) := by omega
        rw [heq, wrap64_add_left, Int.sub_mul, Int.mul_comm dim]
        congr 1
        omega
      simp only [if_neg h]
      rw [hback, ih (fun a ha => hpos a (.tail _ ha)) hquot, hlast, hmod, hdiv]
      simp only [Prod.mk.injEq, true_and]
      congr 1
      omega

theorem next_start {dims strides : List Int} (hpos : ∀ d ∈ dims, 0 < d) (i : Nat) :
    (start dims strides i).next = start dims strides (i + 1) := by
  have haxes : ∀ a ∈ (dims.zip strides).reverse, 0 < a.1 := by
    intro a ha
    exact hpos a.1 (List.of_mem_zip (List.mem_reverse.mp ha)).1
  have hsource := source_start dims strides i
  have hstep := advance_axesAt haxes (Int.natCast_nonneg i) (offset (axesAt (dims.zip strides).reverse i))
  rw [Int.sub_self, Int.zero_add, ← hsource] at hstep
  have hnext : (start dims strides i).next =
      ⟨(advance (axesAt (dims.zip strides).reverse i) (start dims strides i).source).1,
        (advance (axesAt (dims.zip strides).reverse i) (start dims strides i).source).2⟩ := rfl
  rw [hnext, hstep]
  have hsource' := source_start dims strides (i + 1)
  rw [Int.natCast_add, Int.natCast_one] at hsource'
  rw [← hsource']
  rfl

end Cursor

/-! ## Elements -/

variable {α : Type} {src : Array α} {dims strides : List Int}

/-- The element of the operand at a place. -/
def elementAt (src : Array α) (c : Cursor) : Option α := if c.source < 0 then none else src[c.source.toNat]?

/-- The element of the output at a flat index. -/
def transposedAt (src : Array α) (dims strides : List Int) (i : Nat) : Option α :=
  elementAt src (.start dims strides i)

theorem size_collect_le (src : Array α) (count : Nat) (c : Cursor) (out : Array α) :
    (collect src count c out).1.size ≤ out.size + count := by
  induction count generalizing c out with
  | zero => exact Nat.le_refl _
  | succ count ih =>
    rw [collect]
    split
    · rename_i x _
      have := ih c.next (out.push x)
      rw [Array.size_push] at this
      omega
    · exact Nat.le_add_right ..

/-- Collecting follows the cursor, element by element. -/
theorem collect_spec (src : Array α) (strides : List Int) (hpos : ∀ d ∈ dims, 0 < d) (count i : Nat) (out : Array α) :
    let r := collect src count (.start dims strides i) out
    (r.2 = none → r.1.size = out.size + count ∧ (∀ k : Nat, k < out.size → r.1[k]? = out[k]?) ∧
      ∀ k : Nat, k < count → r.1[out.size + k]? = transposedAt src dims strides (i + k)) ∧
    (r.2 ≠ none → ∃ k : Nat, k < count ∧ transposedAt src dims strides (i + k) = none) := by
  induction count generalizing i out with
  | zero => exact ⟨fun _ => ⟨rfl, fun _ _ => rfl, fun k hk => absurd hk (Nat.not_lt_zero k)⟩, fun h => absurd rfl h⟩
  | succ count ih =>
    rw [collect]
    have hplace : (if (Cursor.start dims strides i).source < 0 then none
        else src[(Cursor.start dims strides i).source.toNat]?) = transposedAt src dims strides i := rfl
    rw [hplace]
    cases hx : transposedAt src dims strides i with
    | none => exact ⟨fun h => absurd h (Option.some_ne_none _), fun _ => ⟨0, by omega, hx⟩⟩
    | some x =>
      simp only
      rw [Cursor.next_start hpos]
      obtain ⟨hok, hfail⟩ := ih (i + 1) (out.push x)
      refine ⟨fun h => ?_, fun h => ?_⟩
      · obtain ⟨hsize, hold, hnew⟩ := hok h
        rw [Array.size_push] at hsize hold hnew
        refine ⟨by omega, fun k hk => ?_, fun k hk => ?_⟩
        · rw [hold k (by omega), Array.getElem?_push, if_neg (by omega)]
        · -- the first element is the one that was just added
          cases k with
          | zero =>
            simp only [Nat.add_zero]
            rw [hold out.size (by omega), Array.getElem?_push_size, hx]
          | succ k =>
            have hget := hnew k (by omega)
            have hleft : out.size + (k + 1) = out.size + 1 + k := by omega
            have hright : i + (k + 1) = i + 1 + k := by omega
            rwa [hleft, hright]
      · obtain ⟨k, hk, hnone⟩ := hfail h
        refine ⟨k + 1, by omega, ?_⟩
        have hright : i + (k + 1) = i + 1 + k := by omega
        rwa [hright]

theorem pointwise_transpose (src : Array α) (strides : List Int) (hpos : ∀ d ∈ dims, 0 < d) (r : Range) :
    Pointwise (transpose src dims strides) (transposedAt src dims strides) r := by
  obtain ⟨hok, hfail⟩ := collect_spec src strides hpos (r.stop - r.start) r.start #[]
  simp only [Array.size_empty, Nat.zero_add] at hok
  refine ⟨fun h => (hok h).1, fun h i hstart hstop => ?_, fun h => ?_⟩
  · have hget := (hok h).2.2 (i - r.start) (by omega)
    rwa [Nat.add_sub_cancel' hstart] at hget
  · obtain ⟨k, hk, hnone⟩ := hfail h
    exact ⟨r.start + k, by omega, by omega, hnone⟩

/-- The transposed operand, if all its elements are within the operand. -/
def transposed? (src : Array α) (dims strides : List Int) (n : Nat) : Option (Array α) :=
  table? n (transposedAt src dims strides)

theorem size_transpose_le (src : Array α) (dims strides : List Int) (r : Range) :
    (transpose src dims strides r).1.size ≤ r.stop - r.start := by
  have hle := size_collect_le src (r.stop - r.start) (.start dims strides r.start) #[]
  rwa [Array.size_empty, Nat.zero_add] at hle

theorem overRanges_transpose (src : Array α) (strides : List Int) {ranges : List Range} {out : Array α}
    (hpos : ∀ d ∈ dims, 0 < d) (hranges : Covers ranges out.size) :
    let r := overRanges ranges (transpose src dims strides) out
    r.1.size = out.size ∧ (r.2 = none → transposed? src dims strides out.size = some r.1) ∧
    (r.2 ≠ none → transposed? src dims strides out.size = none) := by
  refine ⟨?_, overRanges_table hranges fun r _ => pointwise_transpose src strides hpos r⟩
  exact size_overRanges hranges.toApart (Nat.le_refl _) fun r _ => size_transpose_le src dims strides r

theorem transpose_fault {r : Range} {fault : Fault} (h : (transpose src dims strides r).2 = some fault) :
    fault = .outOfBounds := by
  suffices hcollect : ∀ (count : Nat) (c : Cursor) (out : Array α),
      (collect src count c out).2 = some fault → fault = .outOfBounds from hcollect _ _ _ h
  intro count
  induction count with
  | zero => exact fun _ _ h => nomatch h
  | succ count ih =>
    intro c out h
    rw [collect] at h
    split at h
    · exact ih _ _ h
    · exact (Option.some.inj h).symm

theorem overRanges_transpose_fault {ranges : List Range} {out : Array α} {fault : Fault}
    (h : (overRanges ranges (transpose src dims strides) out).2 = some fault) : fault = .outOfBounds := by
  rw [overRanges_snd] at h
  obtain ⟨r, -, hr⟩ := List.exists_of_findSome?_eq_some h
  exact transpose_fault hr

/-! ## Bounds -/

theorem Cursor.offset_bounds {axes : List (Int × Int)} (hdims : ∀ a ∈ axes, 0 < a.1)
    (hstrides : ∀ a ∈ axes, 0 ≤ a.2) {i : Int} (hi : 0 ≤ i) :
    0 ≤ offset (axesAt axes i) ∧ offset (axesAt axes i) ≤ (axes.map fun a => (a.1 - 1) * a.2).sum := by
  induction axes generalizing i with
  | nil => exact ⟨Int.le_refl 0, Int.le_refl 0⟩
  | cons a axes ih =>
    obtain ⟨dim, stride⟩ := a
    have hdim : 0 < dim := hdims (dim, stride) (.head _)
    have hstride : 0 ≤ stride := hstrides (dim, stride) (.head _)
    obtain ⟨hlow, hhigh⟩ := ih (fun a ha => hdims a (.tail _ ha))
      (fun a ha => hstrides a (.tail _ ha)) (Int.tdiv_nonneg hi (Int.le_of_lt hdim))
    have hindex : 0 ≤ i.tmod dim ∧ i.tmod dim ≤ dim - 1 := by
      rw [Int.tmod_eq_emod_of_nonneg hi]
      have hnonneg := Int.emod_nonneg i (show dim ≠ 0 by omega)
      have hlt := Int.emod_lt_of_pos i hdim
      omega
    have hterm : 0 ≤ i.tmod dim * stride ∧ i.tmod dim * stride ≤ (dim - 1) * stride :=
      ⟨Int.mul_nonneg hindex.1 hstride, Int.mul_le_mul_of_nonneg_right hindex.2 hstride⟩
    rw [offset_axesAt_cons, List.map_cons, List.sum_cons]
    dsimp only
    omega

theorem transposedAt_isSome (hdims : ∀ d ∈ dims, 0 < d) (hstrides : ∀ stride ∈ strides, 0 ≤ stride)
    (hlast : ((dims.zip strides).map fun p => (p.1 - 1) * p.2).sum < (src.size : Int))
    (hsmall : (src.size : Int) < wordLimit) (i : Nat) : (transposedAt src dims strides i).isSome = true := by
  have hpairs : ∀ a ∈ (dims.zip strides).reverse, 0 < a.1 ∧ 0 ≤ a.2 := by
    intro a ha
    have hmem := List.of_mem_zip (List.mem_reverse.mp ha)
    exact ⟨hdims a.1 hmem.1, hstrides a.2 hmem.2⟩
  obtain ⟨hlow, hhigh⟩ := Cursor.offset_bounds (fun a ha => (hpairs a ha).1) (fun a ha => (hpairs a ha).2)
    (Int.natCast_nonneg i)
  rw [List.map_reverse, List.sum_reverse] at hhigh
  have hsource : (Cursor.start dims strides i).source =
      Cursor.offset (Cursor.axesAt (dims.zip strides).reverse i) := by
    rw [Cursor.source_start]
    exact wrap64_eq_self (by unfold wordLimit; omega) (by omega)
  rw [transposedAt, elementAt, if_neg (by omega), Array.getElem?_eq_getElem (by omega)]
  rfl

theorem Cursor.offset_axesAt_add {dim stride c i : Int} (axes : List (Int × Int)) (hc : 0 ≤ c) (hlt : c < dim)
    (hi : 0 ≤ i) :
    offset (axesAt ((dim, stride) :: axes) (c + dim * i)) = c * stride + offset (axesAt axes i) := by
  have hnonneg : 0 ≤ c + dim * i := Int.add_nonneg hc (Int.mul_nonneg (by omega) hi)
  have hmod : (c + dim * i).tmod dim = c := by
    rw [Int.tmod_eq_emod_of_nonneg hnonneg, Int.add_mul_emod_self_left, Int.emod_eq_of_lt hc hlt]
  have hdiv : (c + dim * i).tdiv dim = i := by
    rw [Int.tdiv_eq_ediv_of_nonneg hnonneg, Int.add_mul_ediv_left _ _ (by omega), Int.ediv_eq_zero_of_lt hc hlt,
      Int.zero_add]
  rw [offset_axesAt_cons, hmod, hdiv]

theorem Cursor.offset_axesAt_zero (axes : List (Int × Int)) : offset (axesAt axes 0) = 0 := by
  induction axes with
  | nil => rfl
  | cons a axes ih => rw [offset_axesAt_cons, Int.zero_tmod, Int.zero_tdiv, ih, Int.zero_mul, Int.add_zero]

end LazyTensor.Kernel
