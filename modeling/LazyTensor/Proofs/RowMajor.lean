import LazyTensor.Proofs.Size
import Mathlib.Algebra.BigOperators.Group.List.Basic
import Mathlib.Data.List.Forall2
import Mathlib.Data.List.Nodup

/-!
# Row-major order

The elements of a tensor are counted in row-major order: along the last axis first. An index has a coordinate on
each axis, and `rowMajor` is its place in that order. Every place is the one of an index, and strides add up to it.

A permutation of the axes reorders what there is one of for each axis: dimensions, strides and coordinates. A sum
over the axes does not depend on their order.
-/

namespace LazyTensor

open List

/-! ## Indices and their places -/

/-- A coordinate on each axis. -/
def IsIndex (dims index : List Int) : Prop := List.Forall₂ (fun d x => 0 ≤ x ∧ x < d) dims index

/-- The place of an index among all of them. -/
def rowMajor : (dims index : List Int) → Int
  | _ :: dims, x :: index => x * dims.prod + rowMajor dims index
  | _, _ => 0

/-- The element of a tensor at an index. -/
def component? {α : Type} (dims : List Int) (data : Array α) (index : List Int) : Option α :=
  data[(rowMajor dims index).toNat]?

variable {dims index : List Int}

theorem rowMajor_bounds (h : IsIndex dims index) : 0 ≤ rowMajor dims index ∧ rowMajor dims index < dims.prod := by
  induction h with
  | nil => decide
  | @cons d x dims index hx h ih =>
    rw [rowMajor, prod_cons]
    have hprod : 0 ≤ dims.prod := by omega
    have hlow : 0 ≤ x * dims.prod := Int.mul_nonneg hx.1 hprod
    -- the coordinate is at most the last one
    have hhigh : (x + 1) * dims.prod ≤ d * dims.prod := Int.mul_le_mul_of_nonneg_right hx.2 hprod
    rw [Int.add_mul] at hhigh
    omega

theorem exists_rowMajor_eq (hpos : ∀ d ∈ dims, 0 < d) {n : Int} (hn : 0 ≤ n) (hlt : n < dims.prod) :
    ∃ index, IsIndex dims index ∧ rowMajor dims index = n := by
  induction dims generalizing n with
  | nil =>
    rw [prod_nil] at hlt
    refine ⟨[], .nil, ?_⟩
    show 0 = n
    omega
  | cons d dims ih =>
    have hpos' : ∀ d' ∈ dims, 0 < d' := fun d' hd' => hpos d' (.tail _ hd')
    have hprod : 0 < dims.prod := prod_pos hpos'
    -- the first coordinate is the quotient, and the others belong to the remainder
    obtain ⟨index, hindex, hrest⟩ := ih hpos' (Int.emod_nonneg n (by omega)) (Int.emod_lt_of_pos n hprod)
    have hfirst : 0 ≤ n / dims.prod ∧ n / dims.prod < d :=
      ⟨Int.ediv_nonneg hn (by omega), Int.ediv_lt_of_lt_mul hprod hlt⟩
    refine ⟨n / dims.prod :: index, .cons hfirst hindex, ?_⟩
    rw [rowMajor, hrest, Int.mul_comm]
    exact Int.mul_ediv_add_emod n dims.prod

theorem exists_component? {α : Type} {data : Array α} (hsize : (data.size : Int) = dims.prod) (h : IsIndex dims index) :
    ∃ x, component? dims data index = some x := by
  have hbounds := rowMajor_bounds h
  exact ⟨_, Array.getElem?_eq_getElem (show (rowMajor dims index).toNat < data.size by omega)⟩

theorem eq_of_component?_eq {α : Type} {data data' : Array α} (hpos : ∀ d ∈ dims, 0 < d)
    (hsize : (data.size : Int) = dims.prod) (hsize' : (data'.size : Int) = dims.prod)
    (h : ∀ index, IsIndex dims index → component? dims data index = component? dims data' index) : data = data' := by
  refine Array.ext_getElem? fun i => ?_
  by_cases hi : i < data.size
  · obtain ⟨index, hindex, hplace⟩ := exists_rowMajor_eq hpos (Int.natCast_nonneg i) (show (i : Int) < dims.prod by omega)
    have hsame := h index hindex
    rwa [component?, component?, hplace] at hsame
  · rw [Array.getElem?_eq_none (by omega), Array.getElem?_eq_none (by omega)]

theorem Shape.sum_index_strides (hpos : ∀ d ∈ dims, 0 < d) (hsmall : dims.prod < wordLimit)
    (h : IsIndex dims index) : (zipWith (· * ·) index (Shape.stridesOf dims)).sum = rowMajor dims index := by
  induction h with
  | nil => rfl
  | @cons d x dims index hx h ih =>
    have hle := prod_le_prod_cons hpos
    rw [Shape.stridesOf_cons hpos hsmall, zipWith_cons_cons, sum_cons, rowMajor,
      ih (fun d' hd' => hpos d' (.tail _ hd')) (by omega)]

/-! ## Reordered axes -/

def axesInOrder (rank : Nat) : List Int := (List.range rank).map Int.ofNat

/-- What there is for each axis, in the order of a permutation. -/
def Reorders (permutation xs ys : List Int) : Prop := ys.map some = permutation.map fun axis => xs[axis.toNat]?

namespace Reorders

variable {rank : Nat} {permutation xs ys zs ws : List Int}

theorem eq_map (h : Reorders permutation xs ys) : ys = permutation.map fun axis => xs.getD axis.toNat 0 := by
  have hgetD : (ys.map some).map (·.getD 0) = ys := by
    rw [List.map_map]
    exact List.map_id ys
  rw [← hgetD, h, List.map_map]
  apply map_congr_left
  intro axis _
  exact getD_eq_getElem?_getD.symm

theorem length_eq (h : Reorders permutation xs ys) : ys.length = permutation.length := by
  rw [h.eq_map, length_map]

theorem getElem?_eq (h : Reorders permutation xs ys) {a : Nat} {axis : Int} (ha : permutation[a]? = some axis) :
    ys[a]? = xs[axis.toNat]? := by
  have hget : (ys.map some)[a]? = (permutation.map fun axis => xs[axis.toNat]?)[a]? := by rw [h]
  rw [getElem?_map, getElem?_map, ha] at hget
  cases hy : ys[a]? with
  | none =>
    rw [hy] at hget
    cases hget
  | some y =>
    rw [hy] at hget
    exact Option.some.inj hget

theorem of_getElem?_eq (hlength : ys.length = permutation.length)
    (h : ∀ (a : Nat) (axis : Int), permutation[a]? = some axis → ys[a]? = xs[axis.toNat]?) :
    Reorders permutation xs ys := by
  refine ext_getElem? fun a => ?_
  rw [getElem?_map, getElem?_map]
  cases ha : permutation[a]? with
  | none =>
    rw [List.getElem?_eq_none_iff] at ha
    rw [getElem?_eq_none (by omega)]
    rfl
  | some axis =>
    have hlt : a < ys.length := by
      rw [hlength]
      exact (List.getElem?_eq_some_iff.mp ha).1
    show (ys[a]?).map some = some xs[axis.toNat]?
    rw [← h a axis ha, getElem?_eq_getElem hlt]
    rfl

section

variable (haxes : permutation.Perm (axesInOrder rank))

include haxes

theorem length_axes : permutation.length = rank := by
  rw [haxes.length_eq, axesInOrder, length_map, length_range]

theorem exists_getElem? {axis : Nat} (h : axis < rank) : ∃ a : Nat, a < rank ∧ permutation[a]? = some (axis : Int) := by
  have hmem : (axis : Int) ∈ permutation := by
    rw [haxes.mem_iff]
    exact List.mem_map.mpr ⟨axis, mem_range.mpr h, rfl⟩
  obtain ⟨a, ha⟩ := mem_iff_getElem?.mp hmem
  have hlt := (List.getElem?_eq_some_iff.mp ha).1
  exact ⟨a, by rw [length_axes haxes] at hlt; exact hlt, ha⟩

theorem perm (h : Reorders permutation xs ys) (hlength : xs.length = rank) : ys.Perm xs := by
  have hinOrder : xs = (axesInOrder rank).map fun axis => xs.getD axis.toNat 0 := by
    refine ext_getElem (by simp [axesInOrder, hlength]) fun a ha _ => ?_
    simp [axesInOrder, getElem?_eq_getElem ha]
  rw [h.eq_map]
  nth_rewrite 2 [hinOrder]
  exact haxes.map _

theorem sum_mul_eq (h : Reorders permutation xs ys) (h' : Reorders permutation zs ws)
    (hxs : xs.length = rank) (hzs : zs.length = rank) :
    (zipWith (· * ·) ys ws).sum = (zipWith (· * ·) xs zs).sum := by
  have hproducts : Reorders permutation (zipWith (· * ·) xs zs) (zipWith (· * ·) ys ws) := by
    apply of_getElem?_eq
    · rw [length_zipWith, h.length_eq, h'.length_eq, Nat.min_self]
    · intro a axis ha
      rw [getElem?_zipWith, getElem?_zipWith, h.getElem?_eq ha, h'.getElem?_eq ha]
  refine (hproducts.perm haxes ?_).sum_eq
  rw [length_zipWith, hxs, hzs, Nat.min_self]

theorem isIndex (h : Reorders permutation dims xs) (h' : Reorders permutation index ys) (hdims : dims.length = rank)
    (hindex : index.length = rank) (hys : IsIndex xs ys) : IsIndex dims index := by
  refine List.forall₂_iff_get.mpr ⟨hdims.trans hindex.symm, fun axis hdim hlt => ?_⟩
  obtain ⟨a, -, ha⟩ := exists_getElem? haxes (show axis < rank by omega)
  have hx := h.getElem?_eq ha
  have hy := h'.getElem?_eq ha
  rw [Int.toNat_natCast, getElem?_eq_getElem hdim] at hx
  rw [Int.toNat_natCast, getElem?_eq_getElem hlt] at hy
  obtain ⟨hxs, hx⟩ := List.getElem?_eq_some_iff.mp hx
  obtain ⟨hlt', hy⟩ := List.getElem?_eq_some_iff.mp hy
  have hbounds := (List.forall₂_iff_get.mp hys).2 a hxs hlt'
  rw [get_eq_getElem, get_eq_getElem] at hbounds ⊢
  rwa [← hx, ← hy]

theorem exists_reorders (hys : ys.length = rank) : ∃ index, index.length = rank ∧ Reorders permutation index ys := by
  -- the coordinate on an axis stands where the permutation has the axis
  refine ⟨(range rank).map fun axis : Nat => ys.getD (permutation.idxOf (axis : Int)) 0, by simp, ?_⟩
  apply of_getElem?_eq (hys.trans (length_axes haxes).symm)
  intro a axis ha
  obtain ⟨hlt, rfl⟩ := List.getElem?_eq_some_iff.mp ha
  have hnodup : permutation.Nodup := by
    rw [haxes.nodup_iff]
    exact List.Nodup.map Int.ofNat_injective nodup_range
  have hidx : permutation.idxOf permutation[a] = a := hnodup.idxOf_getElem a hlt
  obtain ⟨axis, haxis, heq⟩ := List.mem_map.mp (haxes.mem_iff.mp (getElem_mem hlt))
  rw [mem_range] at haxis
  rw [← heq] at hidx ⊢
  have hidx : permutation.idxOf (axis : Int) = a := hidx
  rw [length_axes haxes] at hlt
  simp [haxis, hidx, getElem?_eq_getElem (show a < ys.length by omega)]

theorem exists_index (h : Reorders permutation dims xs) (hdims : dims.length = rank) (hys : IsIndex xs ys) :
    ∃ index, IsIndex dims index ∧ Reorders permutation index ys := by
  have hlength : ys.length = rank := by
    rw [← hys.length_eq, h.length_eq, length_axes haxes]
  obtain ⟨index, hindex, h'⟩ := exists_reorders haxes hlength
  exact ⟨index, h.isIndex haxes h' hdims hindex hys, h'⟩

end

theorem unique (h : Reorders permutation xs ys) (h' : Reorders permutation xs zs) : ys = zs := by
  rw [h.eq_map, h'.eq_map]

theorem of_inverse {inverse : List Int} (h : Reorders permutation xs ys) (haxes : inverse.Perm (axesInOrder rank))
    (hinverse : Reorders inverse permutation (axesInOrder rank)) (hxs : xs.length = rank) : Reorders inverse ys xs := by
  apply of_getElem?_eq (hxs.trans (length_axes haxes).symm)
  intro axis a ha
  have hlt : axis < rank := by
    rw [← length_axes haxes]
    exact (List.getElem?_eq_some_iff.mp ha).1
  have haxis := hinverse.getElem?_eq ha
  rw [axesInOrder, getElem?_map, getElem?_range hlt] at haxis
  exact (h.getElem?_eq haxis.symm).symm

end Reorders

end LazyTensor
