import LazyTensor.Shape
import Mathlib.Algebra.Ring.Int.Defs
import Mathlib.Algebra.Ring.Nat

/-!
# Sizes in 64 bits

Sizes and strides are products that wrap around in 64 bits. They are congruent to the exact products, and
equal to them if the exact product of all dimensions is small enough.
-/

namespace LazyTensor

open List

/-! ## Words of 64 bits -/

/-- Words are below this. -/
def wordLimit : Int := 9223372036854775808

theorem pow2_64 : ((pow2 64 : Nat) : Int) = 18446744073709551616 := rfl

theorem wrap64_eq_self {n : Int} (hlow : -wordLimit ≤ n) (hhigh : n < wordLimit) : wrap64 n = n := by
  unfold wordLimit at hlow hhigh
  refine Int.bmod_eq_of_le_mul_two ?_ ?_
  · rw [pow2_64]; omega
  · rw [pow2_64]; omega

theorem wrap64_lt_wordLimit (n : Int) : wrap64 n < wordLimit := by
  have h := @Int.bmod_lt n (pow2 64) (by decide)
  exact h

@[simp] theorem wrap64_add_left (m n : Int) : wrap64 (wrap64 m + n) = wrap64 (m + n) := Int.bmod_add_bmod

@[simp] theorem wrap64_mul_left (m n : Int) : wrap64 (wrap64 m * n) = wrap64 (m * n) := Int.bmod_mul_bmod

theorem wrap64_congr {m n : Int} (h : (m - n) % (pow2 64 : Nat) = 0) : wrap64 m = wrap64 n := by
  rw [wrap64, wrap64, ← Int.emod_bmod m, ← Int.emod_bmod n, Int.emod_eq_emod_iff_emod_sub_eq_zero.mpr h]

/-! ## Sizes -/

variable {dims : List Int}

theorem prod_pos (h : ∀ d ∈ dims, 0 < d) : 0 < dims.prod := by
  induction dims with
  | nil => decide
  | cons d dims ih =>
    exact Int.mul_pos (h d (.head _)) (ih fun d' hd' => h d' (.tail _ hd'))

variable {d : Int}

theorem prod_le_prod_cons (h : ∀ d' ∈ d :: dims, 0 < d') : dims.prod ≤ (d :: dims).prod := by
  have hd : 1 ≤ d := h d (.head _)
  have hdims : 0 < dims.prod := prod_pos fun d' hd' => h d' (.tail _ hd')
  have hmul : 1 * dims.prod ≤ d * dims.prod := Int.mul_le_mul_of_nonneg_right hd (Int.le_of_lt hdims)
  rw [prod_cons]
  omega

theorem le_prod (h : ∀ d' ∈ dims, 0 < d') (hd : d ∈ dims) : d ≤ dims.prod := by
  induction dims with
  | nil => cases hd
  | cons d' dims ih =>
    have hdims : ∀ d'' ∈ dims, 0 < d'' := fun d'' hd'' => h d'' (.tail _ hd'')
    rcases mem_cons.mp hd with rfl | hd
    · have hpos : 0 < d := h d (.head _)
      have hprod : 0 < dims.prod := prod_pos hdims
      have hmul : d * 1 ≤ d * dims.prod := Int.mul_le_mul_of_nonneg_left hprod (Int.le_of_lt hpos)
      rw [prod_cons]
      omega
    · exact Int.le_trans (ih hdims hd) (prod_le_prod_cons h)

namespace Shape

theorem size_eq_wrap64 (s : Shape) : s.size = wrap64 s.dims.prod := by
  suffices hfold : ∀ (dims : List Int) (n : Int),
      dims.foldl (fun n d => wrap64 (n * d)) (wrap64 n) = wrap64 (n * dims.prod) by
    have h := hfold s.dims 1
    rwa [Int.one_mul] at h
  intro dims
  induction dims with
  | nil =>
    simp
  | cons d dims ih =>
    intro n
    rw [foldl_cons, wrap64_mul_left, ih, prod_cons, Int.mul_assoc]

theorem size_eq_prod {s : Shape} (hlow : 0 ≤ s.dims.prod) (hhigh : s.dims.prod < wordLimit) :
    s.size = s.dims.prod := by
  rw [size_eq_wrap64, wrap64_eq_self (by unfold wordLimit; omega) hhigh]

theorem stridesOf_cons (hpos : ∀ d' ∈ d :: dims, 0 < d') (hsmall : (d :: dims).prod < wordLimit) :
    stridesOf (d :: dims) = dims.prod :: stridesOf dims := by
  induction dims generalizing d with
  | nil => rfl
  | cons e dims ih =>
    have hpos' : ∀ d' ∈ e :: dims, 0 < d' := fun d' hd' => hpos d' (.tail _ hd')
    have hle : (e :: dims).prod ≤ (d :: e :: dims).prod := prod_le_prod_cons hpos
    have hprod : 0 < (e :: dims).prod := prod_pos hpos'
    have hstride : wrap64 (dims.prod * e) = (e :: dims).prod := by
      rw [Int.mul_comm, ← prod_cons]
      exact wrap64_eq_self (by unfold wordLimit; omega) (by omega)
    rw [stridesOf, ih hpos' (by omega)]
    simp only [hstride]

theorem sum_last (hpos : ∀ d ∈ dims, 0 < d) (hsmall : dims.prod < wordLimit) :
    ((dims.zip (stridesOf dims)).map fun p => (p.1 - 1) * p.2).sum = dims.prod - 1 := by
  induction dims with
  | nil => rfl
  | cons d dims ih =>
    have hpos' : ∀ d' ∈ dims, 0 < d' := fun d' hd' => hpos d' (.tail _ hd')
    have hle := prod_le_prod_cons hpos
    rw [stridesOf_cons hpos hsmall, zip_cons_cons, map_cons, sum_cons, ih hpos' (by omega),
      prod_cons]
    simp only [Int.sub_mul]
    omega

theorem strides_pos (hpos : ∀ d ∈ dims, 0 < d) (hsmall : dims.prod < wordLimit) :
    ∀ stride ∈ stridesOf dims, 0 < stride := by
  induction dims with
  | nil => exact nofun
  | cons d dims ih =>
    have hpos' : ∀ d' ∈ dims, 0 < d' := fun d' hd' => hpos d' (.tail _ hd')
    have hle := prod_le_prod_cons hpos
    rw [stridesOf_cons hpos hsmall]
    intro stride hstride
    rcases mem_cons.mp hstride with rfl | hstride
    · exact prod_pos hpos'
    · exact ih hpos' (by omega) stride hstride

theorem strides_le (hpos : ∀ d ∈ dims, 0 < d) (hsmall : dims.prod < wordLimit) :
    ∀ stride ∈ stridesOf dims, stride ≤ dims.prod := by
  induction dims with
  | nil => exact fun stride hstride => absurd hstride not_mem_nil
  | cons d dims ih =>
    have hpos' : ∀ d' ∈ dims, 0 < d' := fun d' hd' => hpos d' (.tail _ hd')
    have hle := prod_le_prod_cons hpos
    rw [stridesOf_cons hpos hsmall]
    intro stride hstride
    rcases mem_cons.mp hstride with rfl | hstride
    · exact hle
    · exact Int.le_trans (ih hpos' (by omega) stride hstride) hle

@[simp] theorem length_stridesOf (dims : List Int) : (stridesOf dims).length = dims.length := by
  fun_induction stridesOf dims with
  | case1 => rfl
  | case2 d => rfl
  | case3 d e dims hnil ih =>
    rw [hnil] at ih
    cases ih
  | case4 d e dims stride strides hcons ih =>
    rw [hcons] at ih
    simpa using ih

end Shape

end LazyTensor
