import LazyTensor.Proofs.Kernel.Order
import LazyTensor.Proofs.Number
import LazyTensor.Proofs.RowMajor
import Mathlib.Algebra.BigOperators.Group.Finset.Basic
import Mathlib.Tactic.Ring

/-!
# Products of integers modulo `2 ^ width`

Each element of a batch of products is a sum over the inner dimension of products of elements, or that sum and the
old element with coefficients. The kernel computes with words, so the elements are these integers modulo `2 ^ width`,
whichever ranges of rows it works on.

A row is written from left to right, and each element only depends on what stood in its own place (`elementOf`). The
rows before a row are done and the others are as they were (`upTo_integerStep`).
-/

namespace LazyTensor.Kernel

open List Option

variable {f : IntFormat}

/-! ## Exact products -/

/-- The value of the element at an index. -/
def componentValue (dims : List Int) (data : Array (IntWord f)) (index : List Int) : Int :=
  ((component? dims data index).map IntWord.value).getD 0

/-- The element at an index of the product of two batches of matrices, in the integers. -/
def exactProduct (d : ProductDims) (lhs rhs : Array (IntWord f)) : (index : List Int) → Int
  | [b, i, j] => ∑ p ∈ Finset.range d.k.toNat,
      componentValue [d.batch, d.m, d.k] lhs [b, i, p] * componentValue [d.batch, d.k, d.n] rhs [b, p, j]
  | _ => 0

/-- A sum, or an old value and the sum with coefficients. -/
def combined (coefficients : Option (IntWord f × IntWord f)) (old sum : Int) : Int :=
  match coefficients with
  | some (alpha, beta) => alpha.value * old + beta.value * sum
  | none => sum

/-- The elements are integers modulo `2 ^ width`. -/
structure IsResidue (dims : List Int) (data : Array (IntWord f)) (value : (index : List Int) → Int) : Prop where
  size_eq : (data.size : Int) = dims.prod
  element : ∀ index, IsIndex dims index →
    ∃ x, component? dims data index = some x ∧ x.value ≡ value index [ZMOD 2 ^ f.width]

theorem IsResidue.unique {dims : List Int} {data data' : Array (IntWord f)} {value : List Int → Int}
    (h : IsResidue dims data value) (h' : IsResidue dims data' value) (hpos : ∀ d ∈ dims, 0 < d) : data = data' := by
  apply eq_of_component?_eq hpos h.size_eq h'.size_eq
  intro index hindex
  obtain ⟨x, hx, hmod⟩ := h.element index hindex
  obtain ⟨y, hy, hmod'⟩ := h'.element index hindex
  rw [hx, hy, IntWord.eq_of_modEq (hmod.trans hmod'.symm)]

theorem IsResidue.congr {dims : List Int} {data : Array (IntWord f)} {value value' : List Int → Int}
    (h : IsResidue dims data value) (hvalue : ∀ index, value index ≡ value' index [ZMOD 2 ^ f.width]) :
    IsResidue dims data value' := by
  refine ⟨h.size_eq, fun index hindex => ?_⟩
  obtain ⟨x, hx, hmod⟩ := h.element index hindex
  exact ⟨x, hx, hmod.trans (hvalue index)⟩

theorem componentValue_eq (dims : List Int) (data : Array (IntWord f)) (index : List Int) :
    componentValue dims data index = (data.getD (rowMajor dims index).toNat .zero).value := by
  rw [componentValue, component?, Array.getD_eq_getD_getElem?]
  cases data[(rowMajor dims index).toNat]? with
  | none => exact IntWord.value_zero.symm
  | some x => rfl

theorem rowMajor_three (a b c x y z : Int) : rowMajor [a, b, c] [x, y, z] = (x * b + y) * c + z := by
  simp only [rowMajor, prod_cons, prod_nil]
  ring

/-! ## Elements of a row -/

theorem integerDot_modEq (l r out : Array (IntWord f)) (lhsBase rhsBase k n : Nat) :
    (integerDot (.apart l) (.apart r) out lhsBase rhsBase k n).value ≡
      ∑ p ∈ Finset.range k, (l.getD (lhsBase + p) .zero).value * (r.getD (rhsBase + p * n) .zero).value
      [ZMOD 2 ^ f.width] := by
  unfold integerDot
  induction k with
  | zero =>
    rw [range_zero, foldl_nil, Finset.range_zero, Finset.sum_empty, IntWord.value_zero]
  | succ k ih =>
    rw [range_succ, foldl_append, Finset.sum_range_succ]
    apply (IntWord.value_add _ _).trans
    exact ih.add (IntWord.value_mul _ _)

/-- What is written in place of an element. -/
def elementOf (d : ProductDims) (l r : Array (IntWord f)) (coefficients : Option (IntWord f × IntWord f))
    (row col : Nat) (old : IntWord f) : IntWord f :=
  let sum := integerDot (.apart l) (.apart r) #[] (blockStart row d.k)
    (blockStart ((row : Int) / d.m) (d.k * d.n) + col) d.k.toNat d.n.toNat
  match coefficients with
  | some (alpha, beta) => (alpha.mul old).add (beta.mul sum)
  | none => sum

private theorem getElem?_foldl_setIfInBounds {α : Type} (value : Nat → α → α) (zero : α) (base n : Nat) (out : Array α)
    (i : Nat) :
    ((List.range n).foldl (fun out col => out.setIfInBounds (base + col) (value col (out.getD (base + col) zero)))
      out)[i]? = if base ≤ i ∧ i < base + n then (out[i]?).map (value (i - base)) else out[i]? := by
  induction n with
  | zero =>
    rw [if_neg (by omega)]
    rfl
  | succ n ih =>
    rw [range_succ, foldl_append, foldl_cons, foldl_nil, Array.getElem?_setIfInBounds]
    by_cases hi : base + n = i
    · -- the place of this step has not been written before
      subst hi
      rw [if_neg (by omega)] at ih
      rw [if_pos rfl, if_pos (show base ≤ base + n ∧ base + n < base + (n + 1) by omega), Nat.add_sub_cancel_left,
        Array.getD_eq_getD_getElem?, ih]
      cases hout : out[base + n]? with
      | none =>
        rw [hout, Array.getElem?_eq_none_iff] at ih
        exact if_neg (Nat.not_lt.mpr ih)
      | some x =>
        rw [hout] at ih
        exact if_pos (Array.getElem?_eq_some_iff.mp ih).1
    · rw [if_neg hi, ih]
      by_cases hlt : base ≤ i ∧ i < base + n
      · rw [if_pos hlt, if_pos (by omega)]
      · rw [if_neg hlt, if_neg (by omega)]

theorem getElem?_writeRow (d : ProductDims) (l r : Array (IntWord f)) (coefficients : Option (IntWord f × IntWord f))
    (row : Nat) (out : Array (IntWord f)) (i : Nat) :
    (writeRow d (.apart l) (.apart r) coefficients row out)[i]? =
      if blockStart row d.n ≤ i ∧ i < blockStart row d.n + d.n.toNat then
        (out[i]?).map (elementOf d l r coefficients row (i - blockStart row d.n))
      else out[i]? := by
  rw [← getElem?_foldl_setIfInBounds (elementOf d l r coefficients row) .zero]
  cases coefficients <;> rfl

/-! ## All rows -/

section

variable {d : ProductDims} {l r old : Array (IntWord f)}

theorem blockStart_eq {i length : Int} {size : Nat} (hi : 0 ≤ i) (hlength : 0 ≤ length)
    (hle : (i + 1) * length ≤ size) (hsize : (size : Int) < wordLimit) : (blockStart i length : Int) = i * length := by
  have hstart : 0 ≤ i * length := Int.mul_nonneg hi hlength
  rw [Int.add_mul] at hle
  rw [blockStart, wrap64_eq_self (by unfold wordLimit; omega) (by omega), Int.toNat_of_nonneg hstart]

variable (h : Fitting d l.size r.size old.size)

include h

theorem Fitting.out_block {row : Nat} (hrow : (row : Int) < d.batch * d.m) :
    (blockStart row d.n : Int) = row * d.n ∧ ((row : Int) + 1) * d.n ≤ old.size := by
  have hle : ((row : Int) + 1) * d.n ≤ old.size := by
    rw [h.out_eq, ← Int.mul_assoc]
    exact Int.mul_le_mul_of_nonneg_right hrow (Int.le_of_lt h.n_pos)
  exact ⟨blockStart_eq (Int.natCast_nonneg row) (Int.le_of_lt h.n_pos) hle h.out_lt, hle⟩

theorem Fitting.out_size : old.size = (d.batch * d.m).toNat * d.n.toNat := by
  apply Int.ofNat.inj
  show (old.size : Int) = (((d.batch * d.m).toNat * d.n.toNat : Nat) : Int)
  rw [h.out_eq, Int.natCast_mul, Int.toNat_of_nonneg (Int.mul_nonneg (Int.le_of_lt h.batch_pos) (Int.le_of_lt h.m_pos)),
    Int.toNat_of_nonneg (Int.le_of_lt h.n_pos), Int.mul_assoc]

/-- The first rows have their products, and the others are as they were. -/
theorem upTo_integerStep (coefficients : Option (IntWord f × IntWord f)) {count : Nat}
    (hcount : (count : Int) ≤ d.batch * d.m) :
    ∃ out, upTo (integerStep d (.apart l) (.apart r) coefficients) count 0 old = (out, none) ∧ out.size = old.size ∧
      ∀ i : Nat, out[i]? =
        if i < count * d.n.toNat then (old[i]?).map (elementOf d l r coefficients (i / d.n.toNat) (i % d.n.toNat))
        else old[i]? := by
  induction count with
  | zero => exact ⟨old, rfl, rfl, fun i => by rw [Nat.zero_mul, if_neg (Nat.not_lt_zero i)]⟩
  | succ count ih =>
    obtain ⟨out, hrun, hsize, hout⟩ := ih (by omega)
    have hrow : (count : Int) < d.batch * d.m := by omega
    -- one more row is written from where the others have led to
    have hstep : integerStep d (.apart l) (.apart r) coefficients count out =
        (writeRow d (.apart l) (.apart r) coefficients count out, none) := by
      have hbounds := h.operands.rowInBounds_eq (Int.le_of_eq h.out_eq.symm) h.out_lt hrow
      rw [integerStep_eq, hsize]
      exact if_pos hbounds
    have hsize' := size_integerStep d (.apart l) (.apart r) coefficients count out
    rw [hstep, hsize] at hsize'
    refine ⟨writeRow d (.apart l) (.apart r) coefficients count out, ?_, hsize', fun i => ?_⟩
    · rw [upTo_add_of_none hrun, Nat.zero_add]
      simp only [upTo, hstep]
    · have hbase : blockStart count d.n = count * d.n.toNat := by
        have hblock := (h.out_block hrow).1
        apply Int.ofNat.inj
        show (blockStart count d.n : Int) = ((count * d.n.toNat : Nat) : Int)
        rw [hblock, Int.natCast_mul, Int.toNat_of_nonneg (Int.le_of_lt h.n_pos)]
      rw [getElem?_writeRow, hbase, hout, Nat.succ_mul]
      by_cases hlow : i < count * d.n.toNat
      · rw [if_neg (by omega), if_pos hlow, if_pos (by omega)]
      · by_cases hhigh : i < count * d.n.toNat + d.n.toNat
        · -- a place of this row
          have hdiv : i / d.n.toNat = count := by
            apply Nat.div_eq_of_lt_le
            · omega
            · rw [Nat.succ_mul]
              omega
          have hmod : i % d.n.toNat = i - count * d.n.toNat := by
            have hsplit := Nat.div_add_mod i d.n.toNat
            rw [hdiv, Nat.mul_comm] at hsplit
            omega
          rw [if_pos (by omega), if_neg hlow, if_pos hhigh, hdiv, hmod]
        · rw [if_neg (by omega), if_neg hlow, if_neg hhigh]

/-- Every division of the rows gives the same product. -/
theorem exists_integerProduct_elements (coefficients : Option (IntWord f × IntWord f)) :
    ∃ out, out.size = old.size ∧
      (∀ ranges, Covers ranges (d.batch * d.m).toNat →
        integerProduct ranges d (.apart l) (.apart r) coefficients old = (out, none)) ∧
      ∀ i : Nat, out[i]? = (old[i]?).map (elementOf d l r coefficients (i / d.n.toNat) (i % d.n.toNat)) := by
  have hrows : 0 < d.batch * d.m := Int.mul_pos h.batch_pos h.m_pos
  have hcount : (((d.batch * d.m).toNat : Nat) : Int) ≤ d.batch * d.m := by omega
  obtain ⟨out, hrun, hsize, hout⟩ := upTo_integerStep h coefficients hcount
  refine ⟨out, hsize, fun ranges hranges => ?_, fun i => ?_⟩
  · -- one range of all rows leads there, and so do all others
    have hone : Covers [⟨0, (d.batch * d.m).toNat⟩] (d.batch * d.m).toNat :=
      (Consecutive.cons ⟨0, (d.batch * d.m).toNat⟩ (by simp only; omega) (.nil _)).covers
    have hn : d.n < wordLimit := by
      have hrow : (0 + 1) * d.n ≤ old.size := (h.out_block hrows).2
      have hlt := h.out_lt
      omega
    have hsame : completed? (integerProduct ranges d (.apart l) (.apart r) coefficients old) =
        completed? (integerProduct [⟨0, (d.batch * d.m).toNat⟩] d (.apart l) (.apart r) coefficients old) :=
      integerProduct_eq hranges hone h.n_pos hn h.out_lt
    have hall : integerProduct [⟨0, (d.batch * d.m).toNat⟩] d (.apart l) (.apart r) coefficients old = (out, none) := by
      rw [integerProduct_eq_foldl, foldl_cons, foldl_nil, rangeSteps]
      simp only [Nat.sub_zero, hrun, or_none]
    rw [hall] at hsame
    rcases completed?_cases hsame with ⟨out', hrun', hall'⟩ | ⟨_, _, _, _, _, hall'⟩
    · rw [hrun', hall']
    · cases hall'
  · rw [hout]
    by_cases hi : i < (d.batch * d.m).toNat * d.n.toNat
    · rw [if_pos hi]
    · -- there are no other elements
      rw [if_neg hi, Array.getElem?_eq_none (by rw [h.out_size]; omega)]
      rfl

/-- A row times a column is the exact sum of products, as a word. -/
theorem integerDot_row {b i j : Int} (hindex : IsIndex [d.batch, d.m, d.n] [b, i, j]) {row : Nat}
    (hrow : (row : Int) = b * d.m + i) (out : Array (IntWord f)) :
    (integerDot (.apart l) (.apart r) out (blockStart row d.k) (blockStart b (d.k * d.n) + j.toNat) d.k.toNat
      d.n.toNat).value ≡ exactProduct d l r [b, i, j] [ZMOD 2 ^ f.width] := by
  obtain _ | ⟨⟨hb, hbatch⟩, _ | ⟨⟨hi, hm⟩, _ | ⟨⟨hj, hn⟩, _⟩⟩⟩ := hindex
  have hrow' : (row : Int) < d.batch * d.m := by
    have hle : (b + 1) * d.m ≤ d.batch * d.m := Int.mul_le_mul_of_nonneg_right hbatch (Int.le_of_lt h.m_pos)
    rw [Int.add_mul] at hle
    omega
  have hkn : 0 < d.k * d.n := Int.mul_pos h.k_pos h.n_pos
  have hlhs : ((row : Int) + 1) * d.k ≤ l.size := by
    rw [h.lhs_eq, ← Int.mul_assoc]
    exact Int.mul_le_mul_of_nonneg_right hrow' (Int.le_of_lt h.k_pos)
  have hrhs : (b + 1) * (d.k * d.n) ≤ r.size := by
    rw [h.rhs_eq]
    exact Int.mul_le_mul_of_nonneg_right hbatch (Int.le_of_lt hkn)
  have hlhsStart := blockStart_eq (Int.natCast_nonneg row) (Int.le_of_lt h.k_pos) hlhs h.lhs_lt
  have hrhsStart := blockStart_eq hb (Int.le_of_lt hkn) hrhs h.rhs_lt
  have hsum := integerDot_modEq l r out (blockStart row d.k) (blockStart b (d.k * d.n) + j.toNat) d.k.toNat d.n.toNat
  rw [exactProduct]
  convert hsum using 2
  rename_i p _
  rw [componentValue_eq, componentValue_eq]
  -- the places that the kernel reads are those of the indices
  have hleft : (rowMajor [d.batch, d.m, d.k] [b, i, p]).toNat = blockStart row d.k + p := by
    have hplace : rowMajor [d.batch, d.m, d.k] [b, i, p] = ((blockStart row d.k + p : Nat) : Int) := by
      rw [rowMajor_three, Int.natCast_add, hlhsStart, hrow]
    rw [hplace, Int.toNat_natCast]
  have hright : (rowMajor [d.batch, d.k, d.n] [b, p, j]).toNat = blockStart b (d.k * d.n) + j.toNat + p * d.n.toNat := by
    have hplace : rowMajor [d.batch, d.k, d.n] [b, p, j] =
        ((blockStart b (d.k * d.n) + j.toNat + p * d.n.toNat : Nat) : Int) := by
      rw [rowMajor_three, Int.natCast_add, Int.natCast_add, Int.natCast_mul, hrhsStart, Int.toNat_of_nonneg hj,
        Int.toNat_of_nonneg (Int.le_of_lt h.n_pos)]
      ring
    rw [hplace, Int.toNat_natCast]
  rw [hleft, hright]

theorem elementOf_modEq (coefficients : Option (IntWord f × IntWord f)) {b i j : Int}
    (hindex : IsIndex [d.batch, d.m, d.n] [b, i, j]) (x : IntWord f) :
    (elementOf d l r coefficients ((rowMajor [d.batch, d.m, d.n] [b, i, j]).toNat / d.n.toNat)
      ((rowMajor [d.batch, d.m, d.n] [b, i, j]).toNat % d.n.toNat) x).value ≡
      combined coefficients x.value (exactProduct d l r [b, i, j]) [ZMOD 2 ^ f.width] := by
  obtain ⟨row, hrow⟩ : ∃ row : Nat, (row : Int) = b * d.m + i := by
    obtain _ | ⟨⟨hb, _⟩, _ | ⟨⟨hi, _⟩, _⟩⟩ := hindex
    have hnonneg : 0 ≤ b * d.m + i := Int.add_nonneg (Int.mul_nonneg hb (Int.le_of_lt h.m_pos)) hi
    exact ⟨(b * d.m + i).toNat, Int.toNat_of_nonneg hnonneg⟩
  have hdot := integerDot_row h hindex hrow #[]
  obtain _ | ⟨⟨hb, hbatch⟩, _ | ⟨⟨hi, hm⟩, _ | ⟨⟨hj, hn⟩, _⟩⟩⟩ := hindex
  -- the place of an element gives back its row and its column
  have hplace : (rowMajor [d.batch, d.m, d.n] [b, i, j]).toNat = d.n.toNat * row + j.toNat := by
    have hplace : rowMajor [d.batch, d.m, d.n] [b, i, j] = ((d.n.toNat * row + j.toNat : Nat) : Int) := by
      rw [rowMajor_three, Int.natCast_add, Int.natCast_mul, hrow, Int.toNat_of_nonneg hj,
        Int.toNat_of_nonneg (Int.le_of_lt h.n_pos)]
      ring
    rw [hplace, Int.toNat_natCast]
  have hcol : j.toNat < d.n.toNat := by omega
  have hdiv : (d.n.toNat * row + j.toNat) / d.n.toNat = row := by
    rw [Nat.mul_add_div (by omega), Nat.div_eq_of_lt hcol, Nat.add_zero]
  have hmod : (d.n.toNat * row + j.toNat) % d.n.toNat = j.toNat := by
    rw [Nat.mul_add_mod, Nat.mod_eq_of_lt hcol]
  have hbatch : (row : Int) / d.m = b := by
    rw [hrow, Int.add_comm, Int.add_mul_ediv_right _ _ (by omega), Int.ediv_eq_zero_of_lt hi hm, Int.zero_add]
  rw [hplace, hdiv, hmod]
  unfold elementOf
  rw [hbatch]
  cases coefficients with
  | none => exact hdot
  | some c =>
    apply (IntWord.value_add _ _).trans
    exact (IntWord.value_mul _ _).add ((IntWord.value_mul _ _).trans (hdot.mul_left _))

theorem exists_integerProduct (coefficients : Option (IntWord f × IntWord f)) :
    ∃ out, out.size = old.size ∧ IsResidue [d.batch, d.m, d.n] out (fun index =>
        combined coefficients (componentValue [d.batch, d.m, d.n] old index) (exactProduct d l r index)) ∧
      ∀ ranges, Covers ranges (d.batch * d.m).toNat →
        integerProduct ranges d (.apart l) (.apart r) coefficients old = (out, none) := by
  obtain ⟨out, hsize, hranges, hout⟩ := exists_integerProduct_elements h coefficients
  have hold : (old.size : Int) = [d.batch, d.m, d.n].prod := by
    rw [h.out_eq]
    simp
  refine ⟨out, hsize, ⟨by rw [hsize, hold], fun index hindex => ?_⟩, hranges⟩
  obtain ⟨x, hx⟩ := exists_component? hold hindex
  have hvalue : componentValue [d.batch, d.m, d.n] old index = x.value := by rw [componentValue, hx]; rfl
  rw [hvalue]
  rw [component?] at hx
  obtain ⟨b, i, j, rfl⟩ := length_eq_three.mp hindex.length_eq.symm
  exact ⟨_, by rw [component?, hout, hx]; rfl, elementOf_modEq h coefficients hindex x⟩

theorem exists_integerProduct_none :
    ∃ out, out.size = old.size ∧ IsResidue [d.batch, d.m, d.n] out (exactProduct d l r) ∧
      ∀ (ranges : List Range) (old' : Array (IntWord f)), Covers ranges (d.batch * d.m).toNat → old'.size = out.size →
        integerProduct ranges d (.apart l) (.apart r) none old' = (out, none) := by
  obtain ⟨out, hsize, hout, -⟩ := exists_integerProduct h none
  refine ⟨out, hsize, hout, fun ranges old' hranges hold => ?_⟩
  rw [← hsize, ← hold] at h
  obtain ⟨out', -, hout', hranges'⟩ := exists_integerProduct h none
  have hpos : ∀ dim ∈ [d.batch, d.m, d.n], 0 < dim := by
    simp [h.batch_pos, h.m_pos, h.n_pos]
  rw [hranges' ranges hranges, hout'.unique hout hpos]

end

end LazyTensor.Kernel
