import LazyTensor.Kernel.Product
import LazyTensor.Proofs.Kernel.UpTo
import LazyTensor.Proofs.Size

/-!
# Products block by block

A product works through rows or batches one after the other, up to one that is out of bounds. A product
without bias writes every element of the output before it reads it, so that what was there before does not
matter, if at least one row is computed. With dimensions whose products are small enough nothing is out of
bounds.
-/

namespace LazyTensor.Kernel

/-! ## Blocks -/

section Blocks

variable {length : Int} {size count : Nat}

theorem isBlock_iff {i : Int} : isBlock i length size = true ↔ 0 ≤ wrap64 (i * length) ∧
    wrap64 (i * length) ≤ wrap64 ((i + 1) * length) ∧ wrap64 ((i + 1) * length) ≤ size := by
  simp [isBlock, isPart, and_assoc]

theorem isBlock_of_le {i : Int} (hi : 0 ≤ i) (hlength : 0 ≤ length) (hle : (i + 1) * length ≤ size)
    (hsize : (size : Int) < wordLimit) : isBlock i length size = true ∧ (blockStart i length : Int) = i * length := by
  have hstart : 0 ≤ i * length := Int.mul_nonneg hi hlength
  have hsplit : (i + 1) * length = i * length + length := by rw [Int.add_mul, Int.one_mul]
  have hlow : wrap64 (i * length) = i * length := wrap64_eq_self (by unfold wordLimit; omega) (by omega)
  have hhigh : wrap64 ((i + 1) * length) = (i + 1) * length :=
    wrap64_eq_self (by unfold wordLimit; omega) (by omega)
  rw [isBlock_iff, blockStart]
  omega

theorem mul_le_of_isBlock (hpos : 0 < length) (hsmall : length < wordLimit) (hsize : (size : Int) < wordLimit)
    (hblocks : ∀ j : Nat, j < count → isBlock j length size = true) {j : Nat} (hj : j ≤ count) :
    (j : Int) * length ≤ size := by
  induction j with
  | zero =>
    rw [Int.natCast_zero, Int.zero_mul]
    exact Int.natCast_nonneg size
  | succ j ih =>
    obtain ⟨-, hlow, hhigh⟩ := isBlock_iff.mp (hblocks j (by omega))
    have hstart : 0 ≤ (j : Int) * length := Int.mul_nonneg (Int.natCast_nonneg j) (Int.le_of_lt hpos)
    have hsplit : ((j : Int) + 1) * length = j * length + length := by rw [Int.add_mul, Int.one_mul]
    rw [wrap64_eq_self (by unfold wordLimit; omega) (by omega)] at hlow
    -- otherwise the end of the block would wrap around to a negative number
    have hexact : wrap64 (((j : Int) + 1) * length) = (j + 1) * length := by
      rcases Int.lt_or_le ((j + 1) * length) wordLimit with hlt | hge
      · exact wrap64_eq_self (by unfold wordLimit; omega) hlt
      · exfalso
        have hwrap : wrap64 (((j : Int) + 1) * length) = (j + 1) * length - (pow2 64 : Nat) := by
          rw [pow2_64]
          unfold wordLimit at hge hsmall hsize
          have hcongr : wrap64 (((j : Int) + 1) * length) =
              wrap64 ((j + 1) * length - 18446744073709551616) := by
            refine wrap64_congr ?_
            rw [pow2_64]
            omega
          rw [hcongr, wrap64_eq_self (by unfold wordLimit; omega) (by unfold wordLimit; omega)]
        rw [pow2_64] at hwrap
        unfold wordLimit at hge hsmall hsize
        omega
    rwa [Int.natCast_add, Int.natCast_one, ← hexact]

/-- Every index is in one of the blocks. -/
theorem exists_block (hpos : 0 < length) (hcount : 0 < count) (hsize : wrap64 (count * length) = size)
    (hblocks : ∀ j : Nat, j < count → isBlock j length size = true) {i : Nat} (hi : i < size) :
    ∃ j : Nat, j < count ∧ blockStart j length ≤ i ∧ i < blockStart j length + length.toNat := by
  have hlimit : (size : Int) < wordLimit := by
    rw [← hsize]
    exact wrap64_lt_wordLimit _
  rcases Int.lt_or_le length wordLimit with hsmall | hbig
  · have hle := fun j hj => mul_le_of_isBlock hpos hsmall hlimit hblocks (j := j) hj
    have hall : (count : Int) * length = size := by
      have hcountLe := hle count (Nat.le_refl _)
      have hnonneg : 0 ≤ (count : Int) * length := Int.mul_nonneg (Int.natCast_nonneg _) (Int.le_of_lt hpos)
      rw [← hsize, wrap64_eq_self (by unfold wordLimit; omega) (by omega)]
    obtain ⟨n, rfl⟩ := Int.eq_ofNat_of_zero_le (Int.le_of_lt hpos)
    have hn : 0 < n := by omega
    have hj : i / n < count := by
      rw [Nat.div_lt_iff_lt_mul hn]
      omega
    have hdiv := Nat.div_mul_le_self i n
    have hmod := Nat.lt_div_mul_add hn (a := i)
    refine ⟨i / n, hj, ?_⟩
    have hstart : blockStart (i / n : Nat) n = i / n * n := by
      rw [blockStart, wrap64_eq_self (by unfold wordLimit; omega) (by omega)]
      rfl
    omega
  · -- the first block is longer than the data
    refine ⟨0, hcount, ?_⟩
    have hstart : blockStart (0 : Nat) length = 0 := by
      rw [blockStart, Int.natCast_zero, Int.zero_mul]
      rfl
    omega

end Blocks

theorem Source.size_congr {α : Type} (x : Source α) {out out' : Array α} (h : out.size = out'.size) :
    x.size out = x.size out' := by
  cases x with
  | apart data => rfl
  | output => exact h

/-! ## Products of integers -/

variable {ranges : List Range}

section Integer

variable {f : IntFormat} {d : ProductDims} {lhs rhs : Source (IntWord f)}
  {coefficients : Option (IntWord f × IntWord f)} {lhsSize rhsSize : Nat}

/-- One row, or the fault that it is out of bounds. -/
def integerStep (d : ProductDims) (lhs rhs : Source (IntWord f)) (coefficients : Option (IntWord f × IntWord f))
    (row : Nat) (out : Array (IntWord f)) : Outcome (IntWord f) :=
  match integerRow d lhs rhs coefficients out row with
  | some out => (out, none)
  | none => (out, some .outOfBounds)

section

-- a row is not opened here: its bounds take long to evaluate
attribute [local irreducible] integerRow

private theorem integerRows_succ (count row : Nat) (out : Array (IntWord f)) :
    integerRows d lhs rhs coefficients (count + 1) row out =
      match integerRow d lhs rhs coefficients out row with
      | some out => integerRows d lhs rhs coefficients count (row + 1) out
      | none => (out, some .outOfBounds) := rfl

theorem integerRows_eq_upTo (count row : Nat) (out : Array (IntWord f)) :
    integerRows d lhs rhs coefficients count row out = upTo (integerStep d lhs rhs coefficients) count row out := by
  induction count generalizing row out with
  | zero => rfl
  | succ count ih =>
    rw [integerRows_succ]
    cases hrow : integerRow d lhs rhs coefficients out row with
    | none =>
      have hstep : integerStep d lhs rhs coefficients row out = (out, some .outOfBounds) := by
        unfold integerStep
        rw [hrow]
      rw [upTo, hstep]
    | some out' =>
      have hstep : integerStep d lhs rhs coefficients row out = (out', none) := by
        unfold integerStep
        rw [hrow]
      rw [upTo, hstep]
      exact ih (row + 1) out'

end

theorem integerProduct_eq_foldl (ranges : List Range) (out : Array (IntWord f)) :
    integerProduct ranges d lhs rhs coefficients out =
      ranges.foldl (rangeSteps (integerStep d lhs rhs coefficients)) (out, none) := by
  unfold integerProduct
  congr 1
  funext x r
  simp only [rangeSteps, integerRows_eq_upTo]

/-- Whether the blocks of a row are within data of these sizes. -/
def rowInBounds (d : ProductDims) (lhsSize rhsSize outSize row : Nat) : Bool :=
  isBlock row d.k lhsSize && isBlock ((row : Int) / d.m) (d.k * d.n) rhsSize && isBlock row d.n outSize

/-- The output with a row written. -/
def writeRow (d : ProductDims) (lhs rhs : Source (IntWord f)) (coefficients : Option (IntWord f × IntWord f))
    (row : Nat) (out : Array (IntWord f)) : Array (IntWord f) :=
  (List.range d.n.toNat).foldl (fun out col =>
    let sum := integerDot lhs rhs out (blockStart row d.k) (blockStart ((row : Int) / d.m) (d.k * d.n) + col)
      d.k.toNat d.n.toNat
    let value := match coefficients with
      | some (alpha, beta) => (alpha.mul (out.getD (blockStart row d.n + col) .zero)).add (beta.mul sum)
      | none => sum
    out.setIfInBounds (blockStart row d.n + col) value) out

theorem integerRow_eq (row : Nat) (out : Array (IntWord f)) :
    integerRow d lhs rhs coefficients out row =
      if rowInBounds d (lhs.size out) (rhs.size out) out.size row then
        some (writeRow d lhs rhs coefficients row out)
      else none := by
  unfold integerRow rowInBounds writeRow
  dsimp only
  cases isBlock row d.k (lhs.size out) <;> cases isBlock ((row : Int) / d.m) (d.k * d.n) (rhs.size out) <;>
    cases isBlock row d.n out.size <;> rfl

theorem integerStep_eq (row : Nat) (out : Array (IntWord f)) :
    integerStep d lhs rhs coefficients row out =
      if rowInBounds d (lhs.size out) (rhs.size out) out.size row then
        (writeRow d lhs rhs coefficients row out, none)
      else (out, some .outOfBounds) := by
  unfold integerStep
  rw [integerRow_eq]
  cases rowInBounds d (lhs.size out) (rhs.size out) out.size row <;> rfl

theorem size_integerStep (d : ProductDims) (lhs rhs : Source (IntWord f))
    (coefficients : Option (IntWord f × IntWord f)) (row : Nat) (out : Array (IntWord f)) :
    (integerStep d lhs rhs coefficients row out).1.size = out.size := by
  rw [integerStep_eq]
  split
  · exact size_foldl (fun out col => Array.size_setIfInBounds) _ out
  · rfl

theorem agreeOn_integerStep (l r : Array (IntWord f)) (row : Nat) (S : Nat → Prop) (o o' : Array (IntWord f))
    (h : AgreeOn S o o') :
    (integerStep d (.apart l) (.apart r) none row o').2 = (integerStep d (.apart l) (.apart r) none row o).2 ∧
    ((integerStep d (.apart l) (.apart r) none row o).2 = none →
      AgreeOn (fun i => S i ∨ (blockStart row d.n ≤ i ∧ i < blockStart row d.n + d.n.toNat))
        (integerStep d (.apart l) (.apart r) none row o).1 (integerStep d (.apart l) (.apart r) none row o').1) := by
  have hsizes : ∀ out : Array (IntWord f), (Source.apart l).size out = l.size ∧ (Source.apart r).size out = r.size :=
    fun _ => ⟨rfl, rfl⟩
  rw [integerStep_eq, integerStep_eq, (hsizes o).1, (hsizes o).2, (hsizes o').1, (hsizes o').2, h.size_eq]
  split
  · exact ⟨rfl, fun _ => h.setBlock (blockStart row d.n) d.n.toNat fun col =>
      integerDot (.apart l) (.apart r) #[] (blockStart row d.k) (blockStart (row / d.m) (d.k * d.n) + col)
        d.k.toNat d.n.toNat⟩
  · exact ⟨rfl, nofun⟩

/-- The product of integers, if no row is out of bounds. -/
def integerProduct? (d : ProductDims) (lhs rhs : Array (IntWord f))
    (coefficients : Option (IntWord f × IntWord f)) (old : Array (IntWord f)) : Option (Array (IntWord f)) :=
  completed? (upTo (integerStep d (.apart lhs) (.apart rhs) coefficients) (wrap64 (d.batch * d.m)).toNat 0 old)

theorem size_integerProduct (ranges : List Range) (d : ProductDims) (lhs rhs : Source (IntWord f))
    (coefficients : Option (IntWord f × IntWord f)) (out : Array (IntWord f)) :
    (integerProduct ranges d lhs rhs coefficients out).1.size = out.size := by
  rw [integerProduct_eq_foldl]
  exact size_foldl_rangeSteps (size_integerStep d _ _ _) ranges out none

theorem integerProduct_spec (hranges : Consecutive 0 ranges (wrap64 (d.batch * d.m)).toNat) (l r : Array (IntWord f))
    (coefficients : Option (IntWord f × IntWord f)) (out : Array (IntWord f)) :
    (integerProduct ranges d (.apart l) (.apart r) coefficients out).1.size = out.size ∧
    completed? (integerProduct ranges d (.apart l) (.apart r) coefficients out) =
      integerProduct? d l r coefficients out := by
  refine ⟨size_integerProduct ranges d _ _ coefficients out, ?_⟩
  rw [integerProduct_eq_foldl]
  exact completed?_foldl hranges out

theorem integerProduct_fault {out : Array (IntWord f)} {fault : Fault}
    (h : (integerProduct ranges d lhs rhs coefficients out).2 = some fault) : fault = .outOfBounds := by
  rw [integerProduct_eq_foldl] at h
  obtain ⟨row, out', hstep⟩ := exists_fault_of_foldl h
  rw [integerStep_eq] at hstep
  split at hstep
  · cases hstep
  · exact (Option.some.inj hstep).symm

theorem rows_pos_of_integerProduct? {l r out : Array (IntWord f)} (h : integerProduct? d l r coefficients out = none) :
    0 < wrap64 (d.batch * d.m) := by
  refine Decidable.byContradiction fun hle => ?_
  have hno : (wrap64 (d.batch * d.m)).toNat = 0 := by omega
  rw [integerProduct?, hno] at h
  cases h

/-- A product without coefficients does not depend on what was in the output before, if it has rows. -/
theorem integerProduct?_congr {l r out out' : Array (IntWord f)} (hn : 0 < d.n)
    (hrows : 0 < wrap64 (d.batch * d.m)) (hsize : wrap64 (d.batch * d.m * d.n) = out.size)
    (hout : out'.size = out.size) :
    integerProduct? d l r none out' = integerProduct? d l r none out := by
  refine completed?_upTo_congr (size_integerStep d _ _ _) (agreeOn_integerStep l r) (fun hdone i hi => ?_) hout
  have hcount : (((wrap64 (d.batch * d.m)).toNat : Nat) : Int) = wrap64 (d.batch * d.m) := by omega
  -- every row that was computed was within the output
  have hblocks : ∀ j : Nat, j < (wrap64 (d.batch * d.m)).toNat → isBlock j d.n out.size = true := by
    intro j hj
    obtain ⟨o, ho, hnone⟩ := hdone j hj
    rw [integerStep_eq] at hnone
    split at hnone
    · rename_i hin
      rw [rowInBounds, Bool.and_eq_true, ho] at hin
      exact hin.2
    · cases hnone
  exact exists_block hn (by omega) (by rw [hcount, wrap64_mul_left, hsize]) hblocks hi

/-- A product without coefficients is the one into zeros, unless its number of rows is negative in 64 bits. -/
theorem integerProduct?_eq_zeros {l r out : Array (IntWord f)} (hn : 0 < d.n)
    (hsize : wrap64 (d.batch * (d.m * d.n)) = out.size) (hrows : 0 < out.size → 0 ≤ wrap64 (d.batch * d.m)) :
    integerProduct? d l r none out = integerProduct? d l r none (Array.replicate out.size .zero) := by
  rw [← Int.mul_assoc] at hsize
  by_cases hpos : 0 < wrap64 (d.batch * d.m)
  · exact (integerProduct?_congr hn hpos hsize Array.size_replicate).symm
  · -- there are no rows, and so no elements
    have hempty : out.size = 0 := by
      rcases Nat.eq_zero_or_pos out.size with hzero | hout
      · exact hzero
      · have hno : wrap64 (d.batch * d.m) = 0 := by
          omega
        rw [← wrap64_mul_left, hno, Int.zero_mul] at hsize
        have : wrap64 0 = 0 := by decide
        omega
    rw [Array.eq_empty_of_size_eq_zero hempty]
    rfl

/-- The dimensions are positive, and data of these sizes has all elements of the matrices. -/
structure Fitting (d : ProductDims) (lhsSize rhsSize outSize : Nat) : Prop where
  batch_pos : 0 < d.batch
  m_pos : 0 < d.m
  k_pos : 0 < d.k
  n_pos : 0 < d.n
  lhs_eq : (lhsSize : Int) = d.batch * (d.m * d.k)
  rhs_eq : (rhsSize : Int) = d.batch * (d.k * d.n)
  out_eq : (outSize : Int) = d.batch * (d.m * d.n)
  lhs_lt : (lhsSize : Int) < wordLimit
  rhs_lt : (rhsSize : Int) < wordLimit
  out_lt : (outSize : Int) < wordLimit

/-- The dimensions are positive, and operands of these sizes have all elements of the matrices. -/
structure Operands (d : ProductDims) (lhsSize rhsSize : Nat) : Prop where
  batch_pos : 0 < d.batch
  m_pos : 0 < d.m
  k_pos : 0 < d.k
  n_pos : 0 < d.n
  lhs_eq : (lhsSize : Int) = d.batch * (d.m * d.k)
  rhs_eq : (rhsSize : Int) = d.batch * (d.k * d.n)
  lhs_lt : (lhsSize : Int) < wordLimit
  rhs_lt : (rhsSize : Int) < wordLimit

theorem Fitting.operands {outSize : Nat} (h : Fitting d lhsSize rhsSize outSize) : Operands d lhsSize rhsSize :=
  { h with }

private theorem succ_mul_le {i count length : Int} (hi : i < count) (hlength : 0 < length) :
    (i + 1) * length ≤ count * length :=
  Int.mul_le_mul_of_nonneg_right hi (Int.le_of_lt hlength)

theorem badDims_eq_none (hm : 0 < d.m) (hk : 0 < d.k) (hn : 0 < d.n) : badDims d = none := by
  rw [badDims, if_neg (by omega), if_neg (by omega), if_neg (by omega), if_neg (by omega), if_neg (by omega)]

theorem Operands.badDims_eq_none (h : Operands d lhsSize rhsSize) : badDims d = none :=
  Kernel.badDims_eq_none h.m_pos h.k_pos h.n_pos

theorem Operands.rowInBounds_eq {outSize row : Nat} (h : Operands d lhsSize rhsSize)
    (hroom : d.batch * (d.m * d.n) ≤ outSize) (hlimit : (outSize : Int) < wordLimit)
    (hrow : (row : Int) < d.batch * d.m) : rowInBounds d lhsSize rhsSize outSize row = true := by
  have hbatch : (row : Int) / d.m < d.batch := Int.ediv_lt_of_lt_mul h.m_pos hrow
  have hkn : 0 < d.k * d.n := Int.mul_pos h.k_pos h.n_pos
  have hlhs : ((row : Int) + 1) * d.k ≤ lhsSize := by
    rw [h.lhs_eq, ← Int.mul_assoc]
    exact succ_mul_le hrow h.k_pos
  have hrhs : ((row : Int) / d.m + 1) * (d.k * d.n) ≤ rhsSize := by
    rw [h.rhs_eq]
    exact succ_mul_le hbatch hkn
  have hout : ((row : Int) + 1) * d.n ≤ outSize := by
    refine Int.le_trans ?_ hroom
    rw [← Int.mul_assoc]
    exact succ_mul_le hrow h.n_pos
  have hdiv : 0 ≤ (row : Int) / d.m := Int.ediv_nonneg (Int.natCast_nonneg row) (Int.le_of_lt h.m_pos)
  rw [rowInBounds, (isBlock_of_le (Int.natCast_nonneg row) (Int.le_of_lt h.k_pos) hlhs h.lhs_lt).1,
    (isBlock_of_le hdiv (Int.le_of_lt hkn) hrhs h.rhs_lt).1,
    (isBlock_of_le (Int.natCast_nonneg row) (Int.le_of_lt h.n_pos) hout hlimit).1]
  rfl

theorem Operands.rows_eq (h : Operands d lhsSize rhsSize) : wrap64 (d.batch * d.m) = d.batch * d.m := by
  have hpos : 0 < d.batch * d.m := Int.mul_pos h.batch_pos h.m_pos
  have hle : d.batch * d.m * 1 ≤ d.batch * d.m * d.k := Int.mul_le_mul_of_nonneg_left h.k_pos (Int.le_of_lt hpos)
  have hlhs := h.lhs_eq
  have hlt := h.lhs_lt
  rw [← Int.mul_assoc] at hlhs
  exact wrap64_eq_self (by unfold wordLimit; omega) (by omega)

theorem integerProduct?_isSome {l r out : Array (IntWord f)} (h : Fitting d l.size r.size out.size)
    (coefficients : Option (IntWord f × IntWord f)) :
    (integerProduct? d l r coefficients out).isSome = true := by
  have hrows := h.operands.rows_eq
  refine completed?_upTo_isSome (P := fun o => o.size = out.size) rfl fun row o hrow ho => ?_
  refine ⟨?_, (size_integerStep d _ _ _ row o).trans ho⟩
  have hlt : (row : Int) < d.batch * d.m := by
    omega
  rw [integerStep_eq, ho]
  exact congrArg Prod.snd (if_pos (h.operands.rowInBounds_eq (Int.le_of_eq h.out_eq.symm) h.out_lt hlt))

end Integer

/-! ## Products of floating point words -/

section Float

variable {f : FloatFormat} {d : ProductDims} {lhs rhs : Source (FloatWord f)} {alpha beta : FloatWord f}
  {S : Nat → Prop} {o o' : Array (FloatWord f)}

theorem size_scaleRows (n : Nat) (alpha : FloatWord f) (base count i : Nat) (out : Array (FloatWord f)) :
    (scaleRows n alpha base count i out).1.size = out.size := by
  induction count generalizing i out with
  | zero => rfl
  | succ count ih =>
    rw [scaleRows]
    split
    · rfl
    · rw [ih]
      exact size_foldl (fun _ _ => Array.size_setIfInBounds) _ out

theorem size_addScaledRow (rhs : Source (FloatWord f)) (t : FloatWord f) (rhsBase outBase n : Nat)
    (out : Array (FloatWord f)) : (addScaledRow rhs t rhsBase outBase n out).size = out.size :=
  size_foldl (fun _ _ => Array.size_setIfInBounds) _ out

theorem size_addRows (k n : Nat) (base : Bases) (count i : Nat) (out : Array (FloatWord f)) :
    (addRows k n lhs rhs beta base count i out).1.size = out.size := by
  induction count generalizing i out with
  | zero => rfl
  | succ count ih =>
    rw [addRows]
    split
    · rfl
    · rw [ih]
      refine size_foldl (fun out l => ?_) _ out
      dsimp only
      split
      · rfl
      · exact size_addScaledRow ..

theorem size_floatMatrix (m k n : Nat) (base : Bases) (out : Array (FloatWord f)) :
    (floatMatrix m k n lhs rhs alpha beta base out).1.size = out.size := by
  unfold floatMatrix
  dsimp only
  split
  · rfl
  · have hscaled : (if alpha == .ofInt 1 then (out, false) else scaleRows n alpha base.out m 0 out).1.size =
        out.size := by
      split
      · rfl
      · exact size_scaleRows ..
    split
    · rename_i scaled h
      rwa [h] at hscaled
    · rename_i scaled h
      rw [h] at hscaled
      exact (size_addRows ..).trans hscaled

/-- Where the matrices of a batch start. -/
def basesAt (d : ProductDims) (b : Nat) : Bases :=
  ⟨blockStart b (d.m * d.k), blockStart b (d.k * d.n), blockStart b (d.m * d.n)⟩

/-- Whether the matrices of a batch are within data of these sizes. -/
def batchInBounds (d : ProductDims) (lhsSize rhsSize outSize b : Nat) : Bool :=
  isBlock b (d.m * d.k) lhsSize && isBlock b (d.k * d.n) rhsSize && isBlock b (d.m * d.n) outSize

/-- One batch, or the fault that it cannot be computed. -/
def floatStep (d : ProductDims) (lhs rhs : Source (FloatWord f)) (alpha beta : FloatWord f) (b : Nat)
    (out : Array (FloatWord f)) : Array (FloatWord f) × Option FloatFault :=
  if !batchInBounds d (lhs.size out) (rhs.size out) out.size b then (out, some .outOfBounds)
  else match badDims d with
    | some reason => (out, some (.dimensions reason))
    | none =>
      let r := floatMatrix d.m.toNat d.k.toNat d.n.toNat lhs rhs alpha beta (basesAt d b) out
      (r.1, if r.2 then some .outOfBounds else none)

theorem floatBatches_eq_upTo (count b : Nat) (out : Array (FloatWord f)) :
    floatBatches d lhs rhs alpha beta count b out = upTo (floatStep d lhs rhs alpha beta) count b out := by
  induction count generalizing b out with
  | zero => rfl
  | succ count ih =>
    have hbounds : (!isBlock b (d.m * d.k) (lhs.size out) || !isBlock b (d.k * d.n) (rhs.size out)
        || !isBlock b (d.m * d.n) out.size) = !batchInBounds d (lhs.size out) (rhs.size out) out.size b := by
      rw [batchInBounds, Bool.not_and, Bool.not_and]
    rw [floatBatches, upTo]
    rw [hbounds]
    -- a batch stops both if it is out of bounds, and then if its sizes are bad
    cases hin : batchInBounds d (lhs.size out) (rhs.size out) out.size b with
    | false => simp [floatStep, hin]
    | true =>
      cases hbad : badDims d with
      | some reason => simp [floatStep, hin, hbad]
      | none =>
        rcases hmatrix : floatMatrix d.m.toNat d.k.toNat d.n.toNat lhs rhs alpha beta (basesAt d b) out
          with ⟨out', _ | _⟩
        · have hbatch := hmatrix
          unfold basesAt at hbatch
          simp only [floatStep, hin, hbad, hbatch, hmatrix]
          exact ih (b + 1) out'
        · have hbatch := hmatrix
          unfold basesAt at hbatch
          simp [floatStep, hin, hbad, hbatch, hmatrix]

theorem floatProduct_eq_foldl (ranges : List Range) (out : Array (FloatWord f)) :
    floatProduct ranges d lhs rhs alpha beta out =
      ranges.foldl (rangeSteps (floatStep d lhs rhs alpha beta)) (out, none) := by
  unfold floatProduct
  congr 1
  funext x r
  simp only [rangeSteps, floatBatches_eq_upTo]

theorem size_floatStep (d : ProductDims) (lhs rhs : Source (FloatWord f)) (alpha beta : FloatWord f) (b : Nat)
    (out : Array (FloatWord f)) :
    (floatStep d lhs rhs alpha beta b out).1.size = out.size := by
  unfold floatStep
  split
  · rfl
  · split
    · rfl
    · exact size_floatMatrix ..

theorem agreeOn_scaleRows (n base : Nat) (halpha : alpha.isZero = true) (h : AgreeOn S o o') (count i : Nat) :
    (scaleRows n alpha base count i o').2 = (scaleRows n alpha base count i o).2 ∧
    ((scaleRows n alpha base count i o).2 = false →
      AgreeOn (fun k => S k ∨ (base + i * n ≤ k ∧ k < base + (i + count) * n))
        (scaleRows n alpha base count i o).1 (scaleRows n alpha base count i o').1) := by
  induction count generalizing i o o' S with
  | zero =>
    refine ⟨rfl, fun _ => h.mono fun k hk => hk.resolve_right ?_⟩
    rw [Nat.add_zero]
    omega
  | succ count ih =>
    rw [scaleRows, scaleRows, h.size_eq]
    split
    · exact ⟨rfl, nofun⟩
    · -- a row that is cleared agrees, whatever was in it
      have hclear := h.setBlock (base + i * n) n fun _ => (.zero : FloatWord f)
      obtain ⟨hsnd, hagree⟩ := ih hclear (i + 1)
      refine ⟨hsnd, fun hnone => (hagree hnone).mono fun k hk => ?_⟩
      have hnext : (i + 1) * n = i * n + n := Nat.succ_mul i n
      have hcount : i + (count + 1) = i + 1 + count := by omega
      rw [hcount] at hk
      rcases hk with hk | ⟨hlow, hhigh⟩
      · exact .inl (.inl hk)
      · by_cases hrow : k < base + i * n + n
        · exact .inl (.inr ⟨hlow, hrow⟩)
        · exact .inr ⟨by omega, hhigh⟩

theorem agreeOn_addRows (k n : Nat) (beta : FloatWord f) (base : Bases) (l r : Array (FloatWord f))
    (h : AgreeOn S o o') (count i : Nat) :
    (addRows k n (.apart l) (.apart r) beta base count i o').2 =
      (addRows k n (.apart l) (.apart r) beta base count i o).2 ∧
    AgreeOn S (addRows k n (.apart l) (.apart r) beta base count i o).1
      (addRows k n (.apart l) (.apart r) beta base count i o').1 := by
  induction count generalizing i o o' with
  | zero => exact ⟨rfl, h⟩
  | succ count ih =>
    have hsize : ∀ out : Array (FloatWord f), (Source.apart l).size out = l.size := fun _ => rfl
    rw [addRows, addRows, h.size_eq, hsize, hsize]
    split
    · exact ⟨rfl, h⟩
    · refine ih (h.foldl _ fun p out out' hout => ?_) (i + 1)
      dsimp only [Source.getD]
      split
      · exact hout
      · exact hout.foldl _ fun j out out' hout => hout.update _ .zero (·.add _)

theorem agreeOn_floatMatrix (m k n : Nat) (beta : FloatWord f) (base : Bases) (l r : Array (FloatWord f))
    (halpha : alpha.isZero = true) (hone : (alpha == .ofInt 1) = false) (h : AgreeOn S o o') :
    (floatMatrix m k n (.apart l) (.apart r) alpha beta base o').2 =
      (floatMatrix m k n (.apart l) (.apart r) alpha beta base o).2 ∧
    ((floatMatrix m k n (.apart l) (.apart r) alpha beta base o).2 = false →
      AgreeOn (fun i => S i ∨ (base.out ≤ i ∧ i < base.out + m * n))
        (floatMatrix m k n (.apart l) (.apart r) alpha beta base o).1
        (floatMatrix m k n (.apart l) (.apart r) alpha beta base o').1) := by
  obtain ⟨hsnd, hagree⟩ := agreeOn_scaleRows n base.out halpha h m 0
  rw [Nat.zero_mul, Nat.zero_add] at hagree
  unfold floatMatrix
  simp only [hone, Bool.and_false]
  rcases hscaled : scaleRows n alpha base.out m 0 o with ⟨scaled, _ | _⟩
  · rcases hscaled' : scaleRows n alpha base.out m 0 o' with ⟨scaled', fault'⟩
    rw [hscaled, hscaled'] at hsnd hagree
    obtain rfl : fault' = false := hsnd
    obtain ⟨hsnd', hagree'⟩ := agreeOn_addRows k n beta base l r (hagree rfl) m 0
    exact ⟨hsnd', fun _ => hagree'⟩
  · rcases hscaled' : scaleRows n alpha base.out m 0 o' with ⟨scaled', fault'⟩
    rw [hscaled, hscaled'] at hsnd
    obtain rfl : fault' = true := hsnd
    exact ⟨rfl, nofun⟩

/-- A product that clears its batch first does not depend on what was in it. -/
theorem agreeOn_floatStep (l r : Array (FloatWord f)) (halpha : alpha.isZero = true)
    (hone : (alpha == .ofInt 1) = false) (b : Nat) (S : Nat → Prop) (o o' : Array (FloatWord f))
    (h : AgreeOn S o o') :
    (floatStep d (.apart l) (.apart r) alpha beta b o').2 = (floatStep d (.apart l) (.apart r) alpha beta b o).2 ∧
    ((floatStep d (.apart l) (.apart r) alpha beta b o).2 = none →
      AgreeOn (fun i => S i ∨ (blockStart b (d.m * d.n) ≤ i ∧
          i < blockStart b (d.m * d.n) + d.m.toNat * d.n.toNat))
        (floatStep d (.apart l) (.apart r) alpha beta b o).1 (floatStep d (.apart l) (.apart r) alpha beta b o').1) := by
  have hsizes : ∀ out : Array (FloatWord f), (Source.apart l).size out = l.size ∧ (Source.apart r).size out = r.size :=
    fun _ => ⟨rfl, rfl⟩
  obtain ⟨hsnd, hagree⟩ :=
    agreeOn_floatMatrix d.m.toNat d.k.toNat d.n.toNat beta (basesAt d b) l r halpha hone h
  unfold floatStep
  rw [(hsizes o).1, (hsizes o).2, (hsizes o').1, (hsizes o').2, h.size_eq]
  -- the checks look at the sizes only, which are the same
  split
  · exact ⟨rfl, nofun⟩
  · split
    · exact ⟨rfl, nofun⟩
    · dsimp only
      rw [hsnd]
      refine ⟨rfl, fun hnone => hagree ?_⟩
      split at hnone
      · cases hnone
      · rename_i hfalse
        exact Bool.eq_false_iff.mpr hfalse

/-- The product of floating point matrices, if all of it can be computed. -/
def floatProduct? (d : ProductDims) (lhs rhs : Array (FloatWord f)) (alpha beta : FloatWord f)
    (old : Array (FloatWord f)) : Option (Array (FloatWord f)) :=
  completed? (upTo (floatStep d (.apart lhs) (.apart rhs) alpha beta) d.batch.toNat 0 old)

theorem size_floatProduct (ranges : List Range) (d : ProductDims) (lhs rhs : Source (FloatWord f))
    (alpha beta : FloatWord f) (out : Array (FloatWord f)) :
    (floatProduct ranges d lhs rhs alpha beta out).1.size = out.size := by
  rw [floatProduct_eq_foldl]
  exact size_foldl_rangeSteps (size_floatStep d _ _ _ _) ranges out none

theorem floatProduct_spec (hranges : Consecutive 0 ranges d.batch.toNat) (l r : Array (FloatWord f))
    (alpha beta : FloatWord f) (out : Array (FloatWord f)) :
    (floatProduct ranges d (.apart l) (.apart r) alpha beta out).1.size = out.size ∧
    completed? (floatProduct ranges d (.apart l) (.apart r) alpha beta out) = floatProduct? d l r alpha beta out := by
  refine ⟨size_floatProduct ranges d _ _ alpha beta out, ?_⟩
  rw [floatProduct_eq_foldl]
  exact completed?_foldl hranges out

theorem floatProduct_fault (hd : badDims d = none) {out : Array (FloatWord f)} {fault : FloatFault}
    (h : (floatProduct ranges d lhs rhs alpha beta out).2 = some fault) : fault = .outOfBounds := by
  rw [floatProduct_eq_foldl] at h
  obtain ⟨b, out', hstep⟩ := exists_fault_of_foldl h
  unfold floatStep at hstep
  split at hstep
  · exact (Option.some.inj hstep).symm
  · simp only [hd] at hstep
    split at hstep
    · exact (Option.some.inj hstep).symm
    · cases hstep

/-- A product into an output that is cleared first does not depend on what was there before. -/
theorem floatProduct?_congr {l r out out' : Array (FloatWord f)} (halpha : alpha.isZero = true)
    (hone : (alpha == .ofInt 1) = false) (hm : 0 < d.m) (hn : 0 < d.n) (hbatch : 0 < d.batch)
    (hsize : wrap64 (d.batch * (d.m * d.n)) = out.size) (hout : out'.size = out.size) :
    floatProduct? d l r alpha beta out' = floatProduct? d l r alpha beta out := by
  refine completed?_upTo_congr (size_floatStep d _ _ _ _) (agreeOn_floatStep l r halpha hone) (fun hdone i hi => ?_) hout
  have hcount : ((d.batch.toNat : Nat) : Int) = d.batch := by omega
  have hblocks : ∀ j : Nat, j < d.batch.toNat → isBlock j (d.m * d.n) out.size = true := by
    intro j hj
    obtain ⟨o, ho, hnone⟩ := hdone j hj
    unfold floatStep at hnone
    split at hnone
    · cases hnone
    · rename_i hin
      rw [Bool.not_eq_true, Bool.not_eq_false', batchInBounds, Bool.and_eq_true, ho] at hin
      exact hin.2
  have hlength : (d.m * d.n).toNat = d.m.toNat * d.n.toNat :=
    Int.toNat_mul (Int.le_of_lt hm) (Int.le_of_lt hn)
  obtain ⟨j, hj, hblock⟩ := exists_block (Int.mul_pos hm hn) (by omega) (by rw [hcount, hsize]) hblocks hi
  rw [hlength] at hblock
  exact ⟨j, hj, hblock⟩

theorem scaleRows_snd {n base : Nat} (count i : Nat) {out : Array (FloatWord f)}
    (h : base + (i + count) * n ≤ out.size) : (scaleRows n alpha base count i out).2 = false := by
  induction count generalizing i out with
  | zero => rfl
  | succ count ih =>
    have hrow : (i + 1) * n ≤ (i + (count + 1)) * n := Nat.mul_le_mul_right n (by omega)
    rw [scaleRows, if_neg (by omega)]
    refine ih (i + 1) ?_
    rwa [size_foldl (fun _ _ => Array.size_setIfInBounds), Nat.add_right_comm]

theorem addRows_snd {k n : Nat} {base : Bases} (count i : Nat) {out : Array (FloatWord f)}
    (hout : base.out + (i + count) * n ≤ out.size) (hlhs : base.lhs + (i + count) * k ≤ lhs.size out) :
    (addRows k n lhs rhs beta base count i out).2 = false := by
  induction count generalizing i out with
  | zero => rfl
  | succ count ih =>
    have hn : (i + 1) * n ≤ (i + (count + 1)) * n := Nat.mul_le_mul_right n (by omega)
    have hk : (i + 1) * k ≤ (i + (count + 1)) * k := Nat.mul_le_mul_right k (by omega)
    rw [addRows, if_neg (by simp only [Bool.or_eq_true, decide_eq_true_eq]; omega)]
    have hsize : ∀ (l : List Nat), (l.foldl (fun out p =>
        let t := beta.mul (lhs.getD out (base.lhs + i * k + p) .zero)
        if t.isZero then out else addScaledRow rhs t (base.rhs + p * n) (base.out + i * n) n out) out).size =
          out.size := by
      intro l
      refine size_foldl (fun out p => ?_) l out
      dsimp only
      split
      · rfl
      · exact size_addScaledRow ..
    refine ih (i + 1) ?_ ?_
    · rwa [hsize, Nat.add_right_comm]
    · rwa [lhs.size_congr (hsize _), Nat.add_right_comm]

theorem floatMatrix_snd {m k n : Nat} {base : Bases} {out : Array (FloatWord f)}
    (hout : base.out + m * n ≤ out.size) (hlhs : base.lhs + m * k ≤ lhs.size out) :
    (floatMatrix m k n lhs rhs alpha beta base out).2 = false := by
  rw [← Nat.zero_add m] at hout hlhs
  have hscale : (scaleRows n alpha base.out m 0 out).2 = false := scaleRows_snd m 0 hout
  have hadd : ∀ scaled : Array (FloatWord f), scaled.size = out.size →
      (addRows k n lhs rhs beta base m 0 scaled).2 = false := by
    intro scaled hsize
    rw [← hsize] at hout
    rw [← lhs.size_congr hsize] at hlhs
    exact addRows_snd m 0 hout hlhs
  -- scaling keeps the size, and is left out if there is nothing to scale
  unfold floatMatrix
  dsimp only
  split
  · rfl
  · split
    · rename_i scaled hscaled
      split at hscaled
      · cases hscaled
      · rwa [hscaled] at hscale
    · rename_i scaled hscaled
      refine hadd scaled ?_
      split at hscaled
      · exact (congrArg (fun r => r.1.size) hscaled).symm
      · have hsize := size_scaleRows n alpha base.out m 0 out
        rwa [hscaled] at hsize

/-- A batch that fits in the data is computed without a fault. -/
theorem Operands.floatStep_snd {out : Array (FloatWord f)} (h : Operands d (lhs.size out) (rhs.size out))
    (hroom : d.batch * (d.m * d.n) ≤ out.size) (hlimit : (out.size : Int) < wordLimit) {b : Nat}
    (hb : (b : Int) < d.batch) : (floatStep d lhs rhs alpha beta b out).2 = none := by
  have hmk : 0 < d.m * d.k := Int.mul_pos h.m_pos h.k_pos
  have hkn : 0 < d.k * d.n := Int.mul_pos h.k_pos h.n_pos
  have hmn : 0 < d.m * d.n := Int.mul_pos h.m_pos h.n_pos
  have hlhs : ((b : Int) + 1) * (d.m * d.k) ≤ lhs.size out := by
    rw [h.lhs_eq]
    exact succ_mul_le hb hmk
  have hrhs : ((b : Int) + 1) * (d.k * d.n) ≤ rhs.size out := by
    rw [h.rhs_eq]
    exact succ_mul_le hb hkn
  have hout : ((b : Int) + 1) * (d.m * d.n) ≤ out.size := Int.le_trans (succ_mul_le hb hmn) hroom
  obtain ⟨hlblock, hlstart⟩ := isBlock_of_le (Int.natCast_nonneg b) (Int.le_of_lt hmk) hlhs h.lhs_lt
  obtain ⟨hrblock, -⟩ := isBlock_of_le (Int.natCast_nonneg b) (Int.le_of_lt hkn) hrhs h.rhs_lt
  obtain ⟨hoblock, hostart⟩ := isBlock_of_le (Int.natCast_nonneg b) (Int.le_of_lt hmn) hout hlimit
  have hin : batchInBounds d (lhs.size out) (rhs.size out) out.size b = true := by
    rw [batchInBounds, hlblock, hrblock, hoblock]
    rfl
  -- the matrices of the batch end where its blocks do
  have hmnNat : (d.m.toNat * d.n.toNat : Nat) = (d.m * d.n).toNat :=
    (Int.toNat_mul (Int.le_of_lt h.m_pos) (Int.le_of_lt h.n_pos)).symm
  have hmkNat : (d.m.toNat * d.k.toNat : Nat) = (d.m * d.k).toNat :=
    (Int.toNat_mul (Int.le_of_lt h.m_pos) (Int.le_of_lt h.k_pos)).symm
  rw [Int.add_mul] at hlhs hout
  have hend : (basesAt d b).out + d.m.toNat * d.n.toNat ≤ out.size := by
    show blockStart b (d.m * d.n) + _ ≤ _
    omega
  have hlend : (basesAt d b).lhs + d.m.toNat * d.k.toNat ≤ lhs.size out := by
    show blockStart b (d.m * d.k) + _ ≤ _
    omega
  have hmatrix : (floatMatrix d.m.toNat d.k.toNat d.n.toNat lhs rhs alpha beta (basesAt d b) out).2 = false :=
    floatMatrix_snd hend hlend
  unfold floatStep
  rw [hin, h.badDims_eq_none]
  dsimp only
  rw [hmatrix]
  rfl

theorem floatProduct?_isSome {l r out : Array (FloatWord f)} (h : Fitting d l.size r.size out.size)
    (alpha beta : FloatWord f) : (floatProduct? d l r alpha beta out).isSome = true := by
  refine completed?_upTo_isSome (P := fun o => o.size = out.size) rfl fun b o hb ho => ?_
  have hroom : d.batch * (d.m * d.n) ≤ o.size := by
    rw [ho]
    exact Int.le_of_eq h.out_eq.symm
  refine ⟨h.operands.floatStep_snd hroom ?_ (by omega), (size_floatStep d _ _ _ _ b o).trans ho⟩
  rw [ho]
  exact h.out_lt

end Float

end LazyTensor.Kernel
