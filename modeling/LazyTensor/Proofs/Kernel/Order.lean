import Mathlib.Data.List.Nodup
import Mathlib.Data.List.Perm.Basic
import LazyTensor.Proofs.Kernel.Product
import LazyTensor.Proofs.Kernel.Steps
import LazyTensor.Proofs.Kernel.Transpose

/-!
# Steps in any order

A step that computes elements of the output from what stood in their places, and leaves the others alone,
commutes with a step on other places. So a kernel of such steps gives the same over any ranges that cover its
steps, in whatever order they come, if the steps write to places of their own. A product does, as long as all
its blocks are within the output; and if one of them is not, it has a fault in every order.
-/

namespace LazyTensor.Kernel

open List

/-! ## Tables -/

section Tables

variable {σ φ : Type} {r r' : σ × Option φ}

theorem completed?_cases (h : completed? r = completed? r') :
    (∃ s, r = (s, none) ∧ r' = (s, none)) ∨
    ∃ s fault s' fault', r = (s, some fault) ∧ r' = (s', some fault') := by
  obtain ⟨s, _ | fault⟩ := r <;> obtain ⟨s', _ | fault'⟩ := r'
  · exact .inl ⟨s, rfl, by rw [Option.some.inj h]⟩
  · cases h
  · cases h
  · exact .inr ⟨s, fault, s', fault', rfl, rfl⟩

theorem completed?_eq_of_table {table : Option σ} (h : (r.2 = none → table = some r.1) ∧ (r.2 ≠ none → table = none)) :
    completed? r = table := by
  obtain ⟨s, _ | fault⟩ := r
  · exact (h.1 rfl).symm
  · exact (h.2 nofun).symm

variable {ranges ranges' : List Range}

theorem inPlace_runProgram_congr {t : ElementType} {p : Program} (inputs : Array (Source t.Elem)) {out : Array t.Elem}
    (hne : p.steps ≠ []) (h : Covers ranges out.size) (h' : Covers ranges' out.size) :
    completed? (inPlace ranges (runProgram t p inputs) out) = completed? (inPlace ranges' (runProgram t p inputs) out) := by
  rw [completed?_eq_of_table (inPlace_runProgram inputs hne h), completed?_eq_of_table (inPlace_runProgram inputs hne h')]

theorem overRanges_transpose_congr {α : Type} (src : Array α) {dims : List Int} (strides : List Int) {out : Array α}
    (hpos : ∀ d ∈ dims, 0 < d) (h : Covers ranges out.size) (h' : Covers ranges' out.size) :
    completed? (overRanges ranges (transpose src dims strides) out) =
      completed? (overRanges ranges' (transpose src dims strides) out) := by
  rw [completed?_eq_of_table (overRanges_transpose src strides hpos h).2,
    completed?_eq_of_table (overRanges_transpose src strides hpos h').2]

end Tables

/-! ## Local steps -/

section Local

variable {β φ ι : Type} {W W' : Nat → Prop} {g g' : Array β → Array β}

/-- Elements are computed from what stood in their places, and only those of `W` change. -/
structure Local (W : Nat → Prop) (g : Array β → Array β) : Prop where
  size_eq : ∀ o, (g o).size = o.size
  kept : ∀ (o : Array β) (i : Nat), ¬ W i → (g o)[i]? = o[i]?
  agree : ∀ (S : Nat → Prop) (o o' : Array β), AgreeOn S o o' → AgreeOn S (g o) (g o')

theorem Local.id (W : Nat → Prop) : Local W fun o : Array β => o :=
  ⟨fun _ => rfl, fun _ _ _ => rfl, fun _ _ _ h => h⟩

theorem Local.comp (hg : Local W g) (hg' : Local W g') : Local W fun o => g (g' o) where
  size_eq o := (hg.size_eq _).trans (hg'.size_eq o)
  kept o i hi := (hg.kept _ i hi).trans (hg'.kept o i hi)
  agree S o o' h := hg.agree S _ _ (hg'.agree S o o' h)

theorem Local.update {k : Nat} (hk : W k) (z : β) (f : β → β) :
    Local W fun o => o.setIfInBounds k (f (o.getD k z)) where
  size_eq _ := Array.size_setIfInBounds
  kept o i hi := by
    rw [Array.getElem?_setIfInBounds, if_neg]
    rintro rfl
    exact hi hk
  agree _ _ _ h := h.update k z f

theorem Local.foldl {l : List ι} {f : Array β → ι → Array β} (hf : ∀ x ∈ l, Local W (f · x)) :
    Local W fun o => l.foldl f o := by
  induction l with
  | nil => exact .id W
  | cons x l ih => exact (ih fun y hy => hf y (.tail _ hy)).comp (hf x (.head _))

theorem Local.comm (hg : Local W g) (hg' : Local W' g') (hapart : ∀ i, W i → ¬ W' i) (o : Array β) :
    g (g' o) = g' (g o) := by
  apply Array.ext_getElem?
  intro i
  by_cases hi : W i
  · -- the other change neither touches the place nor what is read for it
    have hother : AgreeOn (· = i) o (g' o) := ⟨hg'.size_eq o, fun j hj => hg'.kept o j (hj ▸ hapart i hi)⟩
    rw [hg'.kept (g o) i (hapart i hi)]
    exact (hg.agree _ _ _ hother).get i rfl
  · have hother : AgreeOn (· = i) o (g o) := ⟨hg.size_eq o, fun j hj => hg.kept o j (hj ▸ hi)⟩
    rw [hg.kept (g' o) i hi]
    exact ((hg'.agree _ _ _ hother).get i rfl).symm

/-- A local change with a flag that depends on the size of the output alone. -/
structure LocalStep (W : Nat → Prop) (g : Array β → Array β × φ) : Prop where
  output : Local W fun o => (g o).1
  flag_eq : ∀ o o', o'.size = o.size → (g o').2 = (g o).2

theorem Local.step (hg : Local W g) (x : φ) : LocalStep W fun o => (g o, x) := ⟨hg, fun _ _ _ => rfl⟩

theorem LocalStep.comp {g : Array β → Array β × φ} (hg : LocalStep W g) (hg' : Local W g') :
    LocalStep W fun o => g (g' o) where
  output := hg.output.comp hg'
  flag_eq o o' h := hg.flag_eq _ _ (by rw [hg'.size_eq, hg'.size_eq, h])

theorem LocalStep.ite {g g' : Array β → Array β × φ} {c : Nat → Prop} [DecidablePred c] (hg : LocalStep W g)
    (hg' : LocalStep W g') : LocalStep W fun o => if c o.size then g o else g' o where
  output := by
    refine ⟨fun o => ?_, fun o i hi => ?_, fun S o o' h => ?_⟩
    · split
      · exact hg.output.size_eq o
      · exact hg'.output.size_eq o
    · split
      · exact hg.output.kept o i hi
      · exact hg'.output.kept o i hi
    · rw [h.size_eq]
      split
      · exact hg.output.agree S o o' h
      · exact hg'.output.agree S o o' h
  flag_eq o o' h := by
    rw [h]
    split
    · exact hg.flag_eq o o' h
    · exact hg'.flag_eq o o' h

theorem LocalStep.map {ψ : Type} {g : Array β → Array β × φ} (hg : LocalStep W g) (f : φ → ψ) :
    LocalStep W fun o => ((g o).1, f (g o).2) :=
  ⟨hg.output, fun o o' h => congrArg f (hg.flag_eq o o' h)⟩

theorem LocalStep.andThen {g g' : Array β → Array β × Bool} (hg : LocalStep W g) (hg' : LocalStep W g') :
    LocalStep W fun o => if (g o).2 = true then ((g o).1, true) else g' (g o).1 where
  output := by
    refine ⟨fun o => ?_, fun o i hi => ?_, fun S o o' h => ?_⟩
    · split
      · exact hg.output.size_eq o
      · exact (hg'.output.size_eq _).trans (hg.output.size_eq o)
    · split
      · exact hg.output.kept o i hi
      · exact (hg'.output.kept _ i hi).trans (hg.output.kept o i hi)
    · have hnext := hg.output.agree S o o' h
      rw [hg.flag_eq o o' h.size_eq]
      split
      · exact hnext
      · exact hg'.output.agree S _ _ hnext
  flag_eq o o' h := by
    rw [hg.flag_eq o o' h]
    split
    · rfl
    · exact hg'.flag_eq _ _ (by rw [hg.output.size_eq, hg.output.size_eq, h])

theorem foldl_local_perm {step : Nat → Array β → Array β × φ} {W : Nat → Nat → Prop} {n : Nat}
    (hstep : ∀ j, LocalStep (W j) (step j))
    (hapart : ∀ i j : Nat, i < n → j < n → i ≠ j → ∀ k, W i k → ¬ W j k) {l l' : List Nat} (hperm : l.Perm l')
    (hl : ∀ j ∈ l, j < n) (o : Array β) :
    l.foldl (fun o j => (step j o).1) o = l'.foldl (fun o j => (step j o).1) o := by
  apply hperm.foldl_eq'
  intro i hi j hj o
  by_cases hij : i = j
  · rw [hij]
  · exact (hstep j).output.comm (hstep i).output (hapart j i (hl j hj) (hl i hi) (Ne.symm hij)) o

end Local

/-! ## Coverings -/

section Covers

variable {β φ : Type} {step : Nat → Array β → Array β × Option φ} {ranges ranges' : List Range} {n : Nat}
  {o : Array β}

/-- The indices of ranges, in their order. -/
def indices (ranges : List Range) : List Nat :=
  ranges.flatMap fun r => List.range' r.start (r.stop - r.start)

theorem mem_indices {ranges : List Range} {j : Nat} : j ∈ indices ranges ↔ ∃ r ∈ ranges, r.start ≤ j ∧ j < r.stop := by
  simp only [indices, mem_flatMap, mem_range'_1]
  refine exists_congr fun r => and_congr_right fun _ => ?_
  omega

theorem indices_perm_range (h : Covers ranges n) : (indices ranges).Perm (range n) := by
  rw [perm_ext_iff_of_nodup ?_ nodup_range]
  · intro j
    rw [mem_indices, mem_range]
    refine ⟨?_, h.exists_mem j⟩
    rintro ⟨r, hr, -, hj⟩
    exact Nat.lt_of_lt_of_le hj (h.bounds r hr).2
  · rw [indices, nodup_flatMap]
    refine ⟨fun r _ => nodup_range', h.disjoint.imp fun {r r'} hapart => ?_⟩
    intro j hj hj'
    rw [mem_range'_1] at hj hj'
    omega

variable {W : Nat → Nat → Prop} (hstep : ∀ j, LocalStep (W j) (step j))

include hstep

theorem upTo_eq_foldl {count i : Nat} (hnone : ∀ j ∈ range' i count, (step j o).2 = none) :
    upTo step count i o = ((range' i count).foldl (fun o j => (step j o).1) o, none) := by
  induction count generalizing i o with
  | zero => rfl
  | succ count ih =>
    rw [range'_succ] at hnone ⊢
    have hfirst := hnone i (.head _)
    have hsize := (hstep i).output.size_eq o
    rw [upTo, foldl_cons]
    rcases hres : step i o with ⟨o₁, fault⟩
    rw [hres] at hfirst hsize
    obtain rfl : fault = none := hfirst
    exact ih fun j hj => ((hstep j).flag_eq o o₁ hsize).trans (hnone j (.tail _ hj))

theorem size_upTo_local (count i : Nat) : (upTo step count i o).1.size = o.size :=
  size_upTo (fun j => (hstep j).output.size_eq) count i o

theorem foldl_rangeSteps_eq (hnone : ∀ j ∈ indices ranges, (step j o).2 = none) :
    ranges.foldl (rangeSteps step) (o, none) = ((indices ranges).foldl (fun o j => (step j o).1) o, none) := by
  induction ranges generalizing o with
  | nil => rfl
  | cons r ranges ih =>
    have hcons : indices (r :: ranges) = range' r.start (r.stop - r.start) ++ indices ranges := rfl
    rw [hcons] at hnone ⊢
    have hrange : rangeSteps step (o, none) r = upTo step (r.stop - r.start) r.start o := rfl
    have hfirst := upTo_eq_foldl hstep fun j hj => hnone j (mem_append_left _ hj)
    have hsize := size_upTo_local hstep (o := o) (r.stop - r.start) r.start
    rw [hfirst] at hsize
    rw [foldl_cons, hrange, hfirst, foldl_append]
    exact ih fun j hj => ((hstep j).flag_eq o _ hsize).trans (hnone j (mem_append_right _ hj))

theorem step_none_of_foldl (h : (ranges.foldl (rangeSteps step) (o, none)).2 = none) :
    ∀ j ∈ indices ranges, (step j o).2 = none := by
  induction ranges generalizing o with
  | nil => exact fun j hj => by cases hj
  | cons r ranges ih =>
    have hrange : rangeSteps step (o, none) r = upTo step (r.stop - r.start) r.start o := rfl
    rw [foldl_cons, hrange] at h
    have hsize := size_upTo_local hstep (o := o) (r.stop - r.start) r.start
    rcases hfirst : upTo step (r.stop - r.start) r.start o with ⟨o₁, _ | fault⟩
    · rw [hfirst] at h hsize
      intro j hj
      rcases mem_append.mp (show j ∈ range' r.start (r.stop - r.start) ++ indices ranges from hj) with hj | hj
      · rw [mem_range'_1] at hj
        obtain ⟨o₂, ho₂, hnone⟩ := exists_step_of_upTo (P := fun o' => o'.size = o.size)
          (fun j o' ho' => ((hstep j).output.size_eq o').trans ho') rfl hfirst hj.1 hj.2
        exact ((hstep j).flag_eq o₂ o ho₂.symm).trans hnone
      · exact ((hstep j).flag_eq o₁ o hsize.symm).trans (ih h j hj)
    · rw [hfirst, foldl_fault] at h
      cases h

/-- Local steps give the same over two coverings, if the steps without fault write to places of their own. -/
theorem completed?_foldl_eq
    (hapart : (∀ j : Nat, j < n → (step j o).2 = none) →
      ∀ i j : Nat, i < n → j < n → i ≠ j → ∀ k, W i k → ¬ W j k)
    (h : Covers ranges n) (h' : Covers ranges' n) :
    completed? (ranges.foldl (rangeSteps step) (o, none)) = completed? (ranges'.foldl (rangeSteps step) (o, none)) := by
  have hmem : ∀ {ranges : List Range}, Covers ranges n → ∀ j, j ∈ indices ranges ↔ j < n := fun h j => by
    rw [(indices_perm_range h).mem_iff, mem_range]
  by_cases hnone : ∀ j : Nat, j < n → (step j o).2 = none
  · rw [foldl_rangeSteps_eq hstep fun j hj => hnone j ((hmem h j).mp hj),
      foldl_rangeSteps_eq hstep fun j hj => hnone j ((hmem h' j).mp hj),
      foldl_local_perm hstep (hapart hnone) ((indices_perm_range h).trans (indices_perm_range h').symm)
        fun j hj => (hmem h j).mp hj]
  · -- a step with a fault has it whenever it comes
    have hfault : ∀ {ranges : List Range}, Covers ranges n →
        completed? (ranges.foldl (rangeSteps step) (o, none)) = none := fun h => by
      rw [completed?_eq_none_iff]
      exact fun h₀ => hnone fun j hj => step_none_of_foldl hstep h₀ j ((hmem h j).mpr hj)
    rw [hfault h, hfault h']

end Covers

/-! ## Blocks -/

/-- Different blocks have no index in common. -/
theorem blocks_apart {length : Int} {size count : Nat} (hpos : 0 < length) (hsmall : length < wordLimit)
    (hsize : (size : Int) < wordLimit) (hblocks : ∀ j : Nat, j < count → isBlock j length size = true)
    {i j : Nat} (hi : i < count) (hj : j < count) (hij : i ≠ j) {k : Nat}
    (hk : blockStart i length ≤ k ∧ k < blockStart i length + length.toNat) :
    ¬ (blockStart j length ≤ k ∧ k < blockStart j length + length.toNat) := by
  -- no start of a block wraps around
  have hstart : ∀ j : Nat, j < count → (blockStart j length : Int) = j * length := by
    intro j hj
    have hle := mul_le_of_isBlock hpos hsmall hsize hblocks (Nat.le_of_lt hj)
    have hnonneg : 0 ≤ (j : Int) * length := Int.mul_nonneg (Int.natCast_nonneg j) (Int.le_of_lt hpos)
    rw [blockStart, wrap64_eq_self (by unfold wordLimit; omega) (by omega)]
    omega
  have hi' := hstart i hi
  have hj' := hstart j hj
  have hnext : ∀ a b : Nat, a < b → (a : Int) * length + length ≤ b * length := by
    intro a b hab
    have hmul : ((a : Int) + 1) * length ≤ b * length :=
      Int.mul_le_mul_of_nonneg_right (by omega) (Int.le_of_lt hpos)
    rwa [Int.add_mul, Int.one_mul] at hmul
  rcases Nat.lt_or_gt_of_ne hij with hlt | hlt
  · have := hnext i j hlt
    omega
  · have := hnext j i hlt
    omega

/-! ## Products of integers -/

section Integer

variable {f : IntFormat} {d : ProductDims} {l r out : Array (IntWord f)}
  {coefficients : Option (IntWord f × IntWord f)}

theorem localStep_integerStep (d : ProductDims) (l r : Array (IntWord f))
    (coefficients : Option (IntWord f × IntWord f)) (row : Nat) :
    LocalStep (fun i => blockStart row d.n ≤ i ∧ i < blockStart row d.n + d.n.toNat)
      (integerStep d (.apart l) (.apart r) coefficients row) := by
  have hrow : Local (fun i => blockStart row d.n ≤ i ∧ i < blockStart row d.n + d.n.toNat)
      (writeRow d (.apart l) (.apart r) coefficients row) := by
    refine Local.foldl fun col hcol => ?_
    rw [mem_range] at hcol
    have hk : blockStart row d.n ≤ blockStart row d.n + col ∧
        blockStart row d.n + col < blockStart row d.n + d.n.toNat := by omega
    cases coefficients with
    | none =>
      exact .update hk .zero fun _ => integerDot (.apart l) (.apart r) #[] (blockStart row d.k)
        (blockStart (row / d.m) (d.k * d.n) + col) d.k.toNat d.n.toNat
    | some c =>
      exact .update hk .zero fun x => (c.1.mul x).add (c.2.mul (integerDot (.apart l) (.apart r) #[]
        (blockStart row d.k) (blockStart (row / d.m) (d.k * d.n) + col) d.k.toNat d.n.toNat))
  have hstep : integerStep d (.apart l) (.apart r) coefficients row = fun out =>
      if rowInBounds d l.size r.size out.size row = true then (writeRow d (.apart l) (.apart r) coefficients row out, none)
      else (out, some .outOfBounds) := funext fun out => integerStep_eq row out
  rw [hstep]
  exact LocalStep.ite (c := fun size => rowInBounds d l.size r.size size row = true) (hrow.step none)
    ((Local.id _).step _)

theorem integerProduct_eq {ranges ranges' : List Range} {n : Nat} (h : Covers ranges n) (h' : Covers ranges' n)
    (hn : 0 < d.n) (hsmall : d.n < wordLimit) (hout : (out.size : Int) < wordLimit) :
    completed? (integerProduct ranges d (.apart l) (.apart r) coefficients out) =
      completed? (integerProduct ranges' d (.apart l) (.apart r) coefficients out) := by
  rw [integerProduct_eq_foldl, integerProduct_eq_foldl]
  refine completed?_foldl_eq (localStep_integerStep d l r coefficients) (fun hnone => ?_) h h'
  have hblocks : ∀ j : Nat, j < n → isBlock j d.n out.size = true := by
    intro j hj
    have hnone := hnone j hj
    rw [integerStep_eq] at hnone
    split at hnone
    · rename_i hin
      rw [rowInBounds, Bool.and_eq_true] at hin
      exact hin.2
    · cases hnone
  exact fun i j hi hj hij k => blocks_apart hn hsmall hout hblocks hi hj hij

end Integer

/-! ## Products of floating point words -/

section Float

variable {f : FloatFormat} {d : ProductDims} {l r out : Array (FloatWord f)} {alpha beta : FloatWord f} {m n : Nat}

private theorem mem_matrix {base i j : Nat} (hi : i < m) (hj : j < n) :
    base ≤ base + i * n + j ∧ base + i * n + j < base + m * n := by
  have hrow : (i + 1) * n ≤ m * n := Nat.mul_le_mul_right n hi
  rw [Nat.succ_mul] at hrow
  omega

theorem localStep_scaleRows (alpha : FloatWord f) (base : Nat) (count i : Nat) (h : i + count ≤ m) :
    LocalStep (fun k => base ≤ k ∧ k < base + m * n) (scaleRows n alpha base count i) := by
  induction count generalizing i with
  | zero => exact (Local.id _).step false
  | succ count ih =>
    have hrow : Local (fun k => base ≤ k ∧ k < base + m * n) fun out : Array (FloatWord f) =>
        (range n).foldl (fun out j => out.setIfInBounds (base + i * n + j)
          (if alpha.isZero then .zero else alpha.mul (out.getD (base + i * n + j) .zero))) out := by
      refine Local.foldl fun j hj => ?_
      exact Local.update (mem_matrix (by omega) (mem_range.mp hj)) FloatWord.zero
        fun x : FloatWord f => if alpha.isZero then .zero else alpha.mul x
    have hnext := (ih (i + 1) (by omega)).comp hrow
    have hstop : LocalStep (fun k => base ≤ k ∧ k < base + m * n) fun out : Array (FloatWord f) => (out, true) :=
      (Local.id _).step true
    exact LocalStep.ite (c := fun size => size < base + (i + 1) * n) hstop hnext

theorem local_addScaledRow {W : Nat → Prop} (r : Array (FloatWord f)) (t : FloatWord f) (rhsBase : Nat)
    {outBase : Nat} (h : ∀ j : Nat, j < n → W (outBase + j)) : Local W (addScaledRow (.apart r) t rhsBase outBase n) := by
  refine Local.foldl fun j hj => ?_
  exact Local.update (h j (mem_range.mp hj)) FloatWord.zero
    fun x : FloatWord f => x.add (t.mul (r.getD (rhsBase + j) .zero))

theorem localStep_addRows (k : Nat) (l r : Array (FloatWord f)) (beta : FloatWord f) (base : Bases) (count i : Nat)
    (h : i + count ≤ m) :
    LocalStep (fun k => base.out ≤ k ∧ k < base.out + m * n) (addRows k n (.apart l) (.apart r) beta base count i) := by
  induction count generalizing i with
  | zero => exact (Local.id _).step false
  | succ count ih =>
    have hrow : Local (fun k => base.out ≤ k ∧ k < base.out + m * n) fun out : Array (FloatWord f) =>
        (range k).foldl (fun out p =>
          let t := beta.mul ((Source.apart l).getD out (base.lhs + i * k + p) .zero)
          if t.isZero then out
          else addScaledRow (.apart r) t (base.rhs + p * n) (base.out + i * n) n out) out := by
      refine Local.foldl fun p _ => ?_
      dsimp only [Source.getD]
      split
      · exact .id _
      · exact local_addScaledRow r _ _ fun j hj => mem_matrix (by omega) hj
    have hnext := (ih (i + 1) (by omega)).comp hrow
    have hstop : LocalStep (fun k => base.out ≤ k ∧ k < base.out + m * n) fun out : Array (FloatWord f) => (out, true) :=
      (Local.id _).step true
    exact LocalStep.ite
      (c := fun size => (decide (size < base.out + (i + 1) * n) || decide (l.size < base.lhs + (i + 1) * k)) = true)
      hstop hnext

theorem floatMatrix_idle (h : (beta.isZero && alpha == .ofInt 1) = true) (m k n : Nat) (lhs rhs : Source (FloatWord f))
    (base : Bases) (out : Array (FloatWord f)) : floatMatrix m k n lhs rhs alpha beta base out = (out, false) := by
  exact if_pos h

theorem floatMatrix_eq (h : (beta.isZero && alpha == .ofInt 1) = false) (m k n : Nat) (lhs rhs : Source (FloatWord f))
    (base : Bases) (out : Array (FloatWord f)) : floatMatrix m k n lhs rhs alpha beta base out =
      let scaled := if alpha == .ofInt 1 then (out, false) else scaleRows n alpha base.out m 0 out
      if scaled.2 = true then (scaled.1, true) else addRows k n lhs rhs beta base m 0 scaled.1 := by
  unfold floatMatrix
  simp only [h, Bool.false_eq_true, if_false]
  split
  · rename_i hscaled
    rw [hscaled]
    rfl
  · rename_i hscaled
    rw [hscaled]
    rfl

theorem localStep_floatMatrix (m k n : Nat) (l r : Array (FloatWord f)) (alpha beta : FloatWord f) (base : Bases) :
    LocalStep (fun k => base.out ≤ k ∧ k < base.out + m * n)
      (floatMatrix m k n (.apart l) (.apart r) alpha beta base) := by
  cases hidle : beta.isZero && alpha == .ofInt 1 with
  | true =>
    rw [funext (floatMatrix_idle hidle m k n _ _ base)]
    exact (Local.id _).step false
  | false =>
    rw [funext (floatMatrix_eq hidle m k n _ _ base)]
    refine LocalStep.andThen ?_ (localStep_addRows k l r beta base m 0 (by omega))
    split
    · exact (Local.id _).step false
    · exact localStep_scaleRows alpha base.out m 0 (by omega)

theorem le_size_of_addRows {k : Nat} {base : Bases} {count i : Nat} (hcount : 0 < count)
    (h : (addRows k n (.apart l) (.apart r) beta base count i out).2 = false) :
    base.out + (i + count) * n ≤ out.size := by
  induction count generalizing i out with
  | zero => omega
  | succ count ih =>
    rw [addRows] at h
    split at h
    · cases h
    · rename_i hin
      rw [Bool.or_eq_true, decide_eq_true_eq] at hin
      rcases Nat.eq_zero_or_pos count with rfl | hpos
      · rw [Nat.zero_add]
        omega
      · have hrest := ih hpos h
        rw [size_foldl] at hrest
        · rwa [show i + (count + 1) = i + 1 + count by omega]
        · intro out p
          dsimp only
          split
          · rfl
          · exact size_addScaledRow ..

theorem le_size_of_floatMatrix {k : Nat} {base : Bases} (hidle : (beta.isZero && alpha == .ofInt 1) = false)
    (hm : 0 < m) (h : (floatMatrix m k n (.apart l) (.apart r) alpha beta base out).2 = false) :
    base.out + m * n ≤ out.size := by
  rw [floatMatrix_eq hidle] at h
  generalize hscaled : (if alpha == .ofInt 1 then (out, false) else scaleRows n alpha base.out m 0 out) = scaled at h
  have hsize : scaled.1.size = out.size := by
    rw [← hscaled]
    split
    · rfl
    · exact size_scaleRows ..
  dsimp only at h
  split at h
  · cases h
  · have hrows := le_size_of_addRows hm h
    rwa [Nat.zero_add, hsize] at hrows

theorem floatStep_eq (hd : badDims d = none) (lhs rhs : Source (FloatWord f)) (alpha beta : FloatWord f) (b : Nat)
    (out : Array (FloatWord f)) : floatStep d lhs rhs alpha beta b out =
      if batchInBounds d (lhs.size out) (rhs.size out) out.size b = true then
        let r := floatMatrix d.m.toNat d.k.toNat d.n.toNat lhs rhs alpha beta (basesAt d b) out
        (r.1, if r.2 then some .outOfBounds else none)
      else (out, some .outOfBounds) := by
  unfold floatStep
  rw [hd]
  cases batchInBounds d (lhs.size out) (rhs.size out) out.size b <;> rfl

theorem localStep_floatStep (hd : badDims d = none) (l r : Array (FloatWord f)) (alpha beta : FloatWord f) (b : Nat)
    {W : Nat → Prop} (hmatrix : LocalStep W
      (floatMatrix d.m.toNat d.k.toNat d.n.toNat (.apart l) (.apart r) alpha beta (basesAt d b))) :
    LocalStep W (floatStep d (.apart l) (.apart r) alpha beta b) := by
  rw [funext (floatStep_eq hd _ _ alpha beta b)]
  exact LocalStep.ite (c := fun size => batchInBounds d l.size r.size size b = true)
    (hmatrix.map fun failed => if failed then some FloatFault.outOfBounds else none) ((Local.id W).step _)

/-- A batch without fault is within the output, and so is all of its matrix unless nothing is done. -/
theorem of_floatStep_none (hd : badDims d = none) {b : Nat}
    (h : (floatStep d (.apart l) (.apart r) alpha beta b out).2 = none) :
    isBlock b (d.m * d.n) out.size = true ∧
    (floatMatrix d.m.toNat d.k.toNat d.n.toNat (.apart l) (.apart r) alpha beta (basesAt d b) out).2 = false := by
  rw [floatStep_eq hd] at h
  split at h
  · rename_i hin
    rw [batchInBounds, Bool.and_eq_true] at hin
    refine ⟨hin.2, ?_⟩
    dsimp only at h
    split at h
    · cases h
    · rename_i hfalse
      exact Bool.eq_false_iff.mpr hfalse
  · cases h

theorem floatProduct_eq {ranges ranges' : List Range} {count : Nat} (h : Covers ranges count) (h' : Covers ranges' count)
    (hd : badDims d = none) (hm : 0 < d.m) (hn : 0 < d.n) (hout : (out.size : Int) < wordLimit) :
    completed? (floatProduct ranges d (.apart l) (.apart r) alpha beta out) =
      completed? (floatProduct ranges' d (.apart l) (.apart r) alpha beta out) := by
  rw [floatProduct_eq_foldl, floatProduct_eq_foldl]
  cases hidle : beta.isZero && alpha == .ofInt 1 with
  | true =>
    -- blocks that wrap around may overlap here, but nothing is written
    refine completed?_foldl_eq (W := fun _ _ => False) (fun b => localStep_floatStep hd l r alpha beta b ?_)
      (fun _ _ _ _ _ _ _ hfalse => hfalse.elim) h h'
    rw [funext (floatMatrix_idle hidle _ _ _ _ _ _)]
    exact (Local.id _).step false
  | false =>
    refine completed?_foldl_eq
      (fun b => localStep_floatStep hd l r alpha beta b (localStep_floatMatrix _ _ _ l r alpha beta (basesAt d b)))
      (fun hnone i j hi hj hij k => ?_) h h'
    have hlength : (d.m * d.n).toNat = d.m.toNat * d.n.toNat :=
      Int.toNat_mul (Int.le_of_lt hm) (Int.le_of_lt hn)
    have hmatrix := le_size_of_floatMatrix hidle (by omega) (of_floatStep_none hd (hnone i hi)).2
    rw [← hlength] at hmatrix ⊢
    exact blocks_apart (Int.mul_pos hm hn) (by omega) hout (fun b hb => (of_floatStep_none hd (hnone b hb)).1) hi hj hij

end Float

end LazyTensor.Kernel
