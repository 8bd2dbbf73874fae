import LazyTensor.Proofs.Graph.Rules
import LazyTensor.Proofs.Host.Execute

/-!
# Operations that have values

If all elements fit in memory, then every index that a kernel computes is within its data. So an operation that
accepts its operands has a value, unless it divides an integer by zero (`Operation.dividesByZero_of_value?`),
and no product leaves its output as it is (`Operation.skipsOutput_eq_false`).
-/

namespace LazyTensor

open List Option

/-! ## Shapes that fit in memory -/

namespace Shape

/-- The bytes of all elements, without wrapping around. -/
def exactBytes (s : Shape) : Int := s.dims.prod * (s.dtype.bytes?.getD 0 : Nat)

/-- The shape is valid, and half of the largest allocation holds its elements. -/
structure Allocatable (s : Shape) : Prop where
  valid : s.Valid
  bytes_lt : s.exactBytes < 2 ^ 47

namespace Allocatable

variable {s : Shape}

theorem prod_pos (h : s.Allocatable) : 0 < s.dims.prod := LazyTensor.prod_pos h.valid.positive

private theorem exists_bytes (h : s.Valid) :
    ∃ t n, s.dtype.element? = some t ∧ s.dtype.bytes? = some n ∧ 0 < n := by
  obtain ⟨t, ht⟩ := isSome_iff_exists.mp h.supported
  rw [DType.eq_dtype ht]
  cases t <;> exact ⟨_, _, rfl, rfl, by decide⟩

theorem prod_lt (h : s.Allocatable) : s.dims.prod < 2 ^ 47 := by
  obtain ⟨-, n, -, hn, hpos⟩ := exists_bytes h.valid
  have hbytes := h.bytes_lt
  rw [exactBytes, hn, getD_some] at hbytes
  have hle : s.dims.prod * 1 ≤ s.dims.prod * (n : Int) :=
    Int.mul_le_mul_of_nonneg_left (by omega) (Int.le_of_lt h.prod_pos)
  omega

theorem prod_lt_wordLimit (h : s.Allocatable) : s.dims.prod < wordLimit := Int.lt_trans h.prod_lt (by decide)

theorem size_eq (h : s.Allocatable) : s.size = s.dims.prod :=
  size_eq_prod (Int.le_of_lt h.prod_pos) h.prod_lt_wordLimit

theorem exists_layout (h : s.Allocatable) :
    ∃ t l, s.dtype.element? = some t ∧ Layout.make s.dtype s.size = .ok l ∧ (l.size : Int) = s.size := by
  obtain ⟨t, n, ht, hn, -⟩ := exists_bytes h.valid
  have hpos := h.prod_pos
  have hbytes := h.bytes_lt
  have hsize := h.size_eq
  have hstorage : s.dtype.storage? = some (.element t) := by rw [DType.storage?, ht]
  have hok : s.dtype.bytes = .ok n := by rw [DType.bytes, hn]
  have hroom : ¬ Layout.maxBytes < n * s.size.toNat := by
    have hmax : (Layout.maxBytes : Int) = 2 ^ 48 := rfl
    have hexact : ((n * s.size.toNat : Nat) : Int) = s.exactBytes := by
      rw [exactBytes, hn, getD_some, Int.natCast_mul, hsize, Int.toNat_of_nonneg (Int.le_of_lt hpos),
        Int.mul_comm]
    omega
  refine ⟨t, ⟨.element t, s.size.toNat⟩, ht, ?_, Int.toNat_of_nonneg (by omega)⟩
  rw [Layout.make, hstorage, hok]
  simp only
  rw [if_neg (by omega), if_neg hroom]

theorem not_noLayout {e : Stop} (h : s.Allocatable) : ¬ HostM.NoLayout s e := by
  rintro ⟨cause, herror, -⟩
  obtain ⟨t, l, -, hlayout, -⟩ := h.exists_layout
  rw [hlayout] at herror
  cases herror

end Allocatable

end Shape

/-! ## Programs -/

namespace Kernel

/-- Steps divide an integer by zero: those before a division have results, and its divisor is zero. -/
def DividesByZero (t : ElementType) (inputs : Nat → Option t.Lane) (steps : List Step) : Prop :=
  ∃ before s after results x y, steps = before ++ s :: after ∧ s.kind = .elementwise (.binary .div) ∧
    resultsAt inputs #[] before = some results ∧ s.operands.mapM (operandAt inputs results) = some [x, y] ∧
    t.toScalar (t.narrow y) = .integer 0

section Steps

variable {α : Type} [Arithmetic α] {inputs : Nat → Option α}

theorem exists_stepAt_eq_none {results : Array α} {steps : List Step} (h : resultsAt inputs results steps = none) :
    ∃ before s after results', steps = before ++ s :: after ∧ resultsAt inputs results before = some results' ∧
      stepAt inputs results' s = none := by
  induction steps generalizing results with
  | nil => cases h
  | cons s steps ih =>
    cases hs : stepAt inputs results s with
    | none => exact ⟨[], s, steps, results, rfl, rfl, hs⟩
    | some y =>
      rw [resultsAt, hs] at h
      obtain ⟨before, s', after, results', rfl, hbefore, hnone⟩ := ih h
      refine ⟨s :: before, s', after, results', rfl, ?_, hnone⟩
      rw [resultsAt, hs, bind_some, hbefore]

omit [Arithmetic α] in
theorem exists_operands_at {numInputs : Int} {results : Array α} {s : Step} (hs : s.ValidAt numInputs results.size)
    (hinputs : ∀ k : Nat, (k : Int) < numInputs → (inputs k).isSome = true) :
    ∃ args, s.operands.mapM (operandAt inputs results) = some args ∧ args.length = s.kind.arity := by
  cases hargs : s.operands.mapM (operandAt inputs results) with
  | none =>
    obtain ⟨o, ho, hnone⟩ := mapM_eq_none_iff.mp hargs
    have hvalid := hs.operands o ho
    -- an operand is an input or an earlier result, and both are there
    cases o with
    | input i =>
      have hsome := hinputs i.toNat (by rw [Int.toNat_of_nonneg hvalid.1]; exact hvalid.2)
      rw [operandAt] at hnone
      rw [hnone] at hsome
      cases hsome
    | step i =>
      have hlt : i.toNat < results.size := by
        have hbounds : 0 ≤ i ∧ i < (results.size : Int) := hvalid
        omega
      rw [operandAt, Array.getElem?_eq_getElem hlt] at hnone
      cases hnone
  | some args =>
    refine ⟨args, rfl, ?_⟩
    have hlength := congrArg length (mapM_eq_some_iff.mp hargs)
    rw [length_map, length_map] at hlength
    rw [← hlength, hs.arity]

end Steps

/-- Only a division by zero has no result. -/
theorem applyAt_eq_none {t : ElementType} {kind : OpKind} {args : List t.Lane} (hkind : kind.isElementwise = true)
    (hlen : args.length = kind.arity)
    (htotal : ∀ op, kind = .elementwise (.unary op) → ∀ x : t.Lane, (Arithmetic.unary op x).isSome = true)
    (h : applyAt kind args = none) :
    ∃ x y, kind = .elementwise (.binary .div) ∧ args = [x, y] ∧ t.toScalar (t.narrow y) = .integer 0 := by
  rcases elementwise_args hkind hlen with ⟨op, x, rfl, rfl⟩ | ⟨op, x, y, rfl, rfl⟩ | ⟨x, y, z, rfl, rfl⟩
  · have hsome := htotal op rfl x
    rw [applyAt] at h
    rw [h] at hsome
    cases hsome
  · -- of the operations on two words, only a division can have no result
    have hzero : ∀ {f : IntFormat} (x y : IntWord f), IntWord.binary op x y = none → op = .div ∧ y.value = 0 := by
      intro f x y hnone
      cases op with
      | div =>
        simp only [IntWord.binary, IntWord.div?] at hnone
        split at hnone
        · exact ⟨rfl, by assumption⟩
        · cases hnone
      | _ => cases hnone
    cases t with
    | uint8 | uint32 | int32 | int64 =>
      obtain ⟨rfl, hy⟩ := hzero x y h
      exact ⟨x, y, rfl, rfl, congrArg Scalar.integer hy⟩
    | float16 | bfloat16 | float32 | float64 => cases h
  · cases h

/-- A valid and defined program has a result, unless it divides an integer by zero. -/
theorem dividesByZero_of_programAt {t : ElementType} {p : Program} {data : Array (Array t.Elem)} {i : Nat}
    (hp : p.Valid) (hdefined : p.Defined) (ht : p.dtype.element? = some t) (hcount : (data.size : Int) = p.numInputs)
    (hsize : ∀ x ∈ data, i < x.size) (h : programAt t p data i = none) :
    DividesByZero t (fun k => (lane data i k).map t.widen) p.steps := by
  have hinputs : ∀ k : Nat, (k : Int) < p.numInputs → ((lane data i k).map t.widen).isSome = true := by
    intro k hk
    have hlt : k < data.size := by omega
    have hi := hsize data[k] (Array.getElem_mem hlt)
    rw [lane, Array.getElem?_eq_getElem hlt, bind_some, Array.getElem?_eq_getElem hi]
    rfl
  -- there is a last result if all steps have results
  have hnone : resultsAt (fun k => (lane data i k).map t.widen) #[] p.steps = none := by
    cases hall : resultsAt (fun k => (lane data i k).map t.widen) #[] p.steps with
    | none => rfl
    | some all =>
      have hpos : 0 < all.size := by
        rw [size_resultsAt hall]
        exact Nat.add_pos_right _ (length_pos_iff.mpr hp.steps_ne_nil)
      rw [programAt, hall, bind_some, Array.back?_eq_getElem?,
        Array.getElem?_eq_getElem (Nat.sub_lt hpos Nat.one_pos)] at h
      cases h
  obtain ⟨before, s, after, results, hsteps, hbefore, hs⟩ := exists_stepAt_eq_none hnone
  have hget : p.steps[before.length]? = some s := by
    rw [hsteps]
    simp
  have hvalid : s.ValidAt p.numInputs results.size := by
    rw [size_resultsAt hbefore, Array.size_empty, Nat.zero_add]
    exact hp.steps _ s hget
  obtain ⟨args, hargs, hlength⟩ := exists_operands_at hvalid hinputs
  have htotal := HostM.unaryTotal hdefined ht s (mem_of_getElem? hget)
  rw [stepAt, hargs] at hs
  obtain ⟨x, y, hkind, rfl, hzero⟩ := applyAt_eq_none hvalid.elementwise hlength htotal hs
  exact ⟨before, s, after, results, x, y, hsteps, hkind, hbefore, hargs, hzero⟩

end Kernel

/-! ## Products -/

namespace ProductDims

variable {d : ProductDims} {l r s : Shape}

theorem Of.fitting (h : d.Of l r s) (hl : l.Allocatable) (hr : r.Allocatable) (hs : s.Allocatable) {lhs rhs out : Nat}
    (hlhs : (lhs : Int) = l.size) (hrhs : (rhs : Int) = r.size) (hout : (out : Int) = s.size) :
    Kernel.Fitting d lhs rhs out where
  batch_pos := h.batch_pos
  m_pos := h.m_pos
  k_pos := h.k_pos
  n_pos := h.n_pos
  lhs_eq := by rw [hlhs, hl.size_eq, h.lhs_eq]
  rhs_eq := by rw [hrhs, hr.size_eq, h.rhs_eq]
  out_eq := by rw [hout, hs.size_eq, h.out_eq]
  lhs_lt := by rw [hlhs, hl.size_eq]; exact hl.prod_lt_wordLimit
  rhs_lt := by rw [hrhs, hr.size_eq]; exact hr.prod_lt_wordLimit
  out_lt := by rw [hout, hs.size_eq]; exact hs.prod_lt_wordLimit

end ProductDims

namespace Operation

open Kernel

variable {t : ElementType} {d : ProductDims} {n : Nat} {permutation : List Int}

private theorem size_getD {α : Type} {bias : Option (Array α)} (hbias : ∀ old ∈ bias, old.size = n) (zero : α) :
    (bias.getD (Array.replicate n zero)).size = n := by
  cases bias with
  | none => exact Array.size_replicate
  | some old => exact hbias old rfl

theorem floatElements?_isSome {f : FloatFormat} {l r : Array (FloatWord f)} {bias : Option (Array (FloatWord f))}
    (h : Fitting d l.size r.size n) (hbias : ∀ old ∈ bias, old.size = n) (alpha beta : FloatWord f) :
    (floatElements? alpha beta d n l r bias).isSome = true := by
  apply floatProduct?_isSome
  rwa [size_getD hbias]

theorem halfElements?_isSome {α : Type} {l r : Array α} {bias : Option (Array α)} (h : Fitting d l.size r.size n)
    (hbias : ∀ old ∈ bias, old.size = n) (widen : α → Single) (narrow : Single → α) (alpha beta : Single) :
    (halfElements? widen narrow alpha beta d n l r bias).isSome = true := by
  rw [halfElements?, isSome_map]
  apply floatElements?_isSome
  · rwa [Array.size_map, Array.size_map]
  · intro old hold
    obtain ⟨old, hmem, rfl⟩ := map_eq_some_iff.mp hold
    rw [Array.size_map, hbias old hmem]

theorem integerElements?_isSome {f : IntFormat} {l r : Array (IntWord f)} {bias : Option (Array (IntWord f))}
    (h : Fitting d l.size r.size n) (hbias : ∀ old ∈ bias, old.size = n) (alpha beta : Double) :
    (integerElements? alpha beta d n l r bias).isSome = true := by
  apply integerProduct?_isSome
  rwa [size_getD hbias]

theorem productElements?_isSome {l r : Array t.Elem} {bias : Option (Array t.Elem)} (h : Fitting d l.size r.size n)
    (hbias : ∀ old ∈ bias, old.size = n) (alpha beta : Double) :
    (productElements? alpha beta d n t l r bias).isSome = true := by
  cases t with
  | float32 | float64 => exact floatElements?_isSome h hbias _ _
  | float16 | bfloat16 => exact halfElements?_isSome h hbias _ _ _ _
  | uint8 | uint32 | int32 | int64 => exact integerElements?_isSome h hbias _ _

/-- A product of operands that fit has a value. -/
theorem matMulElements?_isSome {l r : Value} {output : Shape}
    (hproduct : productShape l.shape r.shape = .ok output) (ht : output.dtype.element? = some t)
    (hl : l.shape.Allocatable) (hr : r.shape.Allocatable) (houtput : output.Allocatable) (hlsound : l.buffer.Sound)
    (hrsound : r.buffer.Sound) (bias : Option Value) (hbias : ∀ b ∈ bias, b.shape = output ∧ b.buffer.Sound)
    (hn : (n : Int) = output.size) (alpha beta : Double) :
    (matMulElements? alpha beta t l r bias n).isSome = true := by
  obtain ⟨hdtypes, hdtype, d, hd, hof⟩ := ProductDims.of_productShape hl.valid hr.valid hproduct
  have hlt : l.shape.dtype.element? = some t := by rwa [← hdtype]
  have hrt : r.shape.dtype.element? = some t := by rwa [← hdtypes]
  obtain ⟨ldata, hldata, hlsize, -⟩ := hlsound.exists_elements hlt
  obtain ⟨rdata, hrdata, hrsize, -⟩ := hrsound.exists_elements hrt
  -- the operands and the output fit together, so all indices are within the data
  have hfitting : Fitting d ldata.size rdata.size n := hof.fitting hl hr houtput hlsize hrsize hn
  have hlas : l.flat.as? t = some ldata := by
    rw [show l.flat = _ from hldata, Flat.as?_ofElements]
  have hras : r.flat.as? t = some rdata := by
    rw [show r.flat = _ from hrdata, Flat.as?_ofElements]
  simp only [matMulElements?, hd, hlas, hras]
  cases bias with
  | none => exact productElements?_isSome hfitting (fun old h => absurd h (not_mem_none old)) _ _
  | some bias =>
    obtain ⟨hshape, hsound⟩ := hbias bias rfl
    obtain ⟨old, hold, hsize, -⟩ := hsound.exists_elements (show bias.shape.dtype.element? = some t by rw [hshape, ht])
    have hbsize : old.size = n := by
      have hbuffer : (old.size : Int) = bias.shape.size := hsize
      rw [hshape] at hbuffer
      omega
    have hbas : bias.flat.as? t = some old := by
      rw [show bias.flat = _ from hold, Flat.as?_ofElements]
    simp only [hbas]
    refine productElements?_isSome hfitting (fun old' hold' => ?_) _ _
    rwa [← mem_some.mp hold']

/-! ## Transpositions -/

theorem sum_last_permuted {x : Shape} (hlength : permutation.length = x.rank)
    (h : isPermutation x.rank permutation = true) :
    (((permutation.map fun axis => x.dims.getD axis.toNat 0).zip
      (permutation.map fun axis => x.strides.getD axis.toNat 0)).map fun p => (p.1 - 1) * p.2).sum =
      ((x.dims.zip x.strides).map fun p => (p.1 - 1) * p.2).sum := by
  let last (k : Nat) : Int := (x.dims.getD k 0 - 1) * x.strides.getD k 0
  have hpermuted : ((permutation.map fun axis => x.dims.getD axis.toNat 0).zip
      (permutation.map fun axis => x.strides.getD axis.toNat 0)).map (fun p => (p.1 - 1) * p.2) =
        (permutation.map Int.toNat).map last := by
    rw [zip_map', List.map_map, List.map_map]
    rfl
  have hinOrder : (x.dims.zip x.strides).map (fun p => (p.1 - 1) * p.2) = (range x.rank).map last := by
    have hstrides : x.strides.length = x.dims.length := Shape.length_stridesOf x.dims
    refine ext_getElem (by simp [Shape.rank, hstrides]) fun k hk hk' => ?_
    rw [length_map, length_range] at hk'
    have hdims : k < x.dims.length := hk'
    have hlt : k < x.strides.length := by omega
    simp [last, getElem?_eq_getElem hdims, getElem?_eq_getElem hlt]
  rw [hpermuted, hinOrder]
  exact ((perm_range_of_isPermutation hlength h).map last).foldr_eq' (fun a _ b _ c => Int.add_left_comm b a c) 0

/-- A transposition of an operand that fits has a value. -/
theorem transposeElements?_isSome {v : Value} {output : Shape}
    (hshape : transposeShape v.shape permutation = .ok output) (ht : output.dtype.element? = some t)
    (hv : v.shape.Allocatable) (houtput : output.Valid) (hsound : v.buffer.Sound) :
    (transposeElements? permutation t v output n).isSome = true := by
  obtain ⟨hlength, hperm, rfl⟩ := transposeShape_eq_ok hshape
  obtain ⟨src, hsrc, hsize, -⟩ := hsound.exists_elements (show v.shape.dtype.element? = some t from ht)
  have hsrcSize : (src.size : Int) = v.shape.dims.prod := by
    rwa [← hv.size_eq]
  have hstrides : ∀ stride ∈ permutation.map (fun axis => v.shape.strides.getD axis.toNat 0), 0 ≤ stride := by
    intro stride hstride
    obtain ⟨axis, -, rfl⟩ := List.mem_map.mp hstride
    rw [getD_eq_getElem?_getD]
    cases hget : v.shape.strides[axis.toNat]? with
    | none => exact Int.le_refl 0
    | some stride =>
      exact Int.le_of_lt (Shape.strides_pos hv.valid.positive hv.prod_lt_wordLimit stride (mem_of_getElem? hget))
  -- the place that is farthest away is that of the last element
  have hlast := sum_last_permuted hlength hperm
  rw [Shape.strides, Shape.sum_last hv.valid.positive hv.prod_lt_wordLimit] at hlast
  have hplaces : ∀ i : Nat, (transposedAt src (permutation.map fun axis => v.shape.dims.getD axis.toNat 0)
      (permutation.map fun axis => v.shape.strides.getD axis.toNat 0) i).isSome = true := by
    refine transposedAt_isSome houtput.positive hstrides ?_ ?_
    · rw [Shape.strides]
      omega
    · rw [hsrcSize]
      exact hv.prod_lt_wordLimit
  have has : v.flat.as? t = some src := by
    rw [show v.flat = _ from hsrc, Flat.as?_ofElements]
  rw [transposeElements?, HostM.permutedStrides_eq hperm, has]
  cases htable : transposed? src (permutation.map fun axis => v.shape.dims.getD axis.toNat 0)
    (permutation.map fun axis => v.shape.strides.getD axis.toNat 0) n with
  | none =>
    obtain ⟨i, -, hnone⟩ := table?_eq_none_iff.mp htable
    have hsome := hplaces i
    rw [hnone] at hsome
    cases hsome
  | some data =>
    simp only [bind_eq_bind, bind_some, htable]
    rfl

/-! ## Operations -/

/-- The operation divides an integer by zero, at one of the places of its output. -/
def DividesByZero (op : Operation) (values : List Value) (output : Shape) : Prop :=
  ∃ (t : ElementType) (p : Program) (data : List (Array t.Elem)) (i : Nat), output.dtype.element? = some t ∧
    op.program? output.dtype = some p ∧ values.mapM (fun v => v.flat.as? t) = some data ∧ (i : Int) < output.size ∧
    Kernel.DividesByZero t (fun k => (lane data.toArray i k).map t.widen) p.steps

variable {op : Operation} {values : List Value} {output : Shape} {p : Program}

theorem dividesByZero_of_program (hp : p.Valid) (hdefined : p.Defined) (hdtype : p.dtype = output.dtype)
    (hprogram : op.program? output.dtype = some p) (hcount : (values.length : Int) = p.numInputs)
    (ht : output.dtype.element? = some t) (hshape : ∀ v ∈ values, v.shape = output)
    (hsound : ∀ v ∈ values, v.buffer.Sound) (hn : (n : Int) = output.size)
    (h : programElements? t p values n = none) : op.DividesByZero values output := by
  obtain ⟨data, hdata, hlength, hsizes⟩ := HostM.exists_data ht hshape hsound
  rw [programElements?, hdata, bind_some, programTable?, table?_eq_none_iff] at h
  obtain ⟨i, hi, hnone⟩ := h
  refine ⟨t, p, data, i, ht, hprogram, hdata, by omega, ?_⟩
  refine dividesByZero_of_programAt hp hdefined (by rw [hdtype, ht]) ?_ (fun x hx => ?_) hnone
  · rw [List.size_toArray, hlength, hcount]
  · have hsize := hsizes x (List.mem_toArray.mp hx)
    omega

/-- An operation on operands that it accepts has a value if all elements fit in memory, unless it divides an
integer by zero. -/
theorem dividesByZero_of_value? (haccepts : op.Accepts (values.map (·.shape)) output) (houtput : output.Allocatable)
    (hvalues : ∀ v ∈ values, v.shape.Allocatable) (hsound : ∀ v ∈ values, v.buffer.Sound)
    (h : op.value? values output = none) : op.DividesByZero values output := by
  obtain ⟨t, l, ht, hl, hsize⟩ := houtput.exists_layout
  rw [HostM.value?_eq ht hl, map_eq_none_iff] at h
  generalize hshapes : values.map (·.shape) = shapes at haccepts
  -- only programs divide, and everything else has a value
  cases haccepts with
  | fill x => cases h
  | arange start step => cases h
  | elementwise e _ hdefined =>
    obtain ⟨hcount, hsame⟩ := eq_replicate_iff.mp hshapes
    rw [length_map] at hcount
    have hshape : ∀ v ∈ values, v.shape = output := fun v hv => hsame _ (List.mem_map_of_mem hv)
    exact dividesByZero_of_program (Program.single_valid e _) (Program.single_defined hdefined) rfl rfl
      (congrArg Nat.cast hcount) ht hshape hsound hsize h
  | fused p count _ hdtype hp hdefined hnumInputs =>
    obtain ⟨hcount, hsame⟩ := eq_replicate_iff.mp hshapes
    rw [length_map] at hcount
    have hshape : ∀ v ∈ values, v.shape = output := fun v hv => hsame _ (List.mem_map_of_mem hv)
    exact dividesByZero_of_program (Program.validate_eq_ok_iff.mp hp) hdefined hdtype rfl
      (by rw [hnumInputs, hcount]) ht hshape hsound hsize h
  | matMul alpha beta lhs rhs _ hproduct =>
    obtain ⟨lv, _, rfl, rfl, hrest⟩ := map_eq_cons_iff.mp hshapes
    obtain ⟨rv, _, rfl, rfl, hnil⟩ := map_eq_cons_iff.mp hrest
    obtain rfl := map_eq_nil_iff.mp hnil
    have hsome := matMulElements?_isSome hproduct ht (hvalues lv (by simp)) (hvalues rv (by simp)) houtput
      (hsound lv (by simp)) (hsound rv (by simp)) none (fun b hb => absurd hb (not_mem_none b)) hsize alpha beta
    exact absurd h (isSome_iff_ne_none.mp hsome)
  | matMulBias alpha beta lhs rhs _ hproduct =>
    obtain ⟨lv, _, rfl, rfl, hrest⟩ := map_eq_cons_iff.mp hshapes
    obtain ⟨rv, _, rfl, rfl, hlast⟩ := map_eq_cons_iff.mp hrest
    obtain ⟨bias, _, rfl, hbias, hnil⟩ := map_eq_cons_iff.mp hlast
    obtain rfl := map_eq_nil_iff.mp hnil
    have hbias' : ∀ b ∈ some bias, b.shape = output ∧ b.buffer.Sound := by
      intro b hb
      rw [← mem_some.mp hb]
      exact ⟨hbias, hsound bias (by simp)⟩
    have hsome := matMulElements?_isSome hproduct ht (hvalues lv (by simp)) (hvalues rv (by simp)) houtput
      (hsound lv (by simp)) (hsound rv (by simp)) (some bias) hbias' hsize alpha beta
    exact absurd h (isSome_iff_ne_none.mp hsome)
  | transpose permutation x _ hshape =>
    obtain ⟨v, _, rfl, rfl, hnil⟩ := map_eq_cons_iff.mp hshapes
    obtain rfl := map_eq_nil_iff.mp hnil
    have hsome := transposeElements?_isSome hshape ht (hvalues v (by simp)) houtput.valid (hsound v (by simp)) (n := l.size)
    exact absurd h (isSome_iff_ne_none.mp hsome)
  | cast x _ hdims hdtype =>
    obtain ⟨v, _, rfl, rfl, hnil⟩ := map_eq_cons_iff.mp hshapes
    obtain rfl := map_eq_nil_iff.mp hnil
    obtain ⟨u, hu⟩ := isSome_iff_exists.mp (hvalues v (by simp)).valid.supported
    obtain ⟨data, hdata, -⟩ := (hsound v (by simp)).exists_elements hu
    rw [elements?, castElements?, show v.flat = _ from hdata] at h
    cases h

/-- The only cause for which an operation on operands that it accepts has no value is a division by zero. -/
theorem dividesByZero_of_causes {e : Stop} (haccepts : op.Accepts (values.map (·.shape)) output)
    (houtput : output.Allocatable) (hvalues : ∀ v ∈ values, v.shape.Allocatable)
    (hsound : ∀ v ∈ values, v.buffer.Sound) (hcause : HostM.Causes op values output e) :
    op.DividesByZero values output ∧ ∃ position, e = .divisionByZero position := by
  obtain ⟨hnone, hfails⟩ := hcause
  have hdivides := dividesByZero_of_value? haccepts houtput hvalues hsound hnone
  refine ⟨hdivides, ?_⟩
  cases hfails with
  | division p hp position => exact ⟨position, rfl⟩
  | layout hlayout => exact absurd hlayout houtput.not_noLayout
  | bounds hkind =>
    -- only programs divide, and neither products nor transpositions run one
    obtain ⟨-, p, -, -, -, hp, -⟩ := hdivides
    cases op with
    | elementwise e | fused p => simp [Operation.kind] at hkind
    | _ => simp [Operation.program?] at hp

theorem skipsOutput_eq_false {shapes : List Shape} (haccepts : op.Accepts shapes output) (houtput : output.Allocatable)
    (hshapes : ∀ x ∈ shapes, x.Allocatable) : op.skipsOutput shapes output = false := by
  cases haccepts with
  | matMul alpha beta l r _ hproduct =>
    have hl := hshapes l (by simp)
    have hr := hshapes r (by simp)
    obtain ⟨-, -, d, hd, hof⟩ := ProductDims.of_productShape hl.valid hr.valid hproduct
    have hsize : ∀ {s : Shape}, s.Allocatable → (s.size.toNat : Int) = s.size := by
      intro s hs
      rw [hs.size_eq]
      exact Int.toNat_of_nonneg (Int.le_of_lt hs.prod_pos)
    have hrows := (hof.fitting hl hr houtput (hsize hl) (hsize hr) (hsize houtput)).operands.rows_eq
    have hpos : 0 < d.batch * d.m := Int.mul_pos hof.batch_pos hof.m_pos
    have hnot : ¬ d.batch * d.m < 0 := by omega
    simp only [skipsOutput, hd, Except.toOption, any_some, hrows, hnot, decide_false, Bool.and_false]
  | _ => rfl

end Operation

end LazyTensor
