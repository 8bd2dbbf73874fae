import LazyTensor.Proofs.Host.Reach

/-!
# What a failed execution leaves behind

An elementwise operation gives its new buffer back if its kernel fails. Every other operation takes the buffer for
its output once its arguments have passed the checks that come first, and if it fails afterwards the buffer stays
counted although no one holds it. No execution that fails finalizes a buffer.
-/

namespace LazyTensor

open List Option

namespace HostState

variable {s s' s'' : HostState} {shapes shapes' : List Shape}

theorem Live.exists_flat {id : Nat} {b : HostBuffer} (h : s.Live id b) : ∃ flat, s.Live id ⟨b.shape, flat, false⟩ :=
  ⟨b.flat, by rwa [← h.2]⟩

/-- The account counts buffers of these shapes more, and live buffers still have their shapes. -/
structure Counts (s : HostState) (shapes : List Shape) (s' : HostState) : Prop where
  adds : s.host.account.Adds s'.host.account shapes
  live : ∀ (id : Nat) (b : HostBuffer), s.Live id b → ∃ flat, s'.Live id ⟨b.shape, flat, false⟩

theorem Counts.refl (s : HostState) : Counts s [] s where
  adds := s.host.account.adds_nil
  live _ _ hb := hb.exists_flat

theorem Counts.trans (h : Counts s shapes s') (h' : Counts s' [] s'') : Counts s shapes s'' where
  adds := h.adds.congr h'.adds.sameUse
  live id b hb := by
    obtain ⟨flat, hflat⟩ := h.live id b hb
    exact h'.live id ⟨b.shape, flat, false⟩ hflat

theorem Kept.counts (h : Kept s s') : Counts s [] s' := ⟨s.host.account.adds_nil.congr h.sameUse, h.live⟩

end HostState

variable {t : ElementType}

namespace HostM

open HostState

variable {ε α β : Type} {s s' : HostState} {shapes : List Shape} {output : Shape}

/-! ## Steps that count nothing -/

/-- The steps count no buffer, whether they fail or not. -/
def Quiet (x : HostM ε α) : Prop := ∀ s, Counts s [] (exec x s).2

theorem counts_bind {x : HostM ε α} {f : α → HostM ε β} (hx : Counts s shapes (exec x s).2) (hf : ∀ a, Quiet (f a)) :
    Counts s shapes (exec (x >>= f) s).2 := by
  rcases hexec : exec x s with ⟨_ | a, s'⟩
  · rw [hexec] at hx
    rwa [exec_bind_error hexec]
  · rw [hexec] at hx
    rw [exec_bind_ok hexec]
    exact hx.trans (hf a s')

theorem Quiet.bind {x : HostM ε α} {f : α → HostM ε β} (hx : Quiet x) (hf : ∀ a, Quiet (f a)) : Quiet (x >>= f) :=
  fun s => counts_bind (hx s) hf

theorem quiet_pure (a : α) : Quiet (pure a : HostM ε α) := Counts.refl

theorem quiet_throw (e : ε) : Quiet (throw e : HostM ε α) := Counts.refl

theorem quiet_get_bind {f : HostState → HostM ε β} (hf : ∀ s, Quiet (f s)) : Quiet (get >>= f) := fun s => hf s s

theorem Fixed.quiet (hx : Fixed x) : Quiet x := by
  obtain ⟨r, hx⟩ := hx
  intro s
  rw [hx]
  exact Counts.refl s

theorem quiet_buffer (id : BufferId) : Quiet (buffer id) := by
  refine quiet_get_bind fun s => ?_
  split
  · exact quiet_pure _
  · exact quiet_throw _

theorem quiet_write (id : BufferId) (flat : Flat) : Quiet (write id flat : HostM ε Unit) := by
  intro s
  cases hb : s.heap.get? id with
  | none =>
    rw [write, exec_bind_ok (exec_get s), hb]
    exact Counts.refl s
  | some b =>
    rw [exec_write hb]
    refine ⟨s.host.account.adds_nil, fun j c hc => ?_⟩
    by_cases hj : j = id
    · subst hj
      obtain rfl := Option.some.inj (hb.symm.trans hc.1)
      refine ⟨flat, ?_, rfl⟩
      rw [HostState.put, Heap.get?_set hb, if_pos rfl, ← hc.2]
    · refine Live.exists_flat ⟨?_, hc.2⟩
      rw [HostState.put, Heap.get?_set hb, if_neg hj]
      exact hc.1

theorem quiet_floatProduct {f : FloatFormat} (h : t.Elem = FloatWord f) (d : ProductDims)
    (lhs rhs : BufferId × HostBuffer) (out : BufferId) (alpha beta : FloatWord f) :
    Quiet (floatProduct t h d lhs rhs out alpha beta) := by
  refine (fixed_source t out lhs).quiet.bind fun l => (fixed_source t out rhs).quiet.bind fun r => ?_
  refine (quiet_buffer out).bind fun b => (fixed_elements t b).quiet.bind fun old => quiet_get_bind fun s₀ => ?_
  exact (quiet_write out _).bind fun _ => (fixed_checkFloatFault _).quiet

theorem quiet_bias_bind {out : BufferId} {n : Nat} (hasBias : Bool) {f : Array Single → HostM Stop β}
    (hf : ∀ old, Quiet (f old)) :
    Quiet (if hasBias = true then buffer out >>= fun b => widened b >>= f
      else pure (Array.replicate n FloatWord.zero) >>= f) := by
  split
  · exact (quiet_buffer out).bind fun b => (fixed_widened b).quiet.bind hf
  · exact (quiet_pure _).bind hf

theorem quiet_halfProduct (narrow : Single → t.Elem) (d : ProductDims) (lhs rhs : HostBuffer) (out : BufferId)
    (output : Shape) (hasBias : Bool) (alpha beta : Single) :
    Quiet (halfProduct t narrow d lhs rhs out output hasBias alpha beta) := by
  refine quiet_bias_bind hasBias fun old => ?_
  refine (fixed_widened lhs).quiet.bind fun l => (fixed_widened rhs).quiet.bind fun r => quiet_get_bind fun s₀ => ?_
  exact (fixed_checkFloatFault _).quiet.bind fun _ => quiet_write out _

theorem quiet_integerProduct {f : IntFormat} (h : t.Elem = IntWord f) (d : ProductDims)
    (lhs rhs : BufferId × HostBuffer) (out : BufferId) (coefficients : Option (Double × Double)) :
    Quiet (integerProduct t h d lhs rhs out coefficients) := by
  refine quiet_get_bind fun s₀ => ?_
  dsimp only
  split
  · exact quiet_pure _
  · refine (fixed_source t out lhs).quiet.bind fun l => (fixed_source t out rhs).quiet.bind fun r => ?_
    refine (quiet_buffer out).bind fun b => (fixed_elements t b).quiet.bind fun old => ?_
    refine (quiet_write out _).bind fun _ => ?_
    split
    · exact quiet_throw _
    · exact quiet_pure _

theorem quiet_multiply (d : ProductDims) (lhs rhs : BufferId × HostBuffer) (out : BufferId) (output : Shape)
    (hasBias : Bool) (alpha beta : Double) (t : ElementType) :
    Quiet (multiply d lhs rhs out output hasBias alpha beta t) := by
  have hdone : ∀ {x : HostM Stop Unit}, Quiet x → Quiet (do x; return out) := fun hx => hx.bind fun _ => quiet_pure _
  cases t with
  | float32 | float64 => exact hdone (quiet_floatProduct rfl d lhs rhs out _ _)
  | float16 | bfloat16 => exact hdone (quiet_halfProduct _ d lhs.2 rhs.2 out output hasBias _ _)
  | uint8 | uint32 | int32 | int64 => exact hdone (quiet_integerProduct rfl d lhs rhs out _)

end HostM

/-! ## Buffers that are taken -/

/-- What the account has to count for a new buffer: the buffer, unless the limit of memory is reached. -/
def HostState.granted (s : HostState) (shape : Shape) : List Shape :=
  if (s.host.account.allocate shape.footprint).isOk then [shape] else []

namespace HostM

open HostState

variable {ε α β : Type} {s s' : HostState} {shapes : List Shape} {output : Shape}

theorem account_newBuffer (s : HostState) (shape : Shape) :
    (exec (newBuffer shape) s).2.host.account =
      (s.host.account.allocate shape.footprint).toOption.getD s.host.account := by
  rw [newBuffer, exec_bind_ok (exec_get s)]
  cases s.host.account.allocate shape.footprint with
  | error e => rfl
  | ok account =>
    cases s.host.shelves.take? shape with
    | some taken =>
      simp only
      cases s.heap.get? taken.1 <;> rfl
    | none => cases Layout.make shape.dtype shape.size <;> rfl

theorem counts_newBuffer (hs : s.Sound) (shape : Shape) : Counts s (s.granted shape) (exec (newBuffer shape) s).2 where
  adds := by
    rw [account_newBuffer, granted]
    cases haccount : s.host.account.allocate shape.footprint with
    | error e => exact s.host.account.adds_nil
    | ok account => exact s.host.account.adds_nil.allocate haccount
  live id b hb := by
    have hran := ran_newBuffer hs shape
    rcases hexec : exec (newBuffer shape) s with ⟨r, s'⟩
    rw [hexec] at hran
    cases hran with
    | error e _ _ hframe => exact (hframe.live id b hb not_mem_nil).exists_flat
    | ok out _ flat hmade =>
      exact (hmade.frame.live id b hb fun h => hmade.fresh hb (mem_singleton.mp h)).exists_flat

theorem counts_clone (hs : s.Sound) {id : Nat} {b : HostBuffer} (hb : s.Live id b) :
    Counts s (s.granted b.shape) (exec (clone id) s).2 := by
  rw [clone, exec_bind_ok (exec_buffer hb.1)]
  exact counts_bind (counts_newBuffer hs b.shape) fun copy => (quiet_write copy b.flat).bind fun _ => quiet_pure _

theorem counts_tabulate (hs : s.Sound) (output : Shape) (value : (t : ElementType) → Nat → t.Elem) :
    Counts s (s.granted output) (exec (tabulate output value) s).2 := by
  refine counts_bind (counts_newBuffer hs output) fun out => (fixed_elementType output).quiet.bind fun t => ?_
  refine (quiet_buffer out).bind fun b => (fixed_elements t b).quiet.bind fun data => quiet_get_bind fun s₀ => ?_
  exact (quiet_write out _).bind fun _ => quiet_pure _

end HostM

/-- Whether the operation takes a new buffer and does not give it back if it fails then: it is no elementwise one, its
arguments pass the checks that come first, and it does not write into its bias. -/
def Operation.takesNew (op : Operation) (shapes : List Shape) (owned : List Bool) (output : Shape) : Bool :=
  match op, shapes with
  | .fill _, _ => true
  | .arange _ _, _ => true
  | .cast _, x :: _ => x.dims == output.dims
  | .transpose permutation, x :: _ =>
    permutation.length == x.rank && output.rank == x.rank && permutation.all fun axis => 0 ≤ axis && axis < x.rank
  | .matMul _ _ false, l :: r :: _ => (ProductDims.ofShapes l r).isOk
  | .matMul _ _ true, l :: r :: bias =>
    (ProductDims.ofShapes l r).isOk && bias.head? == some output && !owned.getD 2 false
  | _, _ => false

namespace HostM

open HostState

variable {ε α β : Type} {s s' : HostState} {shapes : List Shape} {output : Shape} {ids : List Nat} {values : List Value}
  {owned : List Bool} {e : Stop} {p : Program}

theorem counts_cast (hs : s.Sound) {id : Nat} {v : Value} (hv : s.Live id v.buffer) (output : Shape) :
    Counts s (if v.shape.dims == output.dims then s.granted output else []) (exec (cast id output) s).2 := by
  by_cases hdims : v.shape.dims = output.dims
  · rw [if_pos (beq_iff_eq.mpr hdims), cast, exec_bind_ok (exec_buffer hv.1)]
    have hsame : ¬ v.buffer.shape.dims ≠ output.dims := fun h => h hdims
    rw [if_neg hsame]
    by_cases hdtype : v.buffer.shape.dtype = output.dtype
    · have hshape : v.buffer.shape = output := by
        obtain ⟨⟨dtype, dims⟩, flat⟩ := v
        obtain rfl : dims = output.dims := hdims
        obtain rfl : dtype = output.dtype := hdtype
        rfl
      rw [if_pos hdtype, ← hshape]
      exact counts_clone hs hv
    · rw [if_neg hdtype]
      cases v.buffer.flat with
      | mk type data =>
        cases type with
        | element u => exact counts_tabulate hs output _
        | inert u =>
          -- there is no conversion, which is noticed after the buffer was made
          refine counts_bind (counts_newBuffer hs output) fun out => quiet_get_bind fun s₀ => ?_
          split
          · exact quiet_throw _
          · exact quiet_pure _
  · rw [if_neg (fun h => hdims (beq_iff_eq.mp h)), cast, exec_bind_ok (exec_buffer hv.1)]
    have hother : v.buffer.shape.dims ≠ output.dims := hdims
    rw [if_pos hother]
    exact Counts.refl s

theorem permutedStrides_isSome (permutation : List Int) (x : Shape) :
    (permutedStrides permutation x).isSome = permutation.all fun axis => 0 ≤ axis && axis < x.rank := by
  have hlength : x.strides.length = x.rank := Shape.length_stridesOf x.dims
  have haxis : ∀ axis : Int, (if axis < 0 then none else x.strides[axis.toNat]?) = none ↔
      ¬ (0 ≤ axis ∧ axis < x.rank) := by
    intro axis
    split
    · simp only [true_iff]
      omega
    · rw [List.getElem?_eq_none_iff]
      omega
  rw [Bool.eq_iff_iff, List.all_eq_true, ← not_iff_not, Bool.not_eq_true, isSome_eq_false_iff,
    isNone_iff_eq_none, permutedStrides, mapM_eq_none_iff]
  simp only [haxis, Bool.and_eq_true, decide_eq_true_eq, not_forall, exists_prop]

theorem counts_transpose (hs : s.Sound) {id : Nat} {v : Value} (hv : s.Live id v.buffer) (permutation : List Int)
    (output : Shape) :
    Counts s (if permutation.length == v.shape.rank && output.rank == v.shape.rank &&
        permutation.all fun axis => 0 ≤ axis && axis < v.shape.rank then s.granted output else [])
      (exec (transpose permutation id output) s).2 := by
  rw [transpose, exec_bind_ok (exec_buffer hv.1), ← permutedStrides_isSome, show v.buffer.shape = v.shape from rfl]
  dsimp only
  by_cases hrank : permutation.length ≠ v.shape.rank ∨ output.rank ≠ v.shape.rank
  · have hranks : (permutation.length == v.shape.rank && output.rank == v.shape.rank) = false := by
      rwa [Bool.and_eq_false_iff, beq_eq_false_iff_ne, beq_eq_false_iff_ne]
    rw [hranks, if_pos hrank]
    exact Counts.refl s
  · have hranks : (permutation.length == v.shape.rank && output.rank == v.shape.rank) = true := by
      rw [not_or, Decidable.not_not, Decidable.not_not] at hrank
      rw [beq_iff_eq.mpr hrank.1, beq_iff_eq.mpr hrank.2]
      rfl
    rw [hranks, if_neg hrank]
    cases permutedStrides permutation v.shape with
    | none => exact Counts.refl s
    | some strides =>
      -- all that can fail from here on leaves the new buffer behind
      refine counts_bind (counts_newBuffer hs output) fun out => quiet_get_bind fun s₀ => ?_
      split
      · exact quiet_pure _
      · refine (fixed_elementType output).quiet.bind fun t => (fixed_elements t _).quiet.bind fun src => ?_
        refine (quiet_buffer out).bind fun b => (fixed_elements t b).quiet.bind fun data => ?_
        refine (quiet_write out _).bind fun _ => ?_
        split
        · exact quiet_throw _
        · exact quiet_pure _

theorem quiet_multiply_bind (d : ProductDims) (lhs rhs : BufferId × HostBuffer) (output : Shape) (hasBias : Bool)
    (alpha beta : Double) (out : BufferId) :
    Quiet (elementType output >>= multiply d lhs rhs out output hasBias alpha beta) :=
  (fixed_elementType output).quiet.bind fun t => quiet_multiply d lhs rhs out output hasBias alpha beta t

theorem counts_matMul_bias {lhsId rhsId : Nat} {l r : Value} {d : ProductDims} (hs : s.Sound)
    (hl : s.Live lhsId l.buffer) (hr : s.Live rhsId r.buffer) (hd : ProductDims.ofShapes l.shape r.shape = .ok d)
    (hin : Holds s ids values) (alpha beta : Double) (owned : List Bool) (output : Shape) :
    Counts s (if (values.map (·.shape)).head? == some output && !owned.getD 2 false then s.granted output else [])
      (exec (matMul alpha beta true (lhsId :: rhsId :: ids) owned output) s).2 := by
  have hrest := quiet_multiply_bind d (lhsId, l.buffer) (rhsId, r.buffer) output true alpha beta
  cases hin with
  | nil =>
    rw [exec_matMul_noBias hl hr hd]
    exact Counts.refl s
  | @cons biasId ids b values hb hin =>
    rw [map_cons, head?_cons]
    by_cases hshape : b.shape = output
    · rw [exec_matMul_bias hl hr hb hd hshape, hshape, beq_self_eq_true]
      cases owned.getD 2 false with
      | true => exact hrest biasId s
      | false =>
        have hclone := counts_clone hs hb
        rw [show b.buffer.shape = output from hshape] at hclone
        exact counts_bind hclone hrest
    · rw [exec_matMul_biasShape hl hr hb hd hshape, beq_eq_false_iff_ne.mpr fun h => hshape (Option.some.inj h)]
      exact Counts.refl s

theorem counts_matMul (hs : s.Sound) (hin : Holds s ids values) (alpha beta : Double) (hasBias : Bool)
    (owned : List Bool) (output : Shape) :
    Counts s (if Operation.takesNew (.matMul alpha beta hasBias) (values.map (·.shape)) owned output
      then s.granted output else []) (exec (matMul alpha beta hasBias ids owned output) s).2 := by
  cases hin with
  | nil => cases hasBias <;> exact Counts.refl s
  | @cons lhsId ids l values hl hin =>
    cases hin with
    | nil => cases hasBias <;> exact Counts.refl s
    | @cons rhsId ids r values hr hin =>
      rw [map_cons, map_cons]
      cases hd : ProductDims.ofShapes l.shape r.shape with
      | error e =>
        rw [exec_matMul_error hl hr hd]
        cases hasBias <;> simp only [Operation.takesNew, hd] <;> exact Counts.refl s
      | ok d =>
        have hrest := quiet_multiply_bind d (lhsId, l.buffer) (rhsId, r.buffer) output
        cases hasBias with
        | false =>
          rw [exec_matMul hl hr hd]
          simp only [Operation.takesNew, hd]
          exact counts_bind (counts_newBuffer hs output) (hrest false .zero (.ofInt 1))
        | true =>
          simp only [Operation.takesNew, hd]
          exact counts_matMul_bias hs hl hr hd hin alpha beta owned output

theorem quiet_runInto_some (kernel : Program) (inputs : List (BufferId × HostBuffer)) (id : BufferId) (output : Shape)
    (out : BufferId) : Quiet (runInto kernel inputs (some id) output out) := by
  refine (fixed_elementType output).quiet.bind fun t => (fixed_mapM (fixed_source t out)).quiet.bind fun sources => ?_
  refine quiet_get_bind fun s₀ => (quiet_buffer out).bind fun b => (fixed_elements t b).quiet.bind fun old => ?_
  refine (quiet_write out _).bind fun _ => ?_
  split
  · exact quiet_pure _
  · exact quiet_throw _

theorem counts_runInto_none {out : Nat} {flat : Flat} (hs : s.Sound) (hin : Holds s ids values)
    (hshape : ∀ v ∈ values, v.shape = output) (ht : output.dtype.element? = some t)
    (hmade : Made s [] output out s' flat) {s'' : HostState}
    (h : exec (runInto p (ids.zip (values.map (·.buffer))) none output out) s' = (.error e, s'')) :
    Counts s [] s'' := by
  obtain ⟨data, hdata, -, -⟩ := exists_data ht hshape (hin.sound hs)
  obtain ⟨old, rfl, hold, -⟩ := hmade.elements ht
  have hown : ∀ b, s.Live out b → b.flat = .ofElements t old := fun b hb => absurd rfl (hmade.fresh hb)
  obtain ⟨sources, hsources, -⟩ := exec_sources hin hdata hown s'
  have hsize := Kernel.size_inPlace_runProgram p sources.toArray (covers_ranges s'.host hold)
  rcases hrun : Kernel.inPlace (s'.host.ranges output.size) (Kernel.runProgram t p sources.toArray) old
    with ⟨result, fault⟩
  rw [hrun] at hsize
  have hput := hmade.put ht result (by rwa [hsize])
  rw [runInto, exec_bind_ok (exec_elementType ht s'), exec_bind_ok hsources, exec_bind_ok (exec_get s'),
    exec_bind_ok (exec_buffer hmade.live.1), exec_bind_ok (exec_elements t rfl s'), hrun] at h
  rw [exec_bind_ok (exec_write hmade.live.1 _)] at h
  cases fault with
  | none => cases h
  | some fault =>
    -- the buffer is new, so it is recycled before the error is raised
    cases hput.place with
    | given hmem _ _ => cases hmem
    | new hfresh hcounted =>
      obtain ⟨s₁, hrecycle, -, hframe, hsame⟩ := recycle_made hput hfresh hcounted
      dsimp only at h
      rw [if_pos isNone_none, exec_bind_ok hrecycle] at h
      cases h
      exact (Kept.of_frame hframe hsame).counts

/-- A new buffer for an output that has a layout: it fails at the limit of memory only, or else the program is run and the
buffer is given back after a fault. -/
theorem counts_newBuffer_runInto (hs : s.Sound) (hin : Holds s ids values) (hshape : ∀ v ∈ values, v.shape = output)
    {l : Layout} (hlayout : Layout.make output.dtype output.size = .ok l) (ht : output.dtype.element? = some t)
    (h : exec (newBuffer output >>= runInto p (ids.zip (values.map (·.buffer))) none output) s = (.error e, s')) :
    Counts s [] s' := by
  rcases exec_newBuffer hs hlayout with ⟨cause, -, hexec⟩ | ⟨out, s₁, flat, hexec, hmade⟩
  · rw [exec_bind_error hexec] at h
    cases h
    exact Counts.refl s
  · rw [exec_bind_ok hexec] at h
    exact counts_runInto_none hs hin hshape ht hmade h

theorem counts_withKernels (s : HostState) (kernels : KernelCache Program) : Counts s [] (s.withKernels kernels) :=
  ⟨s.host.account.adds_nil, fun _ _ hb => hb.exists_flat⟩

theorem counts_fused (hs : s.Sound) (hin : Holds s ids values) (p : Option Program) (owned : List Bool) (output : Shape)
    (h : exec (fused p ids owned output) s = (.error e, s')) : Counts s [] s' := by
  rw [← dividedBy_partition s] at h
  cases fused_cases hs hin p owned output with
  | rejected e' kernels _ _ hexec =>
    rw [hexec] at h
    cases h
    exact counts_withKernels s kernels
  | runs p t kernels hkernels _ _ ht hlayout _ hshape hexec =>
    refine (counts_withKernels s kernels).trans ?_
    have hrun : exec (runKernel p (ids.zip (values.map (·.buffer))) owned output) (s.withKernels kernels) = (.error e, s') :=
      (hexec s.partition).symm.trans h
    rw [runKernel] at hrun
    cases hreused : reusable? (ids.zip (values.map (·.buffer))) owned output with
    | some id =>
      rw [hreused] at hrun
      -- the result goes into an input, so no buffer was made
      have hquiet := quiet_runInto_some p (ids.zip (values.map (·.buffer))) id output id (s.withKernels kernels)
      simp only [hrun] at hquiet
      exact hquiet
    | none =>
      rw [hreused] at hrun
      obtain ⟨l, hlayout⟩ := hlayout
      exact counts_newBuffer_runInto (hs.withKernels hkernels) (hin.frame (frame_withKernels s kernels)
        fun _ _ => not_mem_nil) hshape hlayout ht hrun

/-! ## Executions -/

/-- An operation that fails leaves the buffer behind that it has made for its output, if it makes one. -/
theorem counts_runOperation (hs : s.Sound) (hin : Holds s ids values) (op : Operation) (owned : List Bool)
    (output : Shape) (h : exec (runOperation op ids owned output) s = (.error e, s')) :
    Counts s (if op.takesNew (values.map (·.shape)) owned output then s.granted output else []) s' := by
  have hstate : s' = (exec (runOperation op ids owned output) s).2 := by rw [h]
  cases op with
  | fill value | arange start step =>
    rw [hstate]
    exact counts_tabulate hs output _
  | fused program => exact counts_fused hs hin program owned output h
  | elementwise code => exact counts_fused hs hin (some (Program.single (.elementwise code) output.dtype)) owned output h
  | matMul alpha beta hasBias =>
    rw [hstate]
    exact counts_matMul hs hin alpha beta hasBias owned output
  | transpose permutation =>
    rw [hstate]
    cases hin with
    | nil => exact Counts.refl s
    | cons hv hin => exact counts_transpose hs hv permutation output
  | cast dtype =>
    rw [hstate]
    cases hin with
    | nil => exact Counts.refl s
    | cons hv hin => exact counts_cast hs hv output
  | other kind =>
    rw [hstate]
    exact Counts.refl s

end HostM

namespace HostState

open HostM

variable {s s' : HostState} {shapes : List Shape} {output : Shape}

/-- Whether the execution of an operation on live buffers of these shapes takes a new buffer that stays counted if the
execution fails: the operation is supported, it takes a buffer that it does not give back, and the limit of memory
leaves room for it. -/
def leaks (s : HostState) (op : Operation) (shapes : List Shape) (owned : List Bool) (output : Shape) : Bool :=
  !s.host.finalized && (Capabilities.host.checkOperation Host.name op output.dtype).isOk &&
    op.takesNew shapes (if owned.length = shapes.length then owned else shapes.map fun _ => false) output &&
    (s.host.account.allocate output.footprint).isOk

theorem counts_execute (hs : s.Sound) {inputs : List BufferRef} (hin : s.LiveOf inputs shapes) (op : Operation)
    (owned : List Bool) {e : HostError} (h : exec (execute op inputs owned output) s = (.error e, s')) :
    Counts s (if s.leaks op shapes owned output then [output] else []) s' := by
  rw [leaks]
  cases hfinalized : s.host.finalized with
  | true =>
    rw [exec_execute_finalized hfinalized] at h
    cases h
    exact Counts.refl s
  | false =>
    cases hcheck : Capabilities.host.checkOperation Host.name op output.dtype with
    | error cause =>
      rw [exec_execute_unsupported hfinalized hcheck] at h
      cases h
      exact Counts.refl s
    | ok _ =>
      obtain ⟨ids, values, rfl, hholds, rfl⟩ := hin.exists_holds
      rw [exec_execute hfinalized hholds hcheck] at h
      rcases hrun : exec (runOperation op ids (if owned.length = ids.length then owned else ids.map fun _ => false)
        output) s with ⟨r, s₁⟩
      rw [hrun] at h
      obtain ⟨hr, rfl⟩ := Prod.mk.inj h
      cases r with
      | ok out => cases hr
      | error stop =>
        have hcounts := counts_runOperation hs hholds op _ output hrun
        -- owners of another number than the inputs count as no owners
        have hnone : ids.map (fun _ => false) = (values.map (·.shape)).map fun _ => false := by
          simp only [map_const', length_map, hholds.length_eq]
        have hlength : ids.length = (values.map (·.shape)).length := by rw [length_map, hholds.length_eq]
        rw [hnone, hlength] at hcounts
        cases htakes : op.takesNew (values.map (·.shape)) (if owned.length = (values.map (·.shape)).length then owned
          else (values.map (·.shape)).map fun _ => false) output with
        | true | false =>
          rwa [htakes] at hcounts

/-- No execution that fails finalizes a buffer, and the buffers and the bytes that are counted are the same as before
unless the operation had taken a new buffer that it does not give back. -/
theorem execute_error_counts (configuration : String) (host : Host) (hhost : Host.ofConfiguration configuration = .ok host)
    (calls : List HostCall) (op : Operation) (inputs : List BufferRef) (shapes : List Shape)
    (hin : (run ⟨host, {}⟩ calls).LiveOf inputs shapes) (owned : List Bool) (output : Shape) (e : HostError)
    (s' : HostState) (h : exec (execute op inputs owned output) (run ⟨host, {}⟩ calls) = (.error e, s')) :
    let s := run ⟨host, {}⟩ calls
    (∀ id b, s.Live id b → ∃ flat, s'.Live id ⟨b.shape, flat, false⟩) ∧
    (s.host.account.SameUse s'.host.account ↔ s.leaks op shapes owned output = false) ∧
    (s.leaks op shapes owned output = true → s'.host.account.buffers = s.host.account.buffers + 1 ∧
      s'.host.account.live = s.host.account.live + output.footprint) := by
  intro s
  have hintact : Intact host.account.limit s := intact_run calls ⟨sound_configured hhost, rfl⟩
  have hcounts := counts_execute hintact.sound hin op owned h
  refine ⟨hcounts.live, ?_⟩
  cases hleaks : s.leaks op shapes owned output with
  | false =>
    have hadds := hcounts.adds
    rw [hleaks] at hadds
    exact ⟨⟨fun _ => rfl, fun _ => hadds.sameUse⟩, fun htrue => absurd htrue Bool.false_ne_true⟩
  | true =>
    have hadds := hcounts.adds
    rw [hleaks] at hadds
    have hbuffers : s'.host.account.buffers = s.host.account.buffers + 1 := hadds.buffers_eq
    have hlive : s'.host.account.live = s.host.account.live + output.footprint := by
      have hsum := hadds.live_eq
      simpa using hsum
    refine ⟨⟨fun hsame => ?_, fun hfalse => absurd hfalse.symm Bool.false_ne_true⟩, fun _ => ⟨hbuffers, hlive⟩⟩
    -- one buffer more is counted
    have hequal := hsame.buffers_eq
    omega

/-- A matrix that is divided by zeros: the kernel fails, and the new buffer is given back. -/
theorem execute_error_counts_divided :
    let x : Shape := ⟨.int32, [2, 3]⟩
    let op : Operation := .elementwise (.binary .div)
    let calls : List HostCall := [.execute (.arange (.ofInt 1) (.ofInt 1)) [] [] x, .execute (.fill (.ofInt 0)) [] [] x]
    ∃ host, Host.ofConfiguration "" = .ok host ∧
      let s := run ⟨host, {}⟩ calls
      let r := exec (execute op [.host 0, .host 1] [false, true] x) s
      s.LiveOf [.host 0, .host 1] [x, x] ∧ r.1.isOk = false ∧ s.host.account.SameUse r.2.host.account := by
  intro x op calls
  let host := Host.plain
  have hhost := Host.ofConfiguration_empty
  have hin : (run ⟨host, {}⟩ calls).LiveOf [.host 0, .host 1] [x, x] := by decide +kernel
  have hleaks : (run ⟨host, {}⟩ calls).leaks op [x, x] [false, true] x = false := by decide +kernel
  have hfails : (exec (execute op [.host 0, .host 1] [false, true] x) (run ⟨host, {}⟩ calls)).1.isOk = false := by
    decide +kernel
  refine ⟨host, hhost, hin, hfails, ?_⟩
  rcases hexec : exec (execute op [.host 0, .host 1] [false, true] x) (run ⟨host, {}⟩ calls) with ⟨e | out, s'⟩
  · exact (execute_error_counts "" host hhost calls op _ _ hin _ x e s' hexec).2.1.mpr hleaks
  · rw [hexec] at hfails
    cases hfails

/-- A matrix that is transposed into a shape with more elements: the read beyond its end fails after the new buffer was
taken, and the buffer stays counted. -/
theorem transpose_leaks :
    let x : Shape := ⟨.int32, [2, 3]⟩
    let calls : List HostCall := [.execute (.arange (.ofInt 1) (.ofInt 1)) [] [] x]
    ∃ host, Host.ofConfiguration "" = .ok host ∧
      let s := run ⟨host, {}⟩ calls
      let r := exec (execute (.transpose [1, 0]) [.host 0] [false] ⟨.int32, [3, 3]⟩) s
      s.LiveOf [.host 0] [x] ∧ s.host.account.buffers = 1 ∧ s.host.account.live = 24 ∧
        r.1.isOk = false ∧ r.2.host.account.buffers = 2 ∧ r.2.host.account.live = 60 := by
  intro x calls
  let host := Host.plain
  have hhost := Host.ofConfiguration_empty
  exact ⟨host, hhost, by decide +kernel⟩

end HostState

end LazyTensor
