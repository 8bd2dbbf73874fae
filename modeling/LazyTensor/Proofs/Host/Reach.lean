import LazyTensor.Proofs.Host.Execute

/-!
# Every call keeps the memory of the host sound

A caller of the host may pass any operation, buffers and shapes. Whatever fails on the way, each write leaves a
buffer with as many elements of the type of its shape, so the memory of the host is sound in every state that calls
lead to.
-/

namespace LazyTensor

namespace HostM

open HostState Kernel

variable {ε α β : Type} {limit : UInt64} {P P' : HostState → Prop} {Q Q' : α → HostState → Prop}
  {R : β → HostState → Prop} {x : HostM ε α}

/-! ## Steps that keep the memory -/

/-- The memory is sound, and the limit is the given one. -/
structure Intact (limit : UInt64) (s : HostState) : Prop where
  sound : s.Sound
  limit_eq : s.host.account.limit = limit

theorem Intact.withKernels {limit : UInt64} {s : HostState} (hs : Intact limit s) {kernels : KernelCache Program}
    (hkernels : kernels.Sound) : Intact limit (s.withKernels kernels) :=
  ⟨hs.sound.withKernels hkernels, hs.limit_eq⟩

/-- There is a result that `Q` allows, or a failure has left the memory intact. -/
def Leaves (limit : UInt64) (Q : α → HostState → Prop) : Except ε α × HostState → Prop
  | (.ok a, s) => Q a s
  | (.error _, s) => Intact limit s

/-- From states that `P` allows, steps lead to a result that `Q` allows, or fail and leave the memory intact. -/
def Keeps (limit : UInt64) (P : HostState → Prop) (x : HostM ε α) (Q : α → HostState → Prop) : Prop :=
  ∀ s, P s → Leaves limit Q (exec x s)

theorem Keeps.bind {f : α → HostM ε β} (hx : Keeps limit P x Q) (hf : ∀ a, Keeps limit (Q a) (f a) R) :
    Keeps limit P (x >>= f) R := by
  intro s hs
  have h := hx s hs
  rcases hexec : exec x s with ⟨_ | a, s'⟩
  · rw [hexec] at h
    rw [exec_bind_error hexec]
    exact h
  · rw [hexec] at h
    rw [exec_bind_ok hexec]
    exact hf a s' h

theorem Leaves.imp {r : Except ε α × HostState} (h : Leaves limit Q r) (hQ : ∀ a s, Q a s → Q' a s) :
    Leaves limit Q' r := by
  rcases r with ⟨_ | a, s⟩
  · exact h
  · exact hQ a s h

theorem Keeps.imp (h : Keeps limit P x Q) (hP : ∀ s, P' s → P s) (hQ : ∀ a s, Q a s → Q' a s) : Keeps limit P' x Q' :=
  fun s hs => (h s (hP s hs)).imp hQ

theorem keeps_pure {a : α} (h : ∀ s, P s → Q a s) : Keeps limit P (pure a : HostM ε α) Q := h

theorem keeps_throw {e : ε} (h : ∀ s, P s → Intact limit s) : Keeps limit P (throw e : HostM ε α) Q := h

theorem keeps_get_bind {f : HostState → HostM ε β} (hf : ∀ s, Keeps limit P (f s) R) : Keeps limit P (get >>= f) R :=
  fun s hs => hf s s hs

theorem keeps_and {φ : Prop} (h : φ → Keeps limit P x Q) : Keeps limit (fun s => P s ∧ φ) x Q :=
  fun s hs => h hs.2 s hs.1

theorem keeps_adapt {ε' : Type} {f : ε → ε'} (h : Keeps limit P x Q) : Keeps limit P (ExceptT.adapt f x) Q := by
  intro s hs
  have hx := h s hs
  rw [exec_adapt]
  rcases hexec : exec x s with ⟨_ | a, s'⟩ <;> rw [hexec] at hx <;> exact hx

/-! ## Small steps -/

section Small

variable (hP : ∀ s, P s → Intact limit s)

include hP

theorem Fixed.keeps (hx : Fixed x) : Keeps limit P x fun _ => P := by
  obtain ⟨e | a, hx⟩ := hx
  · exact fun s hs => by rw [hx]; exact hP s hs
  · exact fun s hs => by rw [hx]; exact hs

theorem keeps_input (inputs : List BufferId) (i : Nat) :
    Keeps limit P (input inputs i) fun id s => P s ∧ inputs[i]? = some id := by
  unfold input
  split
  · rename_i id hid
    exact keeps_pure fun _ hs => ⟨hs, hid⟩
  · exact keeps_throw hP

theorem keeps_elementType (output : Shape) :
    Keeps limit P (elementType output) fun t s => P s ∧ output.dtype.element? = some t := by
  unfold elementType
  split
  · rename_i t ht
    exact keeps_pure fun _ hs => ⟨hs, ht⟩
  · exact keeps_throw hP

theorem keeps_elements (t : ElementType) (b : HostBuffer) :
    Keeps limit P (elements t b) fun data s => P s ∧ b.flat.as? t = some data := by
  unfold elements
  split
  · rename_i data hdata
    exact keeps_pure fun _ hs => ⟨hs, hdata⟩
  · exact keeps_throw hP

theorem keeps_buffer (id : BufferId) : Keeps limit P (buffer id) fun b s => P s ∧ s.heap.get? id = some b := by
  intro s hs
  cases hb : s.heap.get? id with
  | some b =>
    rw [exec_buffer hb]
    exact ⟨hs, hb⟩
  | none =>
    have hexec : exec (buffer id) s = (.error (.rejected .outOfBounds), s) := by
      rw [buffer, exec_bind_ok (exec_get s), hb]
      rfl
    rw [hexec]
    exact hP s hs

theorem keeps_widened (b : HostBuffer) :
    Keeps limit P (widened b) fun data s => P s ∧ data.size = b.flat.size := by
  obtain ⟨shape, ⟨type, data⟩, finalized⟩ := b
  cases type with
  | inert u => exact keeps_throw hP
  | element u =>
    cases u with
    | float16 | bfloat16 => exact keeps_pure fun _ hs => ⟨hs, Array.size_map⟩
    | float32 => exact keeps_pure fun _ hs => ⟨hs, rfl⟩
    | _ => exact keeps_throw hP

end Small

/-! ## Buffers that are written -/

/-- The memory is intact, and a live buffer has the shape of the output. -/
structure Ready (limit : UInt64) (output : Shape) (out : Nat) (s : HostState) : Prop where
  intact : Intact limit s
  live : ∃ flat, s.Live out ⟨output, flat, false⟩

variable {output : Shape} {out : Nat} {t : ElementType} {s : HostState}

theorem ready_of_ran {given : List Nat} {causes : Stop → Prop} {right : Flat → Prop}
    {r : Except Stop BufferId × HostState} (h : Ran s given output causes right r) (hs : Intact limit s) :
    Leaves limit (fun out => Ready limit output out) r := by
  cases h with
  | error e _ hsound hframe _ _ => exact ⟨hsound, hframe.limit_eq.trans hs.limit_eq⟩
  | ok out _ flat hmade _ => exact ⟨⟨hmade.sound, hmade.frame.limit_eq.trans hs.limit_eq⟩, flat, hmade.live⟩

theorem keeps_newBuffer (output : Shape) :
    Keeps limit (Intact limit) (newBuffer output) fun out => Ready limit output out :=
  fun _ hs => ready_of_ran (ran_newBuffer hs.sound output) hs

theorem keeps_clone {id : Nat} {b : HostBuffer} :
    Keeps limit (fun s => Intact limit s ∧ s.Live id b) (clone id) fun out => Ready limit b.shape out :=
  fun _ hs => ready_of_ran (ran_clone hs.1.sound hs.2) hs.1

theorem keeps_output_bind (ht : output.dtype.element? = some t) {f : Array t.Elem → HostM Stop β}
    (hf : ∀ data : Array t.Elem, (data.size : Int) = output.size → Keeps limit (Ready limit output out) (f data) R) :
    Keeps limit (Ready limit output out) (do f (← elements t (← buffer out))) R := by
  rintro s ⟨hintact, flat, hlive⟩
  obtain ⟨data, hdata, hsize, -⟩ := (hintact.sound.buffers out _ hlive.1).exists_elements ht
  rw [exec_bind_ok (exec_buffer hlive.1), exec_bind_ok (exec_elements t hdata s)]
  exact hf data hsize s ⟨hintact, flat, hlive⟩

theorem keeps_write_flat {flat : Flat} (hflat : ∀ l, Layout.make output.dtype output.size = .ok l → flat.Has l) :
    Keeps limit (Ready limit output out) (write out flat : HostM ε Unit) fun _ => Ready limit output out := by
  rintro s ⟨hintact, old, hlive⟩
  obtain ⟨l, hl, -⟩ := hintact.sound.buffers out _ hlive.1
  rw [exec_write hlive.1]
  exact ⟨⟨hintact.sound.put hlive ⟨l, hl, hflat l hl⟩, hintact.limit_eq⟩, _, hlive.put rfl⟩

theorem keeps_write (ht : output.dtype.element? = some t) {data : Array t.Elem}
    (hsize : (data.size : Int) = output.size) :
    Keeps limit (Ready limit output out) (write out (.ofElements t data) : HostM ε Unit)
      fun _ => Ready limit output out := by
  apply keeps_write_flat
  intro l hl
  obtain ⟨hstorage, hl⟩ := Layout.make_eq_ok hl
  rw [DType.storage?, ht] at hstorage
  exact Flat.has_ofElements (Option.some.inj hstorage).symm (by omega)

theorem keeps_recycle :
    Keeps limit (Ready limit output out) (recycle out : HostM ε Unit) fun _ => Intact limit := by
  rintro s ⟨hintact, flat, hlive⟩
  obtain ⟨s', hexec, hsound, hframe, -⟩ := recycle_live (ε := ε) hintact.sound hlive
  rw [hexec]
  exact ⟨hsound, hframe.limit_eq.trans hintact.limit_eq⟩

/-! ## Operations -/

theorem keeps_tabulate (output : Shape) (value : (t : ElementType) → Nat → t.Elem) :
    Keeps limit (Intact limit) (tabulate output value) fun _ => Intact limit := by
  refine (keeps_newBuffer output).bind fun out => ?_
  refine (keeps_elementType (fun _ hs => hs.intact) output).bind fun t => keeps_and fun ht => ?_
  refine keeps_output_bind ht fun data hsize => keeps_get_bind fun s₀ => ?_
  have hresult : (Kernel.tabulate (s₀.host.ranges output.size) (value t) data).size = data.size := by
    rw [Kernel.tabulate_eq_ofFn (value t) (covers_ranges s₀.host hsize), Array.size_ofFn]
  refine (keeps_write ht (by rw [hresult, hsize])).bind fun _ => ?_
  exact keeps_pure fun _ hs => hs.intact

/-- The inputs of an operation are live. -/
def Inputs (limit : UInt64) (ids : List Nat) (s : HostState) : Prop :=
  Intact limit s ∧ ∀ id ∈ ids, ∃ b, s.Live id b

variable {ids : List Nat}

theorem keeps_cast (id : Nat) (output : Shape) :
    Keeps limit (fun s => Intact limit s ∧ ∃ b, s.Live id b) (cast id output) fun _ => Intact limit := by
  rintro s ⟨hintact, b, hb⟩
  rw [cast, exec_bind_ok (exec_buffer hb.1)]
  by_cases hdims : b.shape.dims ≠ output.dims
  · rw [if_pos hdims]
    exact hintact
  · rw [if_neg hdims]
    by_cases hdtype : b.shape.dtype = output.dtype
    · rw [if_pos hdtype]
      exact Leaves.imp (keeps_clone s ⟨hintact, hb⟩) fun _ _ hready => hready.intact
    · rw [if_neg hdtype]
      obtain ⟨shape, ⟨type, data⟩, finalized⟩ := b
      cases type with
      | element u => exact keeps_tabulate output _ s hintact
      | inert u =>
        -- there are no elements to convert, so the new buffer stays as it is
        refine (keeps_newBuffer output).bind (fun out => keeps_get_bind fun s₀ => ?_) s hintact
        split
        · exact keeps_throw fun _ hs => hs.intact
        · exact keeps_pure fun _ hs => hs.intact

theorem keeps_transpose (permutation : List Int) (id : Nat) (output : Shape) :
    Keeps limit (Intact limit) (transpose permutation id output) fun _ => Intact limit := by
  refine (keeps_buffer (fun _ hs => hs) id).bind fun b => ?_
  dsimp only
  split
  · exact keeps_throw fun _ hs => hs.1
  · split
    · rename_i strides _
      refine Keeps.imp ?_ (fun s hs => hs.1) fun _ _ h => h
      refine (keeps_newBuffer output).bind fun out => keeps_get_bind fun s₀ => ?_
      split
      · exact keeps_pure fun _ hs => hs.intact
      · refine (keeps_elementType (fun _ hs => hs.intact) output).bind fun t => keeps_and fun ht => ?_
        refine (keeps_elements (fun _ hs => hs.intact) t b).bind fun src => keeps_and fun _ => ?_
        refine keeps_output_bind ht fun data hsize => ?_
        -- a fault stops a range early, but the output keeps its length
        have hresult := size_overRanges (covers_ranges s₀.host hsize).toApart (Nat.le_refl _)
          fun r _ => size_transpose_le src output.dims strides r
        rcases hrun : overRanges (s₀.host.ranges output.size) (Kernel.transpose src output.dims strides) data
          with ⟨result, fault⟩
        rw [hrun] at hresult
        refine (keeps_write ht (by rw [hresult, hsize])).bind fun _ => ?_
        cases fault with
        | none => exact keeps_pure fun _ hs => hs.intact
        | some fault => exact keeps_throw fun _ hs => hs.intact
    · exact keeps_throw fun _ hs => hs.1

theorem exists_holds (h : ∀ id ∈ ids, ∃ b, s.Live id b) : ∃ values, Holds s ids values := by
  induction ids with
  | nil => exact ⟨[], .nil⟩
  | cons id ids ih =>
    obtain ⟨values, hvalues⟩ := ih fun id' hid => h id' (.tail _ hid)
    obtain ⟨⟨shape, flat, finalized⟩, hb⟩ := h id (.head _)
    obtain rfl : finalized = false := hb.2
    exact ⟨⟨shape, flat⟩ :: values, .cons hb hvalues⟩

theorem keeps_runInto (kernel : Program) (inputs : List (BufferId × HostBuffer)) (reused : Option BufferId) :
    Keeps limit (Ready limit output out) (runInto kernel inputs reused output out) fun _ => Intact limit := by
  refine (keeps_elementType (fun _ hs => hs.intact) output).bind fun t => keeps_and fun ht => ?_
  refine ((fixed_mapM (fixed_source t out)).keeps fun _ hs => hs.intact).bind fun sources => keeps_get_bind fun s₀ =>
    keeps_output_bind ht fun old hsize => ?_
  -- whatever the program computes, the output keeps its length
  have hresult := size_inPlace_runProgram kernel sources.toArray (covers_ranges s₀.host hsize)
  rcases hrun : inPlace (s₀.host.ranges output.size) (runProgram t kernel sources.toArray) old with ⟨result, fault⟩
  rw [hrun] at hresult
  refine (keeps_write ht (by rw [hresult, hsize])).bind fun _ => ?_
  cases fault with
  | none => exact keeps_pure fun _ hs => hs.intact
  | some fault =>
    -- a new buffer is given back, one that was reused stays
    dsimp only
    split
    · exact keeps_recycle.bind fun _ => keeps_throw fun _ hs => hs
    · exact keeps_throw fun _ hs => hs.intact

theorem keeps_fused (program : Option Program) (owned : List Bool) (output : Shape) :
    Keeps limit (Inputs limit ids) (fused program ids owned output) fun _ => Intact limit := by
  rintro s ⟨hintact, hlive⟩
  obtain ⟨values, hin⟩ := exists_holds hlive
  rw [← dividedBy_partition s]
  cases fused_cases hintact.sound hin program owned output with
  | rejected e kernels hkernels _ hexec =>
    rw [hexec]
    exact hintact.withKernels hkernels
  | runs p t kernels hkernels _ _ _ _ _ _ hexec =>
    rw [hexec, runKernel]
    cases hreused : reusable? (ids.zip (values.map (·.buffer))) owned output with
    | some id =>
      -- compilation touches no buffer, so an input that is given away is still live
      obtain ⟨-, flat, hid⟩ := reusable?_eq_some hin hreused
      exact keeps_runInto p _ (some id) _ ⟨hintact.withKernels hkernels, flat, hid⟩
    | none =>
      exact (keeps_newBuffer output).bind (fun out => keeps_runInto p _ none) _ (hintact.withKernels hkernels)

/-! ## Products -/

section Products

variable {d : ProductDims} {lhs rhs : BufferId × HostBuffer}

theorem keeps_floatProduct {f : FloatFormat} (h : t.Elem = FloatWord f) (ht : output.dtype.element? = some t)
    (alpha beta : FloatWord f) :
    Keeps limit (Ready limit output out) (floatProduct t h d lhs rhs out alpha beta)
      fun _ => Ready limit output out := by
  refine ((fixed_source t out lhs).keeps fun _ hs => hs.intact).bind fun l => ?_
  refine ((fixed_source t out rhs).keeps fun _ hs => hs.intact).bind fun r => ?_
  refine keeps_output_bind ht fun old hsize => keeps_get_bind fun s₀ => ?_
  have hresult := size_floatProduct (s₀.host.workers.ranges d.batch 1) d (h ▸ l) (h ▸ r) alpha beta (h ▸ old)
  dsimp only
  rcases hrun : Kernel.floatProduct (s₀.host.workers.ranges d.batch 1) d (h ▸ l) (h ▸ r) alpha beta (h ▸ old)
    with ⟨data, fault⟩
  rw [hrun] at hresult
  refine (keeps_write ht ?_).bind fun _ => (fixed_checkFloatFault fault).keeps fun _ hs => hs.intact
  rw [size_cast, hresult, size_cast, hsize]

theorem keeps_integerProduct {f : IntFormat} (h : t.Elem = IntWord f) (ht : output.dtype.element? = some t)
    (coefficients : Option (Double × Double)) :
    Keeps limit (Ready limit output out) (integerProduct t h d lhs rhs out coefficients)
      fun _ => Ready limit output out := by
  refine keeps_get_bind fun s₀ => ?_
  dsimp only
  split
  · -- without rows the output stays as it is
    exact keeps_pure fun _ hs => hs
  · refine ((fixed_source t out lhs).keeps fun _ hs => hs.intact).bind fun l => ?_
    refine ((fixed_source t out rhs).keeps fun _ hs => hs.intact).bind fun r => ?_
    refine keeps_output_bind ht fun old hsize => ?_
    generalize coefficients.map _ = words
    have hresult := size_integerProduct (s₀.host.ranges (wrap64 (d.batch * d.m))) d (h ▸ l) (h ▸ r) words (h ▸ old)
    rcases hrun : Kernel.integerProduct (s₀.host.ranges (wrap64 (d.batch * d.m))) d (h ▸ l) (h ▸ r) words (h ▸ old)
      with ⟨data, fault⟩
    rw [hrun] at hresult
    refine (keeps_write ht ?_).bind fun _ => ?_
    · rw [size_cast, hresult, size_cast, hsize]
    · cases fault with
      | none => exact keeps_pure fun _ hs => hs
      | some fault => exact keeps_throw fun _ hs => hs.intact

/-- A half product is added to as many elements as the output has, whether they are those of the output or zeros. -/
theorem keeps_bias_bind (ht : output.dtype.element? = some t) {hasBias : Bool} {f : Array Single → HostM Stop β}
    (hf : ∀ old : Array Single, (old.size : Int) = output.size → Keeps limit (Ready limit output out) (f old) R) :
    Keeps limit (Ready limit output out)
      (if hasBias = true then buffer out >>= fun b => widened b >>= f
        else pure (Array.replicate output.size.toNat FloatWord.zero) >>= f) R := by
  rintro s ⟨hintact, flat, hlive⟩
  obtain ⟨data, rfl, hsize, -⟩ : ∃ data : Array t.Elem, flat = .ofElements t data ∧ (data.size : Int) = output.size ∧ _ :=
    (hintact.sound.buffers out _ hlive.1).exists_elements ht
  have hready : Ready limit output out s := ⟨hintact, _, hlive⟩
  cases hasBias with
  | true =>
    rw [if_pos rfl, exec_bind_ok (exec_buffer hlive.1)]
    refine ((keeps_widened (fun _ hs => hs.intact) _).bind fun old => keeps_and fun hold => hf old ?_) s hready
    rw [hold]
    exact hsize
  | false =>
    refine hf _ ?_ s hready
    rw [Array.size_replicate]
    omega

theorem keeps_halfProduct {narrow : Single → t.Elem} {lhs rhs : HostBuffer} (ht : output.dtype.element? = some t)
    (hasBias : Bool) (alpha beta : Single) :
    Keeps limit (Ready limit output out) (halfProduct t narrow d lhs rhs out output hasBias alpha beta)
      fun _ => Ready limit output out := by
  refine keeps_bias_bind ht fun old hold => ?_
  refine (keeps_widened (fun _ hs => hs.intact) lhs).bind fun l => keeps_and fun _ => ?_
  refine (keeps_widened (fun _ hs => hs.intact) rhs).bind fun r => keeps_and fun _ => keeps_get_bind fun s₀ => ?_
  have hresult := size_floatProduct (s₀.host.workers.ranges d.batch 1) d (.apart l) (.apart r) alpha beta old
  dsimp only
  rcases hrun : Kernel.floatProduct (s₀.host.workers.ranges d.batch 1) d (.apart l) (.apart r) alpha beta old
    with ⟨data, fault⟩
  rw [hrun] at hresult
  refine ((fixed_checkFloatFault fault).keeps fun _ hs => hs.intact).bind fun _ => keeps_write ht ?_
  rw [Array.size_map, hresult, hold]

theorem keeps_multiply (ht : output.dtype.element? = some t) (hasBias : Bool) (alpha beta : Double) :
    Keeps limit (Ready limit output out) (multiply d lhs rhs out output hasBias alpha beta t) fun _ => Intact limit := by
  have hdone : ∀ {x : HostM Stop Unit}, Keeps limit (Ready limit output out) x (fun _ => Ready limit output out) →
      Keeps limit (Ready limit output out) (do x; return out) fun _ => Intact limit :=
    fun hx => hx.bind fun _ => keeps_pure fun _ hs => hs.intact
  cases t with
  | float32 | float64 => exact hdone (keeps_floatProduct rfl ht _ _)
  | float16 | bfloat16 => exact hdone (keeps_halfProduct ht hasBias _ _)
  | uint8 | uint32 | int32 | int64 => exact hdone (keeps_integerProduct rfl ht _)

/-- The product goes into a buffer of the shape of the output: a new one, the bias or a copy of it. -/
theorem keeps_matMul (alpha beta : Double) (hasBias : Bool) (owned : List Bool) (output : Shape) :
    Keeps limit (Inputs limit ids) (matMul alpha beta hasBias ids owned output) fun _ => Intact limit := by
  refine (keeps_input (fun _ hs => hs.1) ids 0).bind fun lhsId => keeps_and fun _ => ?_
  refine (keeps_input (fun _ hs => hs.1) ids 1).bind fun rhsId => keeps_and fun _ => ?_
  refine (keeps_buffer (fun _ hs => hs.1) lhsId).bind fun lhs => ?_
  refine (keeps_buffer (fun _ hs => hs.1.1) rhsId).bind fun rhs => ?_
  intro s hs
  obtain ⟨hintact, hlive⟩ := hs.1.1
  cases ProductDims.ofShapes lhs.shape rhs.shape with
  | error e => exact hintact
  | ok d =>
    -- what is done once there is a buffer for the output
    have hinto (hasBias : Bool) (alpha beta : Double) (out : BufferId) : Keeps limit (Ready limit output out)
        (elementType output >>= multiply d (lhsId, lhs) (rhsId, rhs) out output hasBias alpha beta)
        fun _ => Intact limit :=
      (keeps_elementType (fun _ hs => hs.intact) output).bind fun t => keeps_and fun ht =>
        keeps_multiply ht hasBias alpha beta
    cases hasBias with
    | false => exact (keeps_newBuffer output).bind (hinto false .zero (.ofInt 1)) s hintact
    | true =>
      refine ((keeps_input (P := Inputs limit ids) (fun _ hs => hs.1) ids 2).bind fun biasId => keeps_and fun hid => ?_) s
        ⟨hintact, hlive⟩
      rintro s ⟨hintact, hlive⟩
      obtain ⟨⟨shape, flat, finalized⟩, hbias⟩ := hlive biasId (List.mem_of_getElem? hid)
      obtain rfl : finalized = false := hbias.2
      rw [exec_bind_ok (exec_buffer hbias.1)]
      by_cases hshape : shape = output
      · subst hshape
        rw [if_neg (fun h => h rfl)]
        cases howned : owned.getD 2 false with
        | true => exact hinto true alpha beta biasId s ⟨hintact, flat, hbias⟩
        | false => exact keeps_clone.bind (hinto true alpha beta) s ⟨hintact, hbias⟩
      · rw [if_pos hshape]
        exact hintact

end Products

/-! ## Calls of the host -/

theorem keeps_runOperation (op : Operation) (owned : List Bool) (output : Shape) :
    Keeps limit (Inputs limit ids) (runOperation op ids owned output) fun _ => Intact limit := by
  have hintact : ∀ s, Inputs limit ids s → Intact limit s := fun _ hs => hs.1
  cases op with
  | fill value | arange start step => exact (keeps_tabulate output _).imp hintact fun _ _ h => h
  | fused program => exact keeps_fused program owned output
  | elementwise e => exact keeps_fused (some (Program.single (.elementwise e) output.dtype)) owned output
  | matMul alpha beta hasBias => exact keeps_matMul alpha beta hasBias owned output
  | transpose permutation =>
    refine (keeps_input hintact ids 0).bind fun id => keeps_and fun _ => ?_
    exact (keeps_transpose permutation id output).imp hintact fun _ _ h => h
  | cast dtype =>
    refine (keeps_input hintact ids 0).bind fun id => keeps_and fun hid => ?_
    exact (keeps_cast id output).imp (fun s hs => ⟨hs.1, hs.2 id (List.mem_of_getElem? hid)⟩) fun _ _ h => h
  | other kind => exact keeps_throw hintact

theorem keeps_execute (op : Operation) (inputs : List BufferRef) (owned : List Bool) (output : Shape) :
    Keeps limit (Intact limit) (execute op inputs owned output) fun _ => Intact limit := by
  intro s hs
  rw [← dividedBy_partition s]
  cases execute_cases op inputs owned output s with
  | rejected e _ hexec =>
    rw [hexec]
    exact hs
  | runs ids _ hlive hexec =>
    rw [hexec]
    exact keeps_adapt (keeps_runOperation op _ output) s ⟨hs, hlive⟩

theorem keeps_checkLayout (hP : ∀ s, P s → Intact limit s) (call : String) (shape : Shape) (layout : Layout) :
    Keeps limit P (liftM (checkLayout call shape layout) : HostM HostError Unit)
      fun _ s => P s ∧ shape.dtype = layout.type.dtype ∧ (layout.size : Int) = shape.size := by
  intro s hs
  unfold checkLayout
  split
  · exact hP s hs
  · split
    · exact hP s hs
    · split
      · exact hP s hs
      · rename_i hdtype hsize
        exact ⟨hs, Decidable.not_not.mp hdtype, Decidable.not_not.mp hsize⟩

theorem keeps_fromPayload (payload : Payload) (shape : Shape) :
    Keeps limit (Intact limit) (fromPayload payload shape) fun _ => Intact limit := by
  unfold fromPayload
  dsimp only
  split
  · exact keeps_throw fun _ hs => hs
  · cases payload with
    | scalar typeName => exact keeps_throw fun _ hs => hs
    | flat data =>
      refine (keeps_checkLayout (fun _ hs => hs) _ shape data.layout).bind fun _ => keeps_and fun hlayout => ?_
      refine (keeps_adapt (keeps_newBuffer shape)).bind fun id => ?_
      refine (keeps_write_flat fun l hl => ?_).bind fun _ => keeps_pure fun _ hs => hs.intact
      obtain ⟨hstorage, hsize⟩ := Layout.make_eq_ok hl
      have htype : data.type = l.type := by
        have hdata := data.type.storage?_dtype
        rw [show data.type.dtype = shape.dtype from hlayout.1.symm, hstorage] at hdata
        exact (Option.some.inj hdata).symm
      exact ⟨htype, fun _ _ => Int.ofNat.inj (hlayout.2.trans hsize.symm)⟩

theorem keeps_toPayload (ref : BufferRef) (destination : Layout) :
    Keeps limit (Intact limit) (toPayload ref destination) fun _ => Intact limit := by
  refine keeps_get_bind fun s₀ => ?_
  split
  · exact keeps_throw fun _ hs => hs
  · refine (keeps_checkLayout (fun _ hs => hs) _ _ destination).bind fun _ => ?_
    exact keeps_pure fun _ hs => hs.1

theorem keeps_shapeOf (ref : BufferRef) :
    Keeps limit (Intact limit) (shapeOf ref) fun _ => Intact limit := by
  refine keeps_get_bind fun s₀ => ?_
  split
  · exact keeps_throw fun _ hs => hs
  · exact keeps_pure fun _ hs => hs

theorem keeps_finalizeBuffer (ref : BufferRef) :
    Keeps limit (Intact limit) (finalizeBuffer ref) fun _ => Intact limit := by
  intro s hs
  rw [finalizeBuffer, exec_bind_ok (exec_get s)]
  cases hlive : s.heap.live ref with
  | error e => exact hs
  | ok found =>
    obtain ⟨s', hexec, hsound, hframe, -⟩ := recycle_live (ε := HostError) hs.sound (live_of_ref hlive)
    rw [hexec]
    exact ⟨hsound, hframe.limit_eq.trans hs.limit_eq⟩

end HostM

/-! ## Runs of the host -/

inductive HostCall where
  | execute (op : Operation) (inputs : List BufferRef) (owned : List Bool) (output : Shape)
  | newBuffer (shape : Shape)
  | fromPayload (payload : HostM.Payload) (shape : Shape)
  | toPayload (ref : BufferRef) (destination : Layout)
  | shapeOf (ref : BufferRef)
  | finalizeBuffer (ref : BufferRef)
  | resetPeak
  | finalize

namespace HostState

open HostM

/-- The state after a call, which may have failed. -/
def after (s : HostState) : HostCall → HostState
  | .execute op inputs owned output => (exec (execute op inputs owned output) s).2
  | .newBuffer shape => (exec (newBuffer shape) s).2
  | .fromPayload payload shape => (exec (fromPayload payload shape) s).2
  | .toPayload ref destination => (exec (toPayload ref destination) s).2
  | .shapeOf ref => (exec (shapeOf ref) s).2
  | .finalizeBuffer ref => (exec (finalizeBuffer ref) s).2
  | .resetPeak => { s with host.account := s.host.account.resetPeak }
  | .finalize => { s with host := s.host.finalize }

variable {s : HostState} {limit : UInt64}

theorem intact_of_keeps {ε α : Type} {x : HostM ε α} (h : Keeps limit (Intact limit) x fun _ => Intact limit)
    (hs : Intact limit s) : Intact limit (exec x s).2 := by
  have hx := h s hs
  rcases hexec : exec x s with ⟨_ | a, s'⟩ <;> rw [hexec] at hx <;> exact hx

theorem intact_after (hs : Intact limit s) (c : HostCall) : Intact limit (s.after c) := by
  cases c with
  | execute op inputs owned output => exact intact_of_keeps (keeps_execute op inputs owned output) hs
  | newBuffer shape =>
    exact intact_of_keeps ((keeps_newBuffer shape).imp (fun _ hs => hs) fun _ _ hs => hs.intact) hs
  | fromPayload payload shape => exact intact_of_keeps (keeps_fromPayload payload shape) hs
  | toPayload ref destination => exact intact_of_keeps (keeps_toPayload ref destination) hs
  | shapeOf ref => exact intact_of_keeps (keeps_shapeOf ref) hs
  | finalizeBuffer ref => exact intact_of_keeps (keeps_finalizeBuffer ref) hs
  | resetPeak =>
    exact ⟨⟨hs.sound.buffers, hs.sound.shelved, hs.sound.distinct, hs.sound.kernels, hs.sound.inOrder⟩, hs.limit_eq⟩
  | finalize =>
    -- the shelves are empty then
    exact ⟨⟨hs.sound.buffers, nofun, fun _ => List.nodup_nil, hs.sound.kernels, hs.sound.inOrder⟩, hs.limit_eq⟩

/-- The state after calls. -/
def run (s : HostState) (calls : List HostCall) : HostState := calls.foldl after s

theorem intact_run (calls : List HostCall) (hs : Intact limit s) : Intact limit (s.run calls) := by
  induction calls generalizing s with
  | nil => exact hs
  | cons c calls ih => exact ih (intact_after hs c)

end HostState

/-! ## New hosts -/

/-- The host of an empty configuration. -/
def Host.plain : Host := { workers := .withParallelism 8, minParallel := 16384, account := { limit := 0 } }

theorem Host.ofConfiguration_empty : Host.ofConfiguration "" = .ok .plain := rfl

/-- A host that is new has returned nothing, compiled nothing and is not finalized, and its workers take their ranges
in order. -/
theorem Host.ofConfiguration_eq_ok {configuration : String} {host : Host}
    (h : Host.ofConfiguration configuration = .ok host) :
    host.shelves = {} ∧ host.kernels = { name := "cpu" } ∧ host.finalized = false ∧ host.workers.turns = [] := by
  obtain ⟨options, -, h⟩ := bind_eq_ok h
  obtain ⟨parallelism, -, h⟩ := bind_eq_ok h
  obtain ⟨minParallel, -, h⟩ := bind_eq_ok h
  obtain ⟨limit, -, h⟩ := bind_eq_ok h
  obtain ⟨_, -, h⟩ := bind_eq_ok h
  obtain rfl := Except.ok.inj h
  exact ⟨rfl, rfl, rfl, rfl⟩

theorem HostState.sound_configured {configuration : String} {host : Host}
    (h : Host.ofConfiguration configuration = .ok host) : HostState.Sound ⟨host, {}⟩ := by
  obtain ⟨hshelves, hkernels, -, hturns⟩ := Host.ofConfiguration_eq_ok h
  refine ⟨fun id b hb => ?_, fun key id hid => ?_, fun key => ?_, ?_, hturns⟩
  · simp [Heap.get?] at hb
  · rw [hshelves] at hid
    cases hid
  · rw [hshelves]
    exact List.nodup_nil
  · rw [hkernels]
    intro entry hentry
    cases hentry

end LazyTensor
