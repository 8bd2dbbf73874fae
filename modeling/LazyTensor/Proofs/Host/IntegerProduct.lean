import LazyTensor.Proofs.Graph.Rules
import LazyTensor.Proofs.Host.Allocation
import LazyTensor.Proofs.Kernel.IntegerProduct
import LazyTensor.Proofs.Number.Conversion

/-!
# Products of integers on the host

A host multiplies batches of integer matrices modulo `2 ^ width`. The product goes into a new buffer, of which every
element is written. With a bias it goes into a copy of the bias, or into the bias itself if the caller gives it away,
and the elements are the same.
-/

namespace LazyTensor

open HostState Kernel

/-! ## Integer types -/

/-- The integer types with their formats. -/
inductive ElementType.IsInteger : ElementType → IntFormat → Prop where
  | uint8 : IsInteger .uint8 .uint8
  | uint32 : IsInteger .uint32 .uint32
  | int32 : IsInteger .int32 .int32
  | int64 : IsInteger .int64 .int64

namespace ElementType.IsInteger

variable {t : ElementType} {f : IntFormat}

theorem elem_eq (h : t.IsInteger f) : t.Elem = IntWord f := by
  cases h <;> rfl

/-- Words of the format as elements of the type. -/
def elements (h : t.IsInteger f) (words : Array (IntWord f)) : Array t.Elem := h.elem_eq ▸ words

/-- The elements of a buffer with these words. -/
def flat (h : t.IsInteger f) (words : Array (IntWord f)) : Flat := .ofElements t (h.elements words)

theorem elements_cast (h : t.IsInteger f) (words : Array (IntWord f)) : h.elem_eq ▸ h.elements words = words := by
  cases h <;> rfl

theorem size_elements (h : t.IsInteger f) (words : Array (IntWord f)) : (h.elements words).size = words.size := by
  cases h <;> rfl

theorem exists_elements_eq (h : t.IsInteger f) (data : Array t.Elem) : ∃ words, data = h.elements words := by
  cases h <;> exact ⟨data, rfl⟩

theorem format_unique {g : IntFormat} (h : t.IsInteger f) (h' : t.IsInteger g) : f = g := by
  cases h <;> cases h' <;> rfl

theorem clampable (h : t.IsInteger f) : f.Clampable := by
  cases h with
  | uint8 => exact IntFormat.clampable_uint8
  | uint32 => exact IntFormat.clampable_uint32
  | int32 => exact IntFormat.clampable_int32
  | int64 => exact IntFormat.clampable_int64

end ElementType.IsInteger

/-! ## Shapes -/

theorem Shape.Product.fitting {x y z : Shape} (h : Shape.Product x y z) (hx : x.Bounded) (hy : y.Bounded)
    (hz : z.Bounded) :
    ∃ d, ProductDims.ofShapes x y = .ok d ∧ ∀ a b c : Nat, (a : Int) = x.dims.prod → (b : Int) = y.dims.prod →
      (c : Int) = z.dims.prod → Fitting d a b c := by
  cases h with
  | matrices t m k n =>
    refine ⟨⟨1, m, k, n⟩, by simp [ProductDims.ofShapes], fun a b c ha hb hc => ?_⟩
    have hxpos := hx.positive
    have hypos := hy.positive
    simp only [List.mem_cons, List.not_mem_nil, or_false, forall_eq_or_imp, forall_eq] at hxpos hypos
    have hlt := And.intro (ha ▸ hx.small) (And.intro (hb ▸ hy.small) (hc ▸ hz.small))
    simp only [List.prod_cons, List.prod_nil, Int.mul_one] at ha hb hc
    exact ⟨Int.one_pos, hxpos.1, hxpos.2, hypos.2, by rw [ha, Int.one_mul], by rw [hb, Int.one_mul],
      by rw [hc, Int.one_mul], hlt.1, hlt.2.1, hlt.2.2⟩
  | batches t batch m k n =>
    refine ⟨⟨batch, m, k, n⟩, by simp [ProductDims.ofShapes], fun a b c ha hb hc => ?_⟩
    have hxpos := hx.positive
    have hypos := hy.positive
    simp only [List.mem_cons, List.not_mem_nil, or_false, forall_eq_or_imp, forall_eq] at hxpos hypos
    have hlt := And.intro (ha ▸ hx.small) (And.intro (hb ▸ hy.small) (hc ▸ hz.small))
    simp only [List.prod_cons, List.prod_nil, Int.mul_one] at ha hb hc
    exact ⟨hxpos.1, hxpos.2.1, hxpos.2.2, hypos.2.2, ha, hb, hc, hlt.1, hlt.2.1, hlt.2.2⟩

namespace HostM

variable {s s' : HostState} {p : Partition} {gave : List Nat} {output : Shape} {out lhsId rhsId id : Nat}
  {lhs rhs : HostBuffer} {t : ElementType} {f : IntFormat} {d : ProductDims} {l r old result : Array (IntWord f)}

theorem multiply_eq (ht : t.IsInteger f) (lhs rhs : BufferId × HostBuffer) (out : BufferId) (hasBias : Bool)
    (alpha beta : Double) :
    multiply d lhs rhs out output hasBias alpha beta t =
      (do integerProduct t ht.elem_eq d lhs rhs out (if hasBias then some (alpha, beta) else none); return out) := by
  cases ht <;> rfl

def coefficientWords (f : IntFormat) (coefficients : Option (Double × Double)) : Option (IntWord f × IntWord f) :=
  coefficients.map fun (alpha, beta) => (Scalar.toIntWord (.double alpha), Scalar.toIntWord (.double beta))

theorem exec_integerProduct (ht : t.IsInteger f) (hdtype : output.dtype.element? = some t)
    (hmade : Made s gave output out s' (ht.flat old)) (hl : lhs.flat = ht.flat l) (hr : rhs.flat = ht.flat r)
    (hlhs : lhsId ≠ out) (hrhs : rhsId ≠ out) (hfit : Fitting d l.size r.size old.size)
    {coefficients : Option (Double × Double)} (hsize : result.size = old.size)
    (hresult : ∀ ranges, Covers ranges (d.batch * d.m).toNat →
      Kernel.integerProduct ranges d (.apart l) (.apart r) (coefficientWords f coefficients) old = (result, none))
    (p : Partition) :
    ∃ s'', exec (integerProduct t ht.elem_eq d (lhsId, lhs) (rhsId, rhs) out coefficients) (s'.dividedBy p) =
      (.ok (), s''.dividedBy p) ∧ Made s gave output out s'' (ht.flat result) := by
  have hrows := hfit.operands.rows_eq
  have hpos : 0 < d.batch * d.m := Int.mul_pos hfit.batch_pos hfit.m_pos
  have hcovers : Covers ((s'.dividedBy p).host.ranges (wrap64 (d.batch * d.m))) (d.batch * d.m).toNat := by
    rw [hrows]
    exact covers_ranges _ (Int.toNat_of_nonneg (Int.le_of_lt hpos))
  -- there is a row, so the kernel runs
  have hnonempty : ¬ ((s'.dividedBy p).host.ranges (wrap64 (d.batch * d.m))).isEmpty = true := by
    rw [hcovers.isEmpty_eq, beq_iff_eq]
    omega
  obtain ⟨_, hold, holdSize, -⟩ := hmade.elements hdtype
  obtain rfl : ht.elements old = _ := eq_of_heq (Flat.mk.inj hold).2
  refine ⟨s'.put out ⟨output, ht.flat result, false⟩, ?_, hmade.put hdtype (ht.elements result) ?_⟩
  · rw [integerProduct, exec_bind_ok (exec_get _), if_neg hnonempty, exec_bind_ok (exec_source hl hlhs _),
      exec_bind_ok (exec_source hr hrhs _), exec_bind_ok (exec_buffer_dividedBy hmade.live p),
      exec_bind_ok (exec_elements t rfl _), apart_cast, apart_cast, ht.elements_cast, ht.elements_cast, ht.elements_cast]
    have hrun := hresult _ hcovers
    unfold coefficientWords at hrun
    simp only [hrun]
    rw [exec_bind_ok (exec_write_dividedBy hmade.live _ p)]
    rfl
  · rwa [ht.size_elements, hsize, ← ht.size_elements]

theorem exec_multiply (ht : t.IsInteger f) (hdtype : output.dtype.element? = some t)
    (hmade : Made s gave output out s' (ht.flat old)) (hl : lhs.flat = ht.flat l) (hr : rhs.flat = ht.flat r)
    (hlhs : lhsId ≠ out) (hrhs : rhsId ≠ out) (hfit : Fitting d l.size r.size old.size) (hasBias : Bool)
    (alpha beta : Double) (hsize : result.size = old.size)
    (hresult : ∀ ranges, Covers ranges (d.batch * d.m).toNat → Kernel.integerProduct ranges d (.apart l) (.apart r)
      (coefficientWords f (if hasBias then some (alpha, beta) else none)) old = (result, none)) (p : Partition) :
    ∃ s'', exec (elementType output >>= multiply d (lhsId, lhs) (rhsId, rhs) out output hasBias alpha beta)
      (s'.dividedBy p) = (.ok out, s''.dividedBy p) ∧ Made s gave output out s'' (ht.flat result) := by
  obtain ⟨s'', hexec, hmade'⟩ := exec_integerProduct ht hdtype hmade hl hr hlhs hrhs hfit hsize hresult p
  refine ⟨s'', ?_, hmade'⟩
  rw [exec_bind_ok (exec_elementType hdtype _), multiply_eq ht, exec_bind_ok hexec]
  rfl

theorem size_words (ht : t.IsInteger f) (hs : s.Sound) {x : Shape} {words : Array (IntWord f)}
    (hlive : s.Live id ⟨x, ht.flat words, false⟩) (hdtype : x.dtype.element? = some t) (hx : x.Bounded) :
    (words.size : Int) = x.dims.prod := by
  obtain ⟨data, hdata, hsize, -⟩ := (hs.buffers id _ hlive.1).exists_elements hdtype
  obtain rfl : ht.elements words = data := eq_of_heq (Flat.mk.inj hdata).2
  rwa [← hx.size_eq, ← ht.size_elements words]

section Operation

variable {x y : Shape} {bias : Array (IntWord f)} {biasId : Nat} {alpha beta : Double} (hs : s.Sound)
  (ht : t.IsInteger f) (hdtype : output.dtype.element? = some t) (hlhs : s.Live lhsId (Value.buffer ⟨x, ht.flat l⟩))
  (hrhs : s.Live rhsId (Value.buffer ⟨y, ht.flat r⟩)) (hd : ProductDims.ofShapes x y = .ok d)
  (hfit : Fitting d l.size r.size result.size)

include hs hdtype hlhs hrhs hd hfit

theorem makes_matMul (hsize : (result.size : Int) = output.size) {layout : Layout}
    (hlayout : Layout.make output.dtype output.size = .ok layout)
    (hresult : ∀ (ranges : List Range) (old : Array (IntWord f)), Covers ranges (d.batch * d.m).toNat →
      old.size = result.size → Kernel.integerProduct ranges d (.apart l) (.apart r) none old = (result, none))
    (owned : List Bool) (p : Partition) :
    Makes s p output (ht.flat result) (exec (matMul alpha beta false [lhsId, rhsId] owned output) (s.dividedBy p)) := by
  rw [exec_matMul (hlhs.dividedBy p) (hrhs.dividedBy p) hd]
  refine makes_newBuffer_bind hs hlayout fun out s' flat hmade => ?_
  obtain ⟨data, rfl, hdata, -⟩ := hmade.elements hdtype
  obtain ⟨old, rfl⟩ := ht.exists_elements_eq data
  have hold : result.size = old.size := by
    rw [ht.size_elements] at hdata
    omega
  -- a new buffer is no operand
  exact exec_multiply ht hdtype hmade rfl rfl (hmade.fresh hlhs) (hmade.fresh hrhs) (hold ▸ hfit) false .zero (.ofInt 1)
    hold (fun ranges hranges => hresult ranges old hranges hold.symm) p

variable (hbias : s.Live biasId (Value.buffer ⟨output, ht.flat bias⟩)) (hsize : result.size = bias.size)
  (hresult : ∀ ranges, Covers ranges (d.batch * d.m).toNat → Kernel.integerProduct ranges d (.apart l) (.apart r)
    (coefficientWords f (some (alpha, beta))) bias = (result, none)) {owned : List Bool}

include hbias hsize hresult

theorem makes_matMul_bias (howned : owned.getD 2 false = false) (p : Partition) :
    Makes s p output (ht.flat result)
      (exec (matMul alpha beta true [lhsId, rhsId, biasId] owned output) (s.dividedBy p)) := by
  rw [exec_matMul_bias (hlhs.dividedBy p) (hrhs.dividedBy p) (hbias.dividedBy p) hd rfl, howned]
  refine makes_clone_bind hs hbias fun out s' hmade => ?_
  exact exec_multiply ht hdtype hmade rfl rfl (hmade.fresh hlhs) (hmade.fresh hrhs) (hsize ▸ hfit) true alpha beta hsize
    hresult p

theorem exec_matMul_owned (howned : owned.getD 2 false = true) (hlne : lhsId ≠ biasId) (hrne : rhsId ≠ biasId)
    (p : Partition) :
    ∃ s', exec (matMul alpha beta true [lhsId, rhsId, biasId] owned output) (s.dividedBy p) =
      (.ok biasId, s'.dividedBy p) ∧ Made s [biasId] output biasId s' (ht.flat result) := by
  rw [exec_matMul_bias (hlhs.dividedBy p) (hrhs.dividedBy p) (hbias.dividedBy p) hd rfl, howned]
  have hmade : Made s [biasId] output biasId s (ht.flat bias) :=
    ⟨hs, Frame.refl s _, hbias, .given (List.mem_singleton.mpr rfl) ⟨_, hbias⟩ rfl⟩
  exact exec_multiply ht hdtype hmade rfl rfl hlne hrne (hsize ▸ hfit) true alpha beta hsize hresult p

end Operation

theorem exists_live_elements (hs : s.Sound) {b : HostBuffer} (hlive : s.Live id b)
    (hdtype : b.shape.dtype.element? = some t) : ∃ data, s.Live id ⟨b.shape, .ofElements t data, false⟩ := by
  obtain ⟨data, hdata, -⟩ := (hs.buffers id b hlive.1).exists_elements hdtype
  refine ⟨data, ?_, rfl⟩
  rw [← hdata, ← hlive.2]
  exact hlive.1

theorem exists_words (ht : t.IsInteger f) (hs : s.Sound) {b : HostBuffer} (hlive : s.Live id b)
    (hdtype : b.shape.dtype.element? = some t) : ∃ words, s.Live id ⟨b.shape, ht.flat words, false⟩ := by
  obtain ⟨data, hdata⟩ := exists_live_elements hs hlive hdtype
  obtain ⟨words, rfl⟩ := ht.exists_elements_eq data
  exact ⟨words, hdata⟩

/-- Whatever host was configured and whatever was called before: two live batches of integer matrices, or two matrices as
batches of one, have a product modulo `2 ^ width`. The kernel writes it in whatever ranges the rows are divided into,
whatever stood in the output before. A host that divides its work in whatever way makes a new buffer with it, if there is
room for it. With a bias the coefficients are truncated toward zero and clamped to the values of the type. The
elements are the same in a copy of the bias and, if the bias is given away and no operand, in the bias itself. -/
theorem matMul_modulo (configuration : String) (host : Host) (hhost : Host.ofConfiguration configuration = .ok host)
    (calls : List HostCall) (t : ElementType) (f : IntFormat) (ht : t.IsInteger f) (x y output : Shape)
    (hproduct : Shape.Product x y output) (hdtype : output.dtype = t.dtype) (hx : x.Bounded) (hy : y.Bounded)
    (houtput : output.Bounded) (lhsId rhsId : Nat) (lhs rhs : Array (IntWord f))
    (hlhs : (run ⟨host, {}⟩ calls).Live lhsId ⟨x, ht.flat lhs, false⟩)
    (hrhs : (run ⟨host, {}⟩ calls).Live rhsId ⟨y, ht.flat rhs, false⟩) (alpha beta : Double) :
    let s := run ⟨host, {}⟩ calls
    ∃ d, ProductDims.ofShapes x y = .ok d ∧
      (∃ out : Array (IntWord f), IsResidue [d.batch, d.m, d.n] out (exactProduct d lhs rhs) ∧
        (∀ (ranges : List Range) (old : Array (IntWord f)), Covers ranges (d.batch * d.m).toNat → old.size = out.size →
          Kernel.integerProduct ranges d (.apart lhs) (.apart rhs) none old = (out, none)) ∧
        ((Layout.make output.dtype output.size).isOk → ∀ owned p, Makes s p output (ht.flat out)
          (exec (matMul alpha beta false [lhsId, rhsId] owned output) (s.dividedBy p)))) ∧
      ∀ (biasId : Nat) (bias : Array (IntWord f)), s.Live biasId ⟨output, ht.flat bias, false⟩ →
        ∃ out : Array (IntWord f), IsResidue [d.batch, d.m, d.n] out (fun index =>
            clamped f alpha * componentValue [d.batch, d.m, d.n] bias index + clamped f beta * exactProduct d lhs rhs index) ∧
          (∀ ranges, Covers ranges (d.batch * d.m).toNat →
            Kernel.integerProduct ranges d (.apart lhs) (.apart rhs) (coefficientWords f (some (alpha, beta))) bias =
              (out, none)) ∧
          ∀ owned p,
            let r := exec (matMul alpha beta true [lhsId, rhsId, biasId] owned output) (s.dividedBy p)
            (owned.getD 2 false = false → Makes s p output (ht.flat out) r) ∧
            (owned.getD 2 false = true → lhsId ≠ biasId → rhsId ≠ biasId →
              ∃ s', r = (.ok biasId, s'.dividedBy p) ∧ Made s [biasId] output biasId s' (ht.flat out)) := by
  intro s
  have hs : s.Sound := (intact_run calls ⟨sound_configured hhost, rfl⟩).sound
  have helement : output.dtype.element? = some t := by
    rw [hdtype]
    cases ht <;> rfl
  have hxtype : x.dtype.element? = some t := by
    rw [← helement]
    cases hproduct <;> rfl
  have hytype : y.dtype.element? = some t := by
    rw [← helement]
    cases hproduct <;> rfl
  obtain ⟨d, hd, hfitting⟩ := hproduct.fitting hx hy houtput
  -- the operands fit to every output that has all elements
  have hfit : ∀ old : Array (IntWord f), (old.size : Int) = output.dims.prod → Fitting d lhs.size rhs.size old.size :=
    fun old hold => hfitting _ _ _ (size_words ht hs hlhs hxtype hx) (size_words ht hs hrhs hytype hy) hold
  refine ⟨d, hd, ?_, ?_⟩
  · obtain ⟨n, hn⟩ := Int.eq_ofNat_of_zero_le (Int.le_of_lt (prod_pos houtput.positive))
    have hzeros := hfit (Array.replicate n .zero) (by rw [Array.size_replicate, hn])
    obtain ⟨out, hsize, hout, hkernel⟩ := exists_integerProduct_none hzeros
    rw [← hsize] at hzeros
    refine ⟨out, hout, hkernel, fun hlayout owned p => ?_⟩
    have hsize' : (out.size : Int) = output.size := by
      rw [houtput.size_eq, hsize, Array.size_replicate, hn]
    rw [isOk_eq, Option.isSome_iff_exists] at hlayout
    obtain ⟨layout, hlayout⟩ := hlayout
    exact makes_matMul hs ht helement hlhs hrhs hd hzeros hsize' (eq_ok_of_toOption hlayout) hkernel owned p
  · intro biasId bias hbias
    have hfits := hfit bias (size_words ht hs hbias helement houtput)
    obtain ⟨out, hsize, hout, hkernel⟩ := exists_integerProduct hfits (coefficientWords f (some (alpha, beta)))
    rw [← hsize] at hfits
    refine ⟨out, hout.congr fun index => ?_, hkernel, fun owned p => ⟨fun howned => ?_, fun howned hlne hrne => ?_⟩⟩
    · rw [← value_toIntWord ht.clampable alpha, ← value_toIntWord ht.clampable beta]
      rfl
    · exact makes_matMul_bias hs ht helement hlhs hrhs hd hfits hbias hsize hkernel howned p
    · exact exec_matMul_owned hs ht helement hlhs hrhs hd hfits hbias hsize hkernel howned hlne hrne p

/-- Two batches of unsigned products are added to a bias that is given away, with a coefficient below zero. -/
theorem matMul_modulo_batches :
    let x : Shape := ⟨.uint32, [2, 2, 3]⟩
    let y : Shape := ⟨.uint32, [2, 3, 2]⟩
    let z : Shape := ⟨.uint32, [2, 2, 2]⟩
    let arange (shape : Shape) : HostCall := .execute (.arange (.ofInt 7) (.ofInt 3)) [] [] shape
    let ht := ElementType.IsInteger.uint32
    ∃ host, Host.ofConfiguration "" = .ok host ∧
      let s := run ⟨host, {}⟩ [arange x, arange y, arange z]
      ∃ lhs rhs bias out, s.Live 0 ⟨x, ht.flat lhs, false⟩ ∧ s.Live 1 ⟨y, ht.flat rhs, false⟩ ∧
        s.Live 2 ⟨z, ht.flat bias, false⟩ ∧
        IsResidue [2, 2, 2] out (fun index => clamped .uint32 (.ofInt (-1)) * componentValue [2, 2, 2] bias index +
          clamped .uint32 (.ofInt 5) * exactProduct ⟨2, 2, 3, 2⟩ lhs rhs index) ∧
        ∀ p, ∃ s', exec (matMul (.ofInt (-1)) (.ofInt 5) true [0, 1, 2] [false, false, true] z) (s.dividedBy p) =
          (.ok 2, s'.dividedBy p) ∧ Made s [2] z 2 s' (ht.flat out) := by
  intro x y z arange ht
  let host := Host.plain
  have hhost := Host.ofConfiguration_empty
  let calls := [arange x, arange y, arange z]
  have hs : (run ⟨host, {}⟩ calls).Sound := (intact_run calls ⟨sound_configured hhost, rfl⟩).sound
  let b0 := ((run ⟨host, {}⟩ calls).heap.get? 0).get (by decide +kernel)
  let b1 := ((run ⟨host, {}⟩ calls).heap.get? 1).get (by decide +kernel)
  let b2 := ((run ⟨host, {}⟩ calls).heap.get? 2).get (by decide +kernel)
  have hlive0 : (run ⟨host, {}⟩ calls).Live 0 b0 := ⟨(Option.some_get _).symm, by decide +kernel⟩
  have hlive1 : (run ⟨host, {}⟩ calls).Live 1 b1 := ⟨(Option.some_get _).symm, by decide +kernel⟩
  have hlive2 : (run ⟨host, {}⟩ calls).Live 2 b2 := ⟨(Option.some_get _).symm, by decide +kernel⟩
  have hx : b0.shape = x := by decide +kernel
  have hy : b1.shape = y := by decide +kernel
  have hz : b2.shape = z := by decide +kernel
  obtain ⟨lhs, hlhs⟩ := exists_words ht hs hlive0 (by rw [hx]; rfl)
  obtain ⟨rhs, hrhs⟩ := exists_words ht hs hlive1 (by rw [hy]; rfl)
  obtain ⟨bias, hbias⟩ := exists_words ht hs hlive2 (by rw [hz]; rfl)
  rw [hx] at hlhs
  rw [hy] at hrhs
  rw [hz] at hbias
  obtain ⟨d, hd, -, hwith⟩ := matMul_modulo "" host hhost calls .uint32 .uint32 ht x y z (.batches .uint32 2 2 3 2) rfl
    ⟨by decide, by decide⟩ ⟨by decide, by decide⟩ ⟨by decide, by decide⟩ 0 1 lhs rhs hlhs hrhs (.ofInt (-1)) (.ofInt 5)
  obtain rfl : ⟨2, 2, 3, 2⟩ = d := Except.ok.inj hd
  obtain ⟨out, hout, -, hexec⟩ := hwith 2 bias hbias
  refine ⟨host, hhost, lhs, rhs, bias, out, hlhs, hrhs, hbias, hout, fun p => ?_⟩
  exact (hexec [false, false, true] p).2 rfl (by decide) (by decide)

end HostM

end LazyTensor
