import LazyTensor.Proofs.Host.Operations

/-!
# Products on the host compute values

A product reads its operands while it writes its output, so it only has a value if the output is neither of
them: it is a new buffer, or a bias that is given away and that is no operand. Without a bias the output
holds what was there before, and it does not matter if every row is written.
-/

namespace LazyTensor

/-! ## Dimensions -/

namespace ProductDims

/-- Positive dimensions, whose products are those of the shapes. -/
structure Of (d : ProductDims) (l r s : Shape) : Prop where
  batch_pos : 0 < d.batch
  m_pos : 0 < d.m
  k_pos : 0 < d.k
  n_pos : 0 < d.n
  lhs_eq : l.dims.prod = d.batch * (d.m * d.k)
  rhs_eq : r.dims.prod = d.batch * (d.k * d.n)
  out_eq : s.dims.prod = d.batch * (d.m * d.n)

theorem ofShapes_eq_ok {l r : Shape} {d : ProductDims} (h : ofShapes l r = .ok d) :
    (l.dims = [d.m, d.k] ∧ r.dims = [d.k, d.n] ∧ d.batch = 1) ∨
      (l.dims = [d.batch, d.m, d.k] ∧ r.dims = [d.batch, d.k, d.n]) := by
  rw [ofShapes] at h
  split at h
  · rename_i m k k' n hl hr
    split at h
    · rename_i hk
      obtain rfl := Except.ok.inj h
      exact .inl ⟨hl, by rw [hr, hk], rfl⟩
    · cases h
  · rename_i b m k b' k' n hl hr
    split at h
    · cases h
    · rename_i hb
      split at h
      · rename_i hk
        obtain rfl := Except.ok.inj h
        exact .inr ⟨hl, by rw [hr, Decidable.not_not.mp hb, hk]⟩
      · cases h
  · cases h

theorem of_productShape {l r s : Shape} (hl : l.Valid) (hr : r.Valid) (h : productShape l r = .ok s) :
    l.dtype = r.dtype ∧ s.dtype = l.dtype ∧ ∃ d, ofShapes l r = .ok d ∧ d.Of l r s := by
  have hlpos := hl.positive
  have hrpos := hr.positive
  rw [productShape_eq_ok_iff] at h
  cases h with
  | matrices t m k n =>
    simp only [List.mem_cons, List.not_mem_nil, or_false, forall_eq_or_imp, forall_eq] at hlpos hrpos
    exact ⟨rfl, rfl, ⟨1, m, k, n⟩, by simp [ofShapes], Int.one_pos, hlpos.1, hlpos.2, hrpos.2,
      by simp, by simp, by simp⟩
  | batches t b m k n =>
    simp only [List.mem_cons, List.not_mem_nil, or_false, forall_eq_or_imp, forall_eq] at hlpos hrpos
    exact ⟨rfl, rfl, ⟨b, m, k, n⟩, by simp [ofShapes], hlpos.1, hlpos.2.1,
      hlpos.2.2, hrpos.2.2, by simp, by simp, by simp⟩

theorem Of.badDims_eq_none {d : ProductDims} {l r s : Shape} (h : d.Of l r s) : Kernel.badDims d = none :=
  Kernel.badDims_eq_none h.m_pos h.k_pos h.n_pos

end ProductDims

namespace HostM

open HostState Kernel

variable {s s' : HostState} {output : Shape} {t : ElementType} {gave : List Nat} {out : Nat} {d : ProductDims}

/-! ## Products into an output -/

/-- What a product does to its output: it has the elements afterwards, or the product was out of bounds. -/
inductive Multiplied (s : HostState) (gave : List Nat) (output : Shape) (out : Nat) (t : ElementType)
    (value : Option (Array t.Elem)) : Except Stop Unit × HostState → Prop where
  | error (s' : HostState) (flat : Flat) (made : Made s gave output out s' flat) (none : value = none) :
    Multiplied s gave output out t value (.error (.rejected .outOfBounds), s')
  | ok (s' : HostState) (data : Array t.Elem) (made : Made s gave output out s' (.ofElements t data))
    (some : value = some data) : Multiplied s gave output out t value (.ok (), s')

section Casts

variable {α β : Type} (h : α = β)

theorem apart_cast (data : Array α) : (h ▸ Source.apart data : Source β) = .apart (h ▸ data) := by
  subst h
  rfl

theorem size_cast (data : Array α) : (h ▸ data : Array β).size = data.size := by
  subst h
  rfl

private theorem cast_cast_symm (data : Array α) : (h ▸ (h ▸ data : Array β) : Array α) = data := by
  subst h
  rfl

end Casts

theorem exec_source {id : Nat} {b : HostBuffer} {data : Array t.Elem} (hdata : b.flat = .ofElements t data)
    (hid : id ≠ out) (s : HostState) : exec (source t out (id, b)) s = (.ok (.apart data), s) := by
  rw [source, exec_bind_ok (exec_elements t hdata s), if_neg hid]
  rfl

variable {old l r : Array t.Elem} {lhsId rhsId : Nat} {lhs rhs : HostBuffer}

theorem multiplied_write {γ φ : Type} (h : t.Elem = γ) (ht : output.dtype.element? = some t)
    (hmade : Made s gave output out s' (.ofElements t old)) {data : Array γ} {fault : Option φ}
    (hsize : data.size = (h ▸ old : Array γ).size) {k : Option φ → HostM Stop Unit} (hnone : k none = pure ())
    (hsome : ∀ f, fault = some f → k (some f) = throw (.rejected .outOfBounds)) :
    Multiplied s gave output out t ((completed? (data, fault)).map fun data => h ▸ data)
      (exec (do write out (.ofElements t (h ▸ data)); k fault) s') := by
  obtain ⟨_, hold, hlength, -⟩ := hmade.elements ht
  obtain rfl : old = _ := eq_of_heq (Flat.mk.inj hold).2
  have hput := hmade.put ht (h ▸ data) (by
    rw [size_cast, hsize, size_cast]
    exact hlength)
  rw [exec_bind_ok (exec_write hmade.live.1 _)]
  cases fault with
  | none =>
    rw [hnone]
    exact .ok _ _ hput rfl
  | some f =>
    rw [hsome f rfl]
    exact .error _ _ hput rfl

/-- A product in the precision of the output, with the elements to which it is added. -/
theorem multiplied_floatProduct {f : FloatFormat} (h : t.Elem = FloatWord f) (ht : output.dtype.element? = some t)
    (hmade : Made s gave output out s' (.ofElements t old)) (hl : lhs.flat = .ofElements t l)
    (hr : rhs.flat = .ofElements t r) (hlhs : lhsId ≠ out) (hrhs : rhsId ≠ out) (hd : badDims d = none)
    (alpha beta : FloatWord f) :
    Multiplied s gave output out t
      ((floatProduct? d (h ▸ l) (h ▸ r) alpha beta (h ▸ old)).map fun data => h ▸ data)
      (exec (floatProduct t h d (lhsId, lhs) (rhsId, rhs) out alpha beta) s') := by
  have hranges := Workers.consecutive_ranges hmade.sound.inOrder d.batch 1
  obtain ⟨hresult, hvalue⟩ := floatProduct_spec hranges (h ▸ l) (h ▸ r) alpha beta (h ▸ old)
  rw [floatProduct, exec_bind_ok (exec_source hl hlhs s'), exec_bind_ok (exec_source hr hrhs s'),
    exec_bind_ok (exec_buffer hmade.live.1), exec_bind_ok (exec_elements t rfl s'), exec_bind_ok (exec_get s'),
    apart_cast, apart_cast, ← hvalue]
  refine multiplied_write h ht hmade hresult rfl fun fault hfault => ?_
  obtain rfl := floatProduct_fault hd hfault
  rfl

theorem multiplied_integerProduct {f : IntFormat} (h : t.Elem = IntWord f) (ht : output.dtype.element? = some t)
    (hmade : Made s gave output out s' (.ofElements t old)) (hl : lhs.flat = .ofElements t l)
    (hr : rhs.flat = .ofElements t r) (hlhs : lhsId ≠ out) (hrhs : rhsId ≠ out)
    (coefficients : Option (Double × Double)) :
    Multiplied s gave output out t
      ((integerProduct? d (h ▸ l) (h ▸ r) (coefficients.map fun (alpha, beta) =>
        (Scalar.toIntWord (.double alpha), Scalar.toIntWord (.double beta))) (h ▸ old)).map fun data => h ▸ data)
      (exec (integerProduct t h d (lhsId, lhs) (rhsId, rhs) out coefficients) s') := by
  let words : Option (IntWord f × IntWord f) := coefficients.map fun (alpha, beta) =>
    (Scalar.toIntWord (.double alpha), Scalar.toIntWord (.double beta))
  have hranges : Consecutive 0 (s'.host.ranges (wrap64 (d.batch * d.m))) (wrap64 (d.batch * d.m)).toNat :=
    Workers.consecutive_ranges hmade.sound.inOrder _ _
  obtain ⟨hresult, hvalue⟩ := integerProduct_spec hranges (h ▸ l) (h ▸ r) words (h ▸ old)
  rw [integerProduct, exec_bind_ok (exec_get s')]
  by_cases hempty : (s'.host.ranges (wrap64 (d.batch * d.m))).isEmpty = true
  · -- there are no rows, and the output stays as it is
    rw [if_pos hempty]
    rw [List.isEmpty_iff] at hempty
    rw [hempty] at hvalue
    rw [← hvalue]
    refine .ok _ _ hmade ?_
    show some (h ▸ (h ▸ old) : Array t.Elem) = some old
    rw [cast_cast_symm]
  · rw [if_neg hempty, exec_bind_ok (exec_source hl hlhs s'), exec_bind_ok (exec_source hr hrhs s'),
      exec_bind_ok (exec_buffer hmade.live.1), exec_bind_ok (exec_elements t rfl s'), apart_cast, apart_cast]
    rw [← hvalue]
    rcases hrun : Kernel.integerProduct (s'.host.ranges (wrap64 (d.batch * d.m))) d (.apart (h ▸ l)) (.apart (h ▸ r))
      words (h ▸ old) with ⟨data, fault⟩
    rw [hrun] at hresult
    simp only [words] at hrun
    simp only [hrun]
    have hsize : data.size = (h ▸ old : Array (IntWord f)).size := hresult
    have hfault : ∀ f, fault = some f → f = .outOfBounds := fun f hf =>
      integerProduct_fault ((congrArg Prod.snd hrun).trans hf)
    have hwritten := multiplied_write (k := (·.elim (pure ()) fun f => throw (ofFault f))) h ht hmade hsize rfl
      fun f hf => by rw [hfault f hf]; rfl
    cases fault with
    | none | some f => exact hwritten

/-- A product of half floats is computed in single floats, and narrowed at the end. -/
theorem multiplied_halfProduct {widen : t.Elem → Single} {narrow : Single → t.Elem}
    (ht : output.dtype.element? = some t) (hmade : Made s gave output out s' (.ofElements t old))
    (hwiden : ∀ (b : HostBuffer) (data : Array t.Elem), b.flat = .ofElements t data →
      exec (widened b) s' = (.ok (data.map widen), s'))
    (hl : lhs.flat = .ofElements t l) (hr : rhs.flat = .ofElements t r) (hd : badDims d = none)
    (hasBias : Bool) (alpha beta : Single) :
    Multiplied s gave output out t
      (Operation.halfElements? widen narrow alpha beta d old.size l r (if hasBias then some old else none))
      (exec (halfProduct t narrow d lhs rhs out output hasBias alpha beta) s') := by
  obtain ⟨_, hold, hsize, -⟩ := hmade.elements ht
  obtain rfl : old = _ := eq_of_heq (Flat.mk.inj hold).2
  -- the elements to which the product is added
  let start : Array Single := if hasBias then old.map widen else Array.replicate old.size .zero
  have hstart : start.size = old.size := by
    cases hasBias <;> simp [start]
  have hvalue : Operation.halfElements? widen narrow alpha beta d old.size l r (if hasBias then some old else none) =
      (floatProduct? d (l.map widen) (r.map widen) alpha beta start).map (·.map narrow) := by
    cases hasBias <;> rfl
  have hranges := Workers.consecutive_ranges hmade.sound.inOrder d.batch 1
  obtain ⟨hresult, hproduct⟩ := floatProduct_spec hranges (l.map widen) (r.map widen) alpha beta start
  have hexec : exec (halfProduct t narrow d lhs rhs out output hasBias alpha beta) s' =
      exec (do
        let product := Kernel.floatProduct (s'.host.workers.ranges d.batch 1) d (.apart (l.map widen))
          (.apart (r.map widen)) alpha beta start
        checkFloatFault product.2
        write out (.ofElements t (product.1.map narrow))) s' := by
    unfold halfProduct
    cases hasBias with
    | true =>
      simp only [if_true]
      rw [exec_bind_ok (exec_buffer hmade.live.1), exec_bind_ok (hwiden _ old rfl), exec_bind_ok (hwiden _ l hl),
        exec_bind_ok (hwiden _ r hr), exec_bind_ok (exec_get s')]
      rfl
    | false =>
      have hcount : output.size.toNat = old.size := by omega
      simp only [Bool.false_eq_true, if_false]
      rw [exec_bind_ok (exec_pure _ s'), exec_bind_ok (hwiden _ l hl), exec_bind_ok (hwiden _ r hr),
        exec_bind_ok (exec_get s'), hcount]
      rfl
  rcases hrun : Kernel.floatProduct (s'.host.workers.ranges d.batch 1) d (.apart (l.map widen)) (.apart (r.map widen))
    alpha beta start with ⟨data, fault⟩
  rw [hrun] at hresult hproduct
  rw [hexec, hvalue, ← hproduct]
  simp only [hrun]
  cases fault with
  | none =>
    rw [checkFloatFault, exec_bind_ok (exec_pure _ s'), exec_write hmade.live.1]
    refine .ok _ _ (hmade.put ht _ ?_) ?_
    · rwa [Array.size_map, hresult, hstart]
    · rfl
  | some fault =>
    obtain rfl := floatProduct_fault hd (congrArg Prod.snd hrun)
    exact .error _ _ hmade rfl

/-! ## Values of products -/

theorem Multiplied.ran {op : Operation} {values : List Value} {value : Option (Array t.Elem)} {x : HostM Stop Unit}
    {n : Nat} (h : Multiplied s gave output out t value (exec x s')) (ht : output.dtype.element? = some t)
    (hlayout : Layout.make output.dtype output.size = .ok ⟨.element t, n⟩) (hop : op.kind = .matMul)
    (hnone : value = none → op.elements? t values output n = none)
    (hvalue : op.skipsOutput (values.map (·.shape)) output = false → op.elements? t values output n = value) :
    Ran s gave output (Causes op values output) (Right op values output)
      (exec (do x; return out) s') := by
  rcases hx : exec x s' with ⟨result, s''⟩
  rw [hx] at h
  cases h with
  | error _ flat hmade hno =>
    rw [exec_bind_error hx]
    refine .error _ _ hmade.sound (hmade.frame.of_place hmade.place) nofun (.inr ⟨?_, .bounds (.inl hop)⟩)
    rw [value?_eq ht hlayout, hnone hno]
    rfl
  | ok _ data hmade hsome =>
    rw [exec_bind_ok hx]
    refine .ok out _ _ hmade fun hskip => ?_
    rw [value?_eq ht hlayout, hvalue hskip, hsome]
    rfl

theorem Multiplied.ran_of_eq {op : Operation} {values : List Value} {value : Option (Array t.Elem)}
    {x : HostM Stop Unit} {n : Nat} (h : Multiplied s gave output out t value (exec x s'))
    (ht : output.dtype.element? = some t) (hlayout : Layout.make output.dtype output.size = .ok ⟨.element t, n⟩)
    (hop : op.kind = .matMul) (hvalue : op.elements? t values output n = value) :
    Ran s gave output (Causes op values output) (Right op values output) (exec (do x; return out) s') :=
  h.ran ht hlayout hop hvalue.trans fun _ => hvalue

theorem skipsOutput_matMul {lhs rhs : Shape} (hd : ProductDims.ofShapes lhs rhs = .ok d) (alpha beta : Double) :
    (Operation.matMul alpha beta false).skipsOutput [lhs, rhs] output = false ↔
      (output.dtype.isInteger = true → 0 < output.size → 0 ≤ wrap64 (d.batch * d.m)) := by
  rw [Operation.skipsOutput, hd]
  cases output.dtype.isInteger <;> simp [Except.toOption]

variable {lv rv bias : Value}

private theorem ran_multiply_bias (hd : ProductDims.ofShapes lv.shape rv.shape = .ok d) (hdims : badDims d = none)
    (ht : output.dtype.element? = some t) (hl : lv.flat = .ofElements t l) (hr : rv.flat = .ofElements t r)
    (hbias : bias.flat = .ofElements t old) (hmade : Made s gave output out s' (.ofElements t old))
    (hlhs : lhsId ≠ out) (hrhs : rhsId ≠ out) (alpha beta : Double) :
    Ran s gave output (Causes (.matMul alpha beta true) [lv, rv, bias] output)
      (Right (.matMul alpha beta true) [lv, rv, bias] output)
      (exec (multiply d (lhsId, lv.buffer) (rhsId, rv.buffer) out output true alpha beta t) s') := by
  obtain ⟨_, hold, -, hlayout⟩ := hmade.elements ht
  have hvalue : (Operation.matMul alpha beta true).elements? t [lv, rv, bias] output old.size =
      Operation.productElements? alpha beta d old.size t l r (some old) := by
    simp only [Operation.elements?, Operation.matMulElements?, hd, hl, hr, hbias, Flat.as?_ofElements]
    rfl
  cases t with
  | float32 | float64 =>
    exact (multiplied_floatProduct rfl ht hmade hl hr hlhs hrhs hdims _ _).ran_of_eq ht hlayout rfl
      (hvalue.trans Option.map_id'.symm)
  | float16 | bfloat16 =>
    refine (multiplied_halfProduct ht hmade (fun b data h => ?_) hl hr hdims true _ _).ran_of_eq ht hlayout rfl hvalue
    rw [widened, h]
    rfl
  | uint8 | uint32 | int32 | int64 =>
    exact (multiplied_integerProduct rfl ht hmade hl hr hlhs hrhs _).ran_of_eq ht hlayout rfl
      (hvalue.trans Option.map_id'.symm)

/-- Integers without a bias: every row is written, unless their number is negative in 64 bits. -/
private theorem ran_multiply_integer {f : IntFormat} {h : t.Elem = IntWord f} {x : HostM Stop Unit}
    (hd : ProductDims.ofShapes lv.shape rv.shape = .ok d) (hn : 0 < d.n)
    (hsize : wrap64 (d.batch * (d.m * d.n)) = old.size) (ht : output.dtype.element? = some t)
    (hint : output.dtype.isInteger = true)
    (hlayout : Layout.make output.dtype output.size = .ok ⟨.element t, old.size⟩)
    (hx : Multiplied s gave output out t
      ((integerProduct? d (h ▸ l) (h ▸ r) none (h ▸ old)).map fun data => h ▸ data) (exec x s'))
    (alpha beta : Double)
    (hvalue : (Operation.matMul alpha beta false).elements? t [lv, rv] output old.size =
      (integerProduct? d (h ▸ l) (h ▸ r) none (Array.replicate old.size .zero : Array (IntWord f))).map
        fun data => h ▸ data) :
    Ran s gave output (Causes (.matMul alpha beta false) [lv, rv] output)
      (Right (.matMul alpha beta false) [lv, rv] output) (exec (do x; return out) s') := by
  -- the rows cover the output, so it does not matter what was in it
  have hrows : (0 < old.size → 0 ≤ wrap64 (d.batch * d.m)) →
      (Operation.matMul alpha beta false).elements? t [lv, rv] output old.size =
        (integerProduct? d (h ▸ l) (h ▸ r) none (h ▸ old)).map fun data => h ▸ data := by
    intro hrows
    have hzeros : integerProduct? d (h ▸ l) (h ▸ r) none (h ▸ old : Array (IntWord f)) =
        integerProduct? d (h ▸ l) (h ▸ r) none (Array.replicate (h ▸ old : Array (IntWord f)).size .zero) :=
      integerProduct?_eq_zeros hn (by rwa [size_cast]) (by rwa [size_cast])
    rw [hvalue, hzeros, size_cast]
  refine hx.ran ht hlayout rfl (fun hnone => ?_) fun hskip => hrows fun hpos => ?_
  · have hpos := rows_pos_of_integerProduct? (Option.map_eq_none_iff.mp hnone)
    rw [hrows (fun _ => Int.le_of_lt hpos), hnone]
  · have hsize' := (Layout.make_eq_ok hlayout).2
    exact (skipsOutput_matMul hd alpha beta).mp hskip hint (by rw [← hsize']; exact Int.natCast_pos.mpr hpos)

private theorem ran_multiply (hd : ProductDims.ofShapes lv.shape rv.shape = .ok d) (hof : d.Of lv.shape rv.shape output)
    (ht : output.dtype.element? = some t) (hl : lv.flat = .ofElements t l) (hr : rv.flat = .ofElements t r)
    (hmade : Made s gave output out s' (.ofElements t old)) (hlhs : lhsId ≠ out) (hrhs : rhsId ≠ out)
    (alpha beta : Double) :
    Ran s gave output (Causes (.matMul alpha beta false) [lv, rv] output)
      (Right (.matMul alpha beta false) [lv, rv] output)
      (exec (multiply d (lhsId, lv.buffer) (rhsId, rv.buffer) out output false .zero (.ofInt 1) t) s') := by
  obtain ⟨_, hold, hsize, hlayout⟩ := hmade.elements ht
  obtain rfl : old = _ := eq_of_heq (Flat.mk.inj hold).2
  have hdims := hof.badDims_eq_none
  have hsize' : wrap64 (d.batch * (d.m * d.n)) = old.size := by
    rw [← hof.out_eq, ← Shape.size_eq_wrap64, hsize]
  have hvalue : (Operation.matMul alpha beta false).elements? t [lv, rv] output old.size =
      Operation.productElements? .zero (.ofInt 1) d old.size t l r none := by
    simp only [Operation.elements?, Operation.matMulElements?, hd, hl, hr, Flat.as?_ofElements]
    rfl
  -- a product of floating point numbers clears its output first
  have hcleared : ∀ {f : FloatFormat} (l r old : Array (FloatWord f)) (a b : FloatWord f), a.isZero = true →
      (a == .ofInt 1) = false → wrap64 (d.batch * (d.m * d.n)) = old.size →
      floatProduct? d l r a b (Array.replicate old.size .zero) = floatProduct? d l r a b old :=
    fun l r old a b hzero hone hsize =>
      floatProduct?_congr hzero hone hof.m_pos hof.n_pos hof.batch_pos hsize Array.size_replicate
  -- a product of integers writes every element
  have hinteger : t.isFloat = false → output.dtype.isInteger = true := by
    intro hfloat
    rw [DType.isInteger, ht, Option.any_some, hfloat]
    rfl
  cases t with
  | float32 | float64 =>
    refine (multiplied_floatProduct rfl ht hmade hl hr hlhs hrhs hdims _ _).ran_of_eq ht hlayout rfl (hvalue.trans ?_)
    exact (hcleared l r old _ _ (by decide) (by decide) hsize').trans Option.map_id'.symm
  | float16 | bfloat16 =>
    refine (multiplied_halfProduct ht hmade (fun b data h => ?_) hl hr hdims false _ _).ran_of_eq ht hlayout rfl hvalue
    rw [widened, h]
    rfl
  | uint8 | uint32 | int32 | int64 =>
    exact ran_multiply_integer (h := rfl) hd hof.n_pos hsize' ht (hinteger rfl) hlayout
      (multiplied_integerProduct rfl ht hmade hl hr hlhs hrhs none) alpha beta (hvalue.trans Option.map_id'.symm)

section Steps

variable {biasId : Nat} {ids : List Nat} {owned : List Bool} {alpha beta : Double} (hl : s.Live lhsId lv.buffer)
  (hr : s.Live rhsId rv.buffer)

include hl hr

theorem exec_matMul_error {e : ProductDims.Error} (hd : ProductDims.ofShapes lv.shape rv.shape = .error e)
    (hasBias : Bool) :
    exec (matMul alpha beta hasBias (lhsId :: rhsId :: ids) owned output) s =
      (.error (.rejected (productRejection lv.shape rv.shape e)), s) := by
  have hd' : ProductDims.ofShapes lv.buffer.shape rv.buffer.shape = .error e := hd
  rw [matMul, exec_bind_ok (exec_input rfl s), exec_bind_ok (exec_input rfl s), exec_bind_ok (exec_buffer hl.1),
    exec_bind_ok (exec_buffer hr.1), hd']
  rfl

theorem exec_matMul (hd : ProductDims.ofShapes lv.shape rv.shape = .ok d) :
    exec (matMul alpha beta false (lhsId :: rhsId :: ids) owned output) s =
      exec (newBuffer output >>= fun out => elementType output >>=
        multiply d (lhsId, lv.buffer) (rhsId, rv.buffer) out output false .zero (.ofInt 1)) s := by
  have hd' : ProductDims.ofShapes lv.buffer.shape rv.buffer.shape = .ok d := hd
  rw [matMul, exec_bind_ok (exec_input rfl s), exec_bind_ok (exec_input rfl s), exec_bind_ok (exec_buffer hl.1),
    exec_bind_ok (exec_buffer hr.1), hd']
  rfl

theorem exec_matMul_bias (hb : s.Live biasId bias.buffer) (hd : ProductDims.ofShapes lv.shape rv.shape = .ok d)
    (hshape : bias.shape = output) :
    exec (matMul alpha beta true (lhsId :: rhsId :: biasId :: ids) owned output) s =
      exec ((if owned.getD 2 false then pure biasId else clone biasId) >>= fun out => elementType output >>=
        multiply d (lhsId, lv.buffer) (rhsId, rv.buffer) out output true alpha beta) s := by
  have hd' : ProductDims.ofShapes lv.buffer.shape rv.buffer.shape = .ok d := hd
  have hsame : ¬ bias.buffer.shape ≠ output := fun h => h hshape
  rw [matMul, exec_bind_ok (exec_input rfl s), exec_bind_ok (exec_input rfl s), exec_bind_ok (exec_buffer hl.1),
    exec_bind_ok (exec_buffer hr.1), hd', exec_bind_ok (exec_pure d s)]
  simp only [if_true]
  rw [exec_bind_ok (exec_input rfl s), exec_bind_ok (exec_buffer hb.1), if_neg hsame]
  cases owned.getD 2 false <;> rfl

theorem exec_matMul_noBias (hd : ProductDims.ofShapes lv.shape rv.shape = .ok d) :
    exec (matMul alpha beta true [lhsId, rhsId] owned output) s = (.error (.rejected .outOfBounds), s) := by
  have hd' : ProductDims.ofShapes lv.buffer.shape rv.buffer.shape = .ok d := hd
  rw [matMul, exec_bind_ok (exec_input rfl s), exec_bind_ok (exec_input rfl s), exec_bind_ok (exec_buffer hl.1),
    exec_bind_ok (exec_buffer hr.1), hd']
  rfl

theorem exec_matMul_biasShape (hb : s.Live biasId bias.buffer) (hd : ProductDims.ofShapes lv.shape rv.shape = .ok d)
    (hshape : bias.shape ≠ output) :
    exec (matMul alpha beta true (lhsId :: rhsId :: biasId :: ids) owned output) s =
      (.error (.rejected (.biasShape bias.shape output)), s) := by
  have hd' : ProductDims.ofShapes lv.buffer.shape rv.buffer.shape = .ok d := hd
  have hother : bias.buffer.shape ≠ output := hshape
  rw [matMul, exec_bind_ok (exec_input rfl s), exec_bind_ok (exec_input rfl s), exec_bind_ok (exec_buffer hl.1),
    exec_bind_ok (exec_buffer hr.1), hd', exec_bind_ok (exec_pure d s)]
  simp only [if_true]
  rw [exec_bind_ok (exec_input rfl s), exec_bind_ok (exec_buffer hb.1), if_pos hother]
  rfl

end Steps

theorem ran_matMul (hs : s.Sound) (ht : output.dtype.element? = some t) (hlv : lv.shape.Valid) (hrv : rv.shape.Valid)
    (hproduct : productShape lv.shape rv.shape = .ok output) (hin : Holds s [lhsId, rhsId] [lv, rv])
    (alpha beta : Double) (owned : List Bool) :
    Ran s [] output (Causes (.matMul alpha beta false) [lv, rv] output)
      (Right (.matMul alpha beta false) [lv, rv] output)
      (exec (matMul alpha beta false [lhsId, rhsId] owned output) s) := by
  obtain ⟨hdtype, houtput, d, hd, hof⟩ := ProductDims.of_productShape hlv hrv hproduct
  obtain _ | ⟨hlhs, _ | ⟨hrhs, _⟩⟩ := hin
  obtain ⟨l, hl, -⟩ := hlhs.elements hs (by rwa [← houtput])
  obtain ⟨r, hr, -⟩ := hrhs.elements hs (by rwa [← hdtype, ← houtput])
  rw [exec_matMul hlhs hrhs hd]
  refine ran_newBuffer_bind hs (fun _ => causes_layout) fun out s' flat hmade => ?_
  obtain ⟨old, rfl, -⟩ := hmade.elements ht
  -- a new buffer is no operand
  have hout := ran_multiply hd hof ht hl hr hmade (hmade.fresh hlhs) (hmade.fresh hrhs) alpha beta
  rwa [exec_bind_ok (exec_elementType ht s')]

/-- A product that is added to a bias, in the bias itself if it is given away and no operand. -/
theorem ran_matMul_bias {biasId : Nat} (hs : s.Sound) (ht : output.dtype.element? = some t) (hlv : lv.shape.Valid)
    (hrv : rv.shape.Valid) (hproduct : productShape lv.shape rv.shape = .ok output) (hshape : bias.shape = output)
    (hin : Holds s [lhsId, rhsId, biasId] [lv, rv, bias]) (alpha beta : Double) {owned : List Bool}
    (hown : owned.getD 2 false = true → lhsId ≠ biasId ∧ rhsId ≠ biasId) :
    Ran s (given [lhsId, rhsId, biasId] owned) output (Causes (.matMul alpha beta true) [lv, rv, bias] output)
      (Right (.matMul alpha beta true) [lv, rv, bias] output)
      (exec (matMul alpha beta true [lhsId, rhsId, biasId] owned output) s) := by
  obtain ⟨hdtype, houtput, d, hd, hof⟩ := ProductDims.of_productShape hlv hrv hproduct
  obtain _ | ⟨hlhs, _ | ⟨hrhs, _ | ⟨hb, _⟩⟩⟩ := hin
  obtain ⟨l, hl, -⟩ := hlhs.elements hs (by rwa [← houtput])
  obtain ⟨r, hr, -⟩ := hrhs.elements hs (by rwa [← hdtype, ← houtput])
  obtain ⟨old, hold, -⟩ := hb.elements hs (by rwa [hshape])
  have hbuffer : bias.buffer = ⟨output, .ofElements t old, false⟩ := by
    rw [← hold, ← hshape]
    rfl
  -- in whatever buffer the bias is, the product is added to it
  have hmultiply : ∀ (out : Nat) (s' : HostState),
      Made s (given [lhsId, rhsId, biasId] owned) output out s' (.ofElements t old) → lhsId ≠ out → rhsId ≠ out →
      Ran s (given [lhsId, rhsId, biasId] owned) output (Causes (.matMul alpha beta true) [lv, rv, bias] output)
        (Right (.matMul alpha beta true) [lv, rv, bias] output)
        (exec (multiply d (lhsId, lv.buffer) (rhsId, rv.buffer) out output true alpha beta t) s') :=
    fun out s' hmade hl' hr' =>
      ran_multiply_bias hd hof.badDims_eq_none ht hl hr hold hmade hl' hr' alpha beta
  rw [exec_matMul_bias hlhs hrhs hb hd hshape]
  cases howned : owned.getD 2 false with
  | true =>
    obtain ⟨hlne, hrne⟩ := hown howned
    have hmade : Made s (given [lhsId, rhsId, biasId] owned) output biasId s (.ofElements t old) :=
      ⟨hs, Frame.refl s _, hbuffer ▸ hb, .given (mem_given rfl howned) ⟨_, hbuffer ▸ hb⟩ rfl⟩
    have hout := hmultiply biasId s hmade hlne hrne
    simp only [if_true]
    rwa [exec_bind_ok (exec_pure biasId s), exec_bind_ok (exec_elementType ht s)]
  | false =>
    have hclone := ran_clone hs hb
    rcases hr' : exec (clone biasId) s with ⟨result, s'⟩
    rw [hr'] at hclone
    simp only [Bool.false_eq_true, if_false]
    cases hclone with
    | error e _ hsound hframe hkept hcause =>
      rw [exec_bind_error hr']
      rw [hbuffer] at hcause
      exact .error e s' hsound (hframe.mono nofun) hkept (hcause.imp_right causes_layout)
    | ok out _ flat hmade hflat =>
      obtain rfl : flat = .ofElements t old := hflat.trans hold
      have hshape' : bias.buffer.shape = output := hshape
      rw [hshape'] at hmade
      -- a copy is no operand
      have hout := hmultiply out s' (hmade.mono nofun) (hmade.fresh hlhs) (hmade.fresh hrhs)
      rwa [exec_bind_ok hr', exec_bind_ok (exec_elementType ht s')]

end HostM

end LazyTensor
