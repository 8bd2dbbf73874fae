import LazyTensor.Proofs.Host.IntegerProduct

/-!
# Conversions on the host

A cast makes a new buffer with every element converted. To an integer type, an element of a floating point type is
its exact value truncated toward zero and clamped to the type, and an element of an integer type is its value modulo
`2 ^ width`. So a cast to a type that has all values of the other one loses nothing: the cast back makes the elements
again.
-/

namespace LazyTensor

open HostState Kernel

/-! ## Elements -/

def ElementType.exact : (t : ElementType) → t.Elem → ExactValue
  | .uint8, x => .number (IntWord.value x)
  | .uint32, x => .number (IntWord.value x)
  | .int32, x => .number (IntWord.value x)
  | .int64, x => .number (IntWord.value x)
  | .float16, x => (FloatWord.datum x).exact
  | .bfloat16, x => (FloatWord.datum x).exact
  | .float32, x => (FloatWord.datum x).exact
  | .float64, x => (FloatWord.datum x).exact

namespace Kernel

variable {r t : ElementType} {f g : IntFormat}

theorem toIntWord_single (hf : f.Clampable) {x : Single} {v : ExactValue} (h : x.datum.exact = v) :
    ((Scalar.single x).toIntWord : IntWord f) = .ofInt (v.clamped f) := by
  rw [Scalar.toIntWord, Double.toInteger_eq hf, FloatWord.exact_convert single_widens_double, h]

/-- Single precision has the exact values of the types of 16 bits, and double precision those of single precision. -/
theorem toIntWord_toScalar (hf : f.Clampable) (hr : r.isFloat = true) (x : r.Elem) :
    ((r.toScalar x).toIntWord : IntWord f) = .ofInt ((r.exact x).clamped f) := by
  cases r with
  | uint8 => cases hr
  | uint32 => cases hr
  | int32 => cases hr
  | int64 => cases hr
  | float16 => exact toIntWord_single hf (FloatWord.exact_convert half_widens_single x)
  | bfloat16 => exact toIntWord_single hf (BFloat.exact_toSingle x)
  | float32 => exact toIntWord_single hf rfl
  | float64 => exact congrArg IntWord.ofInt (Double.toInteger_eq hf x)

theorem map_castElement_float (hr : r.isFloat = true) (ht : t.IsInteger f) (data : Array r.Elem) :
    data.map (castElement r t) = ht.elements (data.map fun x => .ofInt ((r.exact x).clamped f)) := by
  have hword := fun x => toIntWord_toScalar ht.clampable hr x
  rw [← funext hword]
  cases ht <;> rfl

theorem map_castElement_integer (hr : r.IsInteger g) (ht : t.IsInteger f) (words : Array (IntWord g)) :
    (hr.elements words).map (castElement r t) = ht.elements (words.map IntWord.convert) := by
  cases hr <;> cases ht <;> rfl

end Kernel

namespace HostM

variable {s : HostState} {operand : Nat} {x output : Shape} {r t : ElementType} {f g : IntFormat}

theorem element?_of_eq (h : x.dtype = t.dtype) : x.dtype.element? = some t := by
  rw [h, ElementType.element?_dtype]

theorem makes_cast (hs : s.Sound) {data : Array r.Elem} (hlive : s.Live operand ⟨x, .ofElements r data, false⟩)
    (hr : x.dtype = r.dtype) (ht : output.dtype = t.dtype) (hdims : x.dims = output.dims) (hne : r ≠ t)
    {l : Layout} (hlayout : Layout.make output.dtype output.size = .ok l) (p : Partition) :
    Makes s p output (.ofElements t (data.map (castElement r t))) (exec (cast operand output) (s.dividedBy p)) := by
  have hdtype : ¬ x.dtype = output.dtype := by
    intro h
    have helement := element?_of_eq hr
    rw [h, element?_of_eq ht] at helement
    exact hne (Option.some.inj helement).symm
  -- the operand has as many elements as the output, so reading it in order reads all of it
  obtain ⟨data', hdata, hsize, -⟩ := (hs.buffers operand _ hlive.1).exists_elements (element?_of_eq hr)
  obtain rfl : data = data' := eq_of_heq (Flat.mk.inj hdata).2
  have hsize' : output.size.toNat = data.size := by
    have heq : x.size = output.size := by rw [Shape.size, hdims, Shape.size]
    simp only at hsize
    omega
  have hmakes := makes_tabulate hs hlayout (element?_of_eq ht)
    (fun t i => castElement r t (data.getD i r.zero)) p
  have hmap : (Array.ofFn fun i : Fin output.size.toNat => castElement r t (data.getD i r.zero)) =
      data.map (castElement r t) := by
    apply Array.ext
    · rw [Array.size_ofFn, Array.size_map, hsize']
    · intro i hi hi'
      rw [Array.size_map] at hi'
      rw [Array.getElem_ofFn, Array.getElem_map, Array.getD_eq_getD_getElem?, Array.getElem?_eq_getElem hi',
        Option.getD_some]
  rw [hmap] at hmakes
  rwa [cast, exec_bind_ok (exec_buffer_dividedBy hlive p), if_neg (not_not.mpr hdims), if_neg hdtype]

theorem makes_cast_same (hs : s.Sound) {flat : Flat} (hlive : s.Live operand ⟨x, flat, false⟩) (p : Partition) :
    Makes s p x flat (exec (cast operand x) (s.dividedBy p)) := by
  have hmakes : Makes s p x flat (exec (clone operand >>= pure) (s.dividedBy p)) :=
    makes_clone_bind hs hlive fun out s' hmade => ⟨s', rfl, hmade⟩
  rw [bind_pure] at hmakes
  rwa [cast, exec_bind_ok (exec_buffer_dividedBy hlive p), if_neg (not_not.mpr rfl), if_pos rfl]

theorem makes_cast_integer (hs : s.Sound) (hr : r.IsInteger g) (ht : t.IsInteger f) {words : Array (IntWord g)}
    (hlive : s.Live operand ⟨x, hr.flat words, false⟩) (hx : x.dtype = r.dtype) (houtput : output.dtype = t.dtype)
    (hdims : x.dims = output.dims) {l : Layout} (hlayout : Layout.make output.dtype output.size = .ok l)
    (p : Partition) :
    Makes s p output (ht.flat (words.map IntWord.convert)) (exec (cast operand output) (s.dividedBy p)) := by
  by_cases heq : r = t
  · subst heq
    obtain rfl := hr.format_unique ht
    obtain rfl : x = output := by
      cases x
      cases output
      simp_all
    have hconvert : (IntWord.convert : IntWord g → IntWord g) = id := funext IntWord.convert_self
    rw [hconvert, Array.map_id]
    exact makes_cast_same hs hlive p
  · have hmakes := makes_cast hs hlive hx houtput hdims heq hlayout p
    rwa [map_castElement_integer hr ht] at hmakes

/-- Whatever host was configured and whatever was called before, conversion to an integer type is exact. A double becomes
its exact value truncated toward zero and clamped to the type, and zero if it is a NaN. A parameter of a kernel of 32
bits has the bits of the same integer. A cast of a live buffer of any floating point type makes one in which this was
done to the exact value of every element, if there is room for it. A cast of integers makes the values modulo
`2 ^ width`, and if the type has all values of the other one, then the cast back makes the elements again. -/
theorem conversions_exact (configuration : String) (host : Host) (hhost : Host.ofConfiguration configuration = .ok host)
    (calls : List HostCall) (t : ElementType) (f : IntFormat) (ht : t.IsInteger f) :
    let s := run ⟨host, {}⟩ calls
    (∀ v : Double, (Scalar.toIntWord (.double v) : IntWord f).value = clamped f v) ∧
    (f.width = 32 → ∀ v : Double, ((Shader.scalarBits t.dtype v).toNat : Int) ≡ clamped f v [ZMOD 2 ^ 32]) ∧
    ∀ (operand : Nat) (x output : Shape), output.dtype = t.dtype → output.dims = x.dims →
      (Layout.make output.dtype output.size).isOk →
      (∀ (r : ElementType) (data : Array r.Elem), r.isFloat = true → x.dtype = r.dtype →
        s.Live operand ⟨x, .ofElements r data, false⟩ →
        ∃ out : Array (IntWord f), out.size = data.size ∧
          (∀ (i : Nat) (a : r.Elem), data[i]? = some a →
            ∃ b : IntWord f, out[i]? = some b ∧ b.value = (r.exact a).clamped f) ∧
          ∀ p, Makes s p output (ht.flat out) (exec (cast operand output) (s.dividedBy p))) ∧
      ∀ (r : ElementType) (g : IntFormat) (hr : r.IsInteger g) (words : Array (IntWord g)), x.dtype = r.dtype →
        s.Live operand ⟨x, hr.flat words, false⟩ →
        ∃ out : Array (IntWord f), out.size = words.size ∧
          (∀ (i : Nat) (a : IntWord g), words[i]? = some a →
            ∃ b : IntWord f, out[i]? = some b ∧ b.value ≡ a.value [ZMOD 2 ^ f.width] ∧
              f.least ≤ b.value ∧ b.value ≤ f.greatest) ∧
          (∀ p, Makes s p output (ht.flat out) (exec (cast operand output) (s.dividedBy p))) ∧
          (f.least ≤ g.least → g.greatest ≤ f.greatest →
            ∀ (mid : Nat) (s' : HostState), Made s [] output mid s' (ht.flat out) → ∀ p,
              Makes s' p x (hr.flat words) (exec (cast mid x) (s'.dividedBy p))) := by
  intro s
  have hs : s.Sound := (intact_run calls ⟨sound_configured hhost, rfl⟩).sound
  have hwidth := ht.clampable.width_pos
  refine ⟨value_toIntWord ht.clampable, ?_, fun operand x output houtput hdims hlayout => ⟨?_, ?_⟩⟩
  · intro hbits v
    cases ht with
    | uint8 => cases hbits
    | uint32 =>
      rw [ElementType.dtype, Shader.scalarBits_uint32]
      exact Shader.word_modEq _
    | int32 =>
      rw [ElementType.dtype, Shader.scalarBits_int32]
      exact Shader.word_modEq _
    | int64 => cases hbits
  · intro r data hr hx hlive
    rw [isOk_eq, Option.isSome_iff_exists] at hlayout
    obtain ⟨layout, hlayout⟩ := hlayout
    refine ⟨data.map fun x => .ofInt ((r.exact x).clamped f), Array.size_map, ?_, fun p => ?_⟩
    · intro i a ha
      have hmem := (r.exact a).clamped_mem f
      refine ⟨_, by rw [Array.getElem?_map, ha, Option.map_some], ?_⟩
      exact IntWord.value_ofInt_of_mem hwidth hmem.1 hmem.2
    · have hne : r ≠ t := by
        rintro rfl
        cases ht <;> cases hr
      have hmakes := makes_cast hs hlive hx houtput hdims.symm hne (eq_ok_of_toOption hlayout) p
      rw [map_castElement_float hr ht] at hmakes
      exact hmakes
  · intro r g hr words hx hlive
    rw [isOk_eq, Option.isSome_iff_exists] at hlayout
    obtain ⟨layout, hlayout⟩ := hlayout
    refine ⟨words.map IntWord.convert, Array.size_map, ?_, fun p => ?_, fun hleast hgreatest mid s' hmade p => ?_⟩
    · intro i a ha
      exact ⟨a.convert, by rw [Array.getElem?_map, ha, Option.map_some], IntWord.value_ofInt a.value,
        IntWord.value_mem hwidth _⟩
    · exact makes_cast_integer hs hr ht hlive hx houtput hdims.symm (eq_ok_of_toOption hlayout) p
    · -- the operand has a layout already, so there is room for its elements on the way back
      obtain ⟨_, -, -, hlayout'⟩ := (hs.buffers operand _ hlive.1).exists_elements (element?_of_eq hx)
      have hmakes := makes_cast_integer hmade.sound ht hr hmade.live houtput hx hdims hlayout' p
      have hback : (IntWord.convert ∘ (IntWord.convert : IntWord g → IntWord f)) = id :=
        funext (IntWord.convert_convert hr.clampable.width_pos hwidth hleast hgreatest)
      rw [Array.map_map, hback, Array.map_id] at hmakes
      exact hmakes

/-- Doubles beyond both ends of 32 bits, and bytes that come back. -/
theorem conversions_exact_int32 :
    let doubles : Shape := ⟨.float64, [4]⟩
    let bytes : Shape := ⟨.uint8, [3]⟩
    let calls : List HostCall := [.execute (.arange (.ofInt (-3000000000)) (.ofInt 2000000001)) [] [] doubles,
      .execute (.arange (.ofInt 250) (.ofInt 2)) [] [] bytes]
    let ht := ElementType.IsInteger.int32
    let hr := ElementType.IsInteger.uint8
    ∃ host, Host.ofConfiguration "" = .ok host ∧
      let s := run ⟨host, {}⟩ calls
      (∃ (data : Array Double) (out : Array (IntWord .int32)), s.Live 0 ⟨doubles, .ofElements .float64 data, false⟩ ∧
        (∀ (i : Nat) (a : Double), data[i]? = some a →
          ∃ b : IntWord .int32, out[i]? = some b ∧ b.value = a.datum.exact.clamped .int32) ∧
        ∀ p, Makes s p ⟨.int32, [4]⟩ (ht.flat out) (exec (cast 0 ⟨.int32, [4]⟩) (s.dividedBy p))) ∧
      ∃ (words : Array (IntWord .uint8)) (out : Array (IntWord .int32)), s.Live 1 ⟨bytes, hr.flat words, false⟩ ∧
        (∀ p, Makes s p ⟨.int32, [3]⟩ (ht.flat out) (exec (cast 1 ⟨.int32, [3]⟩) (s.dividedBy p))) ∧
        ∀ (mid : Nat) (s' : HostState), Made s [] ⟨.int32, [3]⟩ mid s' (ht.flat out) → ∀ p,
          Makes s' p bytes (hr.flat words) (exec (cast mid bytes) (s'.dividedBy p)) := by
  intro doubles bytes calls ht hr
  let host := Host.plain
  have hhost := Host.ofConfiguration_empty
  have hs : (run ⟨host, {}⟩ calls).Sound := (intact_run calls ⟨sound_configured hhost, rfl⟩).sound
  let b0 := ((run ⟨host, {}⟩ calls).heap.get? 0).get (by decide +kernel)
  let b1 := ((run ⟨host, {}⟩ calls).heap.get? 1).get (by decide +kernel)
  have hlive0 : (run ⟨host, {}⟩ calls).Live 0 b0 := ⟨(Option.some_get _).symm, by decide +kernel⟩
  have hlive1 : (run ⟨host, {}⟩ calls).Live 1 b1 := ⟨(Option.some_get _).symm, by decide +kernel⟩
  have hdoubles : b0.shape = doubles := by decide +kernel
  have hbytes : b1.shape = bytes := by decide +kernel
  obtain ⟨data, hdata⟩ := exists_live_elements (t := .float64) hs hlive0 (by rw [hdoubles]; rfl)
  obtain ⟨words, hwords⟩ := exists_words hr hs hlive1 (by rw [hbytes]; rfl)
  rw [hdoubles] at hdata
  rw [hbytes] at hwords
  obtain ⟨-, -, hcasts⟩ := conversions_exact "" host hhost calls .int32 .int32 ht
  obtain ⟨out, -, hout, hmakes⟩ :=
    (hcasts 0 doubles ⟨.int32, [4]⟩ rfl rfl (by decide +kernel)).1 .float64 data rfl rfl hdata
  obtain ⟨out', -, -, hmakes', hback⟩ :=
    (hcasts 1 bytes ⟨.int32, [3]⟩ rfl rfl (by decide +kernel)).2 .uint8 .uint8 hr words rfl hwords
  exact ⟨host, hhost, ⟨data, out, hdata, hout, hmakes⟩, words, out', hwords, hmakes',
    hback (by decide +kernel) (by decide +kernel)⟩

end HostM

end LazyTensor
