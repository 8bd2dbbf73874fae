import LazyTensor.Proofs.Host.Cast
import LazyTensor.Proofs.Shader.Grid

/-!
# Ranges of integers

A range of whole numbers is computed in double precision on the host, and in words on the device. On the host it is exact
as long as its values are integers of the type. On the device the start is exact, but the step is a parameter of its own:
without sign it wraps around and so counts right, with sign it is clamped to the type. So the two agree, except for
ranges with sign whose step is no integer of the type: there the device writes another value from the second element on.
-/

namespace LazyTensor.Shader

open HostState

/-! ## The host -/

variable {i : Nat}

section Host

variable {start step : Double} {a b : Int}

theorem exact_arangeValue (hstart : start.datum.exact = .number a) (hstep : step.datum.exact = .number b)
    (hi : i < 2 ^ 63) (hmul : b = 0 ∨ i < 2 ^ 53) (hdifference : (i * b).natAbs < 2 ^ 53)
    (hsum : (a + i * b).natAbs < 2 ^ 53) :
    (Kernel.arangeValue start step i).datum.exact = .number ((a + i * b : Int) : ℚ) := by
  have hproduct : ((FloatWord.ofInt i : Double).mul step).datum.exact = .number ((i * b : Int) : ℚ) := by
    -- an index of more bits is rounded, which does not matter if the step is zero
    rcases hmul with rfl | hi'
    · obtain ⟨q, hq⟩ := FloatWord.exists_exact_ofInt (n := i) hi
      have hzero := FloatWord.exact_mul hq hstep (by
        rw [Int.cast_zero, mul_zero]
        exact_mod_cast FloatFormat.double_represents (n := 0) (by decide))
      rw [Int.cast_zero, mul_zero] at hzero
      rw [hzero, Int.mul_zero, Int.cast_zero]
    · have hindex := FloatWord.exact_ofInt (FloatFormat.double_represents (n := i) hi')
      have hrepresents := FloatFormat.double_represents hdifference
      rw [Int.cast_mul] at hrepresents ⊢
      exact FloatWord.exact_mul hindex hstep hrepresents
  have hrepresents := FloatFormat.double_represents hsum
  rw [Int.cast_add] at hrepresents ⊢
  exact FloatWord.exact_add hstart hproduct hrepresents

end Host

/-- The values of a range are integers of the type. -/
def RangeFits (f : IntFormat) (a b : Int) (n : Nat) : Prop :=
  ∀ i : Nat, i < n → f.least ≤ a + i * b ∧ a + i * b ≤ f.greatest

/-- The type of elements of 32 bits, with or without sign. -/
def wordElement (signed : Bool) : ElementType := if signed then .int32 else .uint32

theorem isInteger_wordElement (signed : Bool) : (wordElement signed).IsInteger ⟨32, signed⟩ := by
  cases signed
  · exact .uint32
  · exact .int32

section

variable {signed : Bool} {start step : Double} {a b : Int} {n : Nat}

/-- All values lie less than `2 ^ 32` from the start, so there are at most `2 ^ 32` of them unless they are equal. -/
theorem RangeFits.bounds (h : RangeFits ⟨32, signed⟩ a b n) (hi : i < n) :
    (i * b).natAbs < 2 ^ 32 ∧ (a + i * b).natAbs < 2 ^ 32 ∧ (b = 0 ∨ i < 2 ^ 32) := by
  have hfirst := h 0 (by omega)
  have hvalue := h i hi
  rw [IntFormat.least_word, IntFormat.greatest_word] at hfirst hvalue
  have hdifference : (i * b).natAbs < 2 ^ 32 := by
    cases signed <;> simp only [Bool.false_eq_true, if_true, if_false] at hfirst hvalue <;> omega
  refine ⟨hdifference, ?_, ?_⟩
  · cases signed <;> simp only [Bool.false_eq_true] at hfirst hvalue <;> omega
  · by_cases hb : b = 0
    · exact .inl hb
    · refine .inr (Nat.lt_of_le_of_lt ?_ hdifference)
      rw [Int.natAbs_mul]
      exact Nat.le_mul_of_pos_right i (Int.natAbs_pos.mpr hb)

theorem toIntWord_arangeValue (hstart : start.datum.exact = .number a) (hstep : step.datum.exact = .number b)
    (h : RangeFits ⟨32, signed⟩ a b n) (hn : n < 2 ^ 63) (hi : i < n) :
    (Scalar.toIntWord (.double (Kernel.arangeValue start step i)) : IntWord ⟨32, signed⟩) = .ofInt (a + i * b) := by
  obtain ⟨hdifference, hsum, hcount⟩ := h.bounds hi
  have hexact := exact_arangeValue hstart hstep (i := i) (by omega) (hcount.imp_right fun h => by omega) (by omega)
    (by omega)
  rw [Scalar.toIntWord, Double.toInteger_eq (IntFormat.clampable_word signed), hexact,
    ExactValue.clamped_of_mem (h i hi).1 (h i hi).2]

theorem makes_arange {s : HostState} (hs : s.Sound) (hstart : start.datum.exact = .number a)
    (hstep : step.datum.exact = .number b) (h : RangeFits ⟨32, signed⟩ a b n) {output : Shape}
    (hdtype : output.dtype = wordDType signed) (hsize : output.size = n) {l : Layout}
    (hlayout : Layout.make output.dtype output.size = .ok l) (p : Partition) :
    HostM.Makes s p output ((isInteger_wordElement signed).flat (Array.ofFn fun i : Fin n => .ofInt (a + (i : Nat) * b)))
      (exec (HostM.arange start step output) (s.dividedBy p)) := by
  have htype : output.dtype.element? = some (wordElement signed) := by
    rw [hdtype]
    cases signed <;> rfl
  have hn : n < 2 ^ 63 := by
    have hlt := wrap64_lt_wordLimit output.dims.prod
    rw [← Shape.size_eq_wrap64, wordLimit] at hlt
    omega
  have hcount : output.size.toNat = n := by omega
  have hmakes := HostM.makes_tabulate hs hlayout htype
    (fun t i => Kernel.ofDouble t (Kernel.arangeValue start step i)) p
  have hwords : (fun i : Fin n => (Scalar.toIntWord (.double (Kernel.arangeValue start step i)) : IntWord ⟨32, signed⟩)) =
      fun i : Fin n => .ofInt (a + (i : Nat) * b) :=
    funext fun i => toIntWord_arangeValue hstart hstep h hn i.isLt
  rw [hcount] at hmakes
  rw [← hwords]
  cases signed <;> exact hmakes

end

/-! ## The device -/

section

variable {signed : Bool}

theorem scalarBits_word (signed : Bool) (x : Double) :
    scalarBits (wordDType signed) x = word (clamped ⟨32, signed⟩ x) := by
  cases signed
  · exact scalarBits_uint32 x
  · exact scalarBits_int32 x

/-- The step that an invocation adds. -/
def deviceStep (signed : Bool) (step : Double) : Int :=
  if signed then clamped ⟨32, true⟩ step else step.datum.truncOrLeast 64

theorem stepBits_word (signed : Bool) (step : Double) :
    stepBits (wordDType signed) step = word (deviceStep signed step) := by
  cases signed
  · rfl
  · exact scalarBits_int32 step

theorem ofParam?_word (signed : Bool) (n : Int) :
    Word.ofParam? (wordType signed) (word n) = some (.ofElement (.ofInt n : IntWord ⟨32, signed⟩)) := by
  rw [word_eq_ofBitVec]
  cases signed <;> rfl

theorem convert?_word (signed : Bool) (n : Int) :
    Word.convert? (wordType signed) (.u32 (word n)) = some (.ofElement (.ofInt n : IntWord ⟨32, signed⟩)) := by
  rw [word_eq_ofBitVec]
  cases signed <;> rfl

theorem names_params (slot : Int) (signed : Bool) (size stride : UInt32) (a b : Int) :
    (params slot (wordType signed)).names (encode [size, stride, word a, word b]) =
      [("params.n", .u32 size), ("params.stride", .u32 stride),
        ("params.a", .ofElement (.ofInt a : IntWord ⟨32, signed⟩)),
        ("params.b", .ofElement (.ofInt b : IntWord ⟨32, signed⟩))] := by
  rw [Uniform.names, decode_encode]
  simp only [params, List.zip_cons_cons, List.filterMap_cons, ofParam?_word]
  rfl

/-- The kernel of a range that is computed in integers. -/
def arangeResult (signed : Bool) : Expr :=
  .convert (wordType signed)
    (.binary .add (.param "a") (.binary .mul (.convert (wordType signed) idx) (.param "b")))

theorem exists_arangeKernel (signed : Bool) (w : Int) :
    ∃ k, arangeKernel (wordDType signed) true w = .ok k ∧ k.storage = [⟨0, true, "out", wordType signed⟩] ∧
      k.params = params 1 (wordType signed) ∧ k.body = [storeOut (arangeResult signed)] := by
  cases signed <;> exact ⟨_, rfl, rfl, rfl, rfl⟩

theorem readStmts_arange {k : Kernel} (hbody : k.body = [storeOut (arangeResult signed)]) :
    readStmts k.bodyText = some k.body := by
  apply readStmts_text
  rw [hbody]
  cases signed <;> simp [arangeResult, storeOut, Stmt.Readable, Expr.Readable, idx] <;> decide

theorem invokeWith?_arange {k : Kernel} (hstorage : k.storage = [⟨0, true, "out", wordType signed⟩])
    (hparams : k.params = params 1 (wordType signed)) (hbody : k.body = [storeOut (arangeResult signed)])
    (size stride : UInt32) (a b i : Int) {memory : Memory} (hout : (word i).toNat < (memory 0).size) :
    k.invokeWith? (encode [size, stride, word a, word b]) memory (word i) =
      some (memory.set 0 (word i).toNat (.ofElement (.ofInt (a + i * b) : IntWord ⟨32, signed⟩))) := by
  let names : Names := k.names (encode [size, stride, word a, word b]) (word i)
  have hnames : names = ("idx", .u32 (word i)) :: [("params.n", .u32 size), ("params.stride", .u32 stride),
      ("params.a", .ofElement (.ofInt a : IntWord ⟨32, signed⟩)),
      ("params.b", .ofElement (.ofInt b : IntWord ⟨32, signed⟩))] := by
    rw [← names_params 1, ← hparams]
    rfl
  -- the parts of the expression have the values of elements of the type, and so has the whole
  have ha : (Expr.param "a").eval? k.storage memory names = some (.ofElement (.ofInt a : IntWord ⟨32, signed⟩)) := by
    rw [hnames]
    rfl
  have hb : (Expr.param "b").eval? k.storage memory names = some (.ofElement (.ofInt b : IntWord ⟨32, signed⟩)) := by
    rw [hnames]
    rfl
  have hidx : idx.eval? k.storage memory names = some (.u32 (word i)) := by
    rfl
  have hconvert : (Expr.convert (wordType signed) idx).eval? k.storage memory names =
      some (.ofElement (.ofInt i : IntWord ⟨32, signed⟩)) := by
    show (idx.eval? k.storage memory names).bind (Word.convert? (wordType signed)) = _
    exact convert?_word signed i
  have hsum := eval?_binary ha (eval?_binary hconvert hb (mul_ofElement _ _)) (add_ofElement _ _)
  have hresult : (arangeResult signed).eval? k.storage memory names =
      some (.ofElement (.ofInt (a + i * b) : IntWord ⟨32, signed⟩)) := by
    rw [IntWord.ofInt_add_mul] at hsum
    show (Expr.eval? k.storage memory names (.binary .add (.param "a") _)).bind (Word.convert? (wordType signed)) = _
    rw [hsum]
    exact convert?_ofElement _
  have hstore : Scope.store? k.storage ⟨memory, names, []⟩ "out" idx (arangeResult signed) =
      some ⟨memory.set 0 (word i).toNat (.ofElement (.ofInt (a + i * b) : IntWord ⟨32, signed⟩)), names, []⟩ :=
    Scope.store?_eq (b := ⟨0, true, "out", wordType signed⟩) (by rw [hstorage]; rfl) hidx hresult rfl
      (type_ofElement _).symm hout
  rw [Kernel.invokeWith?, readStmts_arange hbody, Option.bind_some, hbody, run?, List.foldlM_cons, storeOut, Stmt.run?,
    hstore]
  rfl

/-- The clamped step counts like the step itself, modulo `2 ^ 32`, exactly if it is an integer of the type or not
needed. -/
theorem deviceStep_modEq_iff {step : Double} {a b : Int} {n : Nat} (hstep : step.datum.exact = .number b)
    (h : RangeFits ⟨32, signed⟩ a b n) (hi : i < n) :
    a + i * deviceStep signed step ≡ a + i * b [ZMOD 2 ^ 32] ↔
      signed = false ∨ i = 0 ∨ -2 ^ 31 ≤ b ∧ b < 2 ^ 31 := by
  obtain ⟨hdifference, -, -⟩ := h.bounds hi
  by_cases hzero : i = 0
  · subst hzero
    simp
  have hb : b.natAbs ≤ (i * b).natAbs := by
    rw [Int.natAbs_mul]
    exact Nat.le_mul_of_pos_left _ (Nat.pos_of_ne_zero hzero)
  cases signed with
  | false =>
    have hdevice : deviceStep false step = b := by
      have htruncated := truncated_intCast b
      rw [deviceStep, if_neg Bool.false_ne_true,
        Datum.truncOrLeast_eq hstep (by rw [htruncated]; omega) (by rw [htruncated]; omega), htruncated]
    rw [hdevice]
    exact iff_of_true rfl (.inl rfl)
  | true =>
    have hdevice : deviceStep true step = max (-2147483648) (min 2147483647 b) := by
      rw [deviceStep, clamped_eq, hstep, ExactValue.clamped, truncated_intCast]
      rfl
    rw [hdevice]
    by_cases hfits : -2 ^ 31 ≤ b ∧ b < 2 ^ 31
    · have hself : max (-2147483648) (min 2147483647 b) = b := by omega
      rw [hself]
      exact iff_of_true rfl (.inr (.inr hfits))
    · -- only the second element lies so far from the first one
      have hone : i = 1 := by
        rw [Int.natAbs_mul, Int.natAbs_natCast] at hdifference
        have htwo : ¬ 2 ≤ i := by
          intro hle
          have hmul : 2 * 2 ^ 31 ≤ i * b.natAbs := Nat.mul_le_mul hle (by omega)
          omega
        omega
      subst hone
      refine iff_of_false ?_ ?_
      · rw [Int.modEq_iff_dvd]
        omega
      · rintro (h | h | h)
        · cases h
        · exact hzero h
        · exact hfits h

end

theorem isIntegral_of_exact {start step : Double} {a b : Int} (hstart : start.datum.exact = .number a)
    (hstep : step.datum.exact = .number b) (signed : Bool) : isIntegral start step (wordDType signed) = true := by
  rw [isIntegral, Datum.isWhole_of_exact hstart, Datum.isWhole_of_exact hstep]
  cases signed <;> rfl

/-- A range of whole numbers, all values of which are integers of the type, on the host and on the device. The host makes
a buffer with the exact values, if there is room for it, whatever host was configured and whatever was called before. An
invocation of the kernel, launched with its parameters, writes the same element exactly if the type has no sign, or it is
the first element, or the step is an integer of the type. -/
theorem arange_agrees_iff (signed : Bool) (start step : Double) (a b : Int) (hstart : start.datum.exact = .number a)
    (hstep : step.datum.exact = .number b) (output : Shape) (hdtype : output.dtype = wordDType signed) (n : Nat)
    (hsize : output.size = n) (hfits : RangeFits ⟨32, signed⟩ a b n) (w : Int) (hw : w ≠ 0) :
    ∃ k block, kernel (.arange start step) [] output w = .ok k ∧
      launchParams (.arange start step) [] output w = .ok block ∧
      k.text = String.join (k.storage.map Storage.text) ++ k.params.text ++ k.entry ++ k.bodyText ++ "\x7d\n" ∧
      ∃ out : Array (IntWord ⟨32, signed⟩), out.size = n ∧
        (∀ (configuration : String) (host : Host), Host.ofConfiguration configuration = .ok host →
          (Layout.make output.dtype output.size).isOk → ∀ (calls : List HostCall) (p : Partition),
            let s := run ⟨host, {}⟩ calls
            HostM.Makes s p output ((isInteger_wordElement signed).flat out)
              (exec (HostM.arange start step output) (s.dividedBy p))) ∧
        ∀ i : Nat, i < n → ∃ x y : IntWord ⟨32, signed⟩, out[i]? = some x ∧ x.value = a + i * b ∧
          (∀ memory : Memory, (word i).toNat < (memory 0).size →
            k.invokeWith? block memory (word i) = some (memory.set 0 (word i).toNat (.ofElement y))) ∧
          (y = x ↔ signed = false ∨ i = 0 ∨ -2 ^ 31 ≤ b ∧ b < 2 ^ 31) := by
  obtain ⟨k, hk, hstorage, hparams, hbody⟩ := exists_arangeKernel signed w
  have hintegral := isIntegral_of_exact hstart hstep signed
  rw [← hdtype] at hintegral
  have hkernel : kernel (.arange start step) [] output w = .ok k := by
    rw [kernel, hintegral, hdtype]
    exact hk
  obtain ⟨g, hgrid⟩ := exists_grid output.size hw
  have hwords : launchWords (.arange start step) [] output w = .ok [word output.size, g.stride,
      word (clamped ⟨32, signed⟩ start), word (deviceStep signed step)] := by
    rw [launchWords, hgrid]
    simp only [hintegral, if_true]
    rw [hdtype, scalarBits_word, stepBits_word]
  refine ⟨k, _, hkernel, by rw [launchParams, hwords]; rfl, rfl, Array.ofFn fun i : Fin n => .ofInt (a + (i : Nat) * b),
    Array.size_ofFn, ?_, ?_⟩
  · intro configuration host hhost hlayout calls p
    rw [isOk_eq, Option.isSome_iff_exists] at hlayout
    obtain ⟨layout, hlayout⟩ := hlayout
    have hs := (intact_run calls ⟨sound_configured hhost, rfl⟩).sound
    exact makes_arange hs hstart hstep hfits hdtype hsize (eq_ok_of_toOption hlayout) p
  · intro i hi
    have hfirst := hfits 0 (by omega)
    have hvalue := hfits i hi
    rw [Int.natCast_zero, Int.zero_mul, Int.add_zero] at hfirst
    -- the first element fits, so the start is not clamped, but the step may be
    have hclamped : clamped ⟨32, signed⟩ start = a := by
      rw [clamped_eq, hstart, ExactValue.clamped_of_mem hfirst.1 hfirst.2]
    rw [hclamped]
    refine ⟨.ofInt (a + i * b), .ofInt (a + i * deviceStep signed step), ?_, ?_, fun memory hmemory => ?_, ?_⟩
    · rw [Array.getElem?_ofFn, dif_pos hi]
    · exact IntWord.value_ofInt_of_mem (Nat.succ_pos 31) hvalue.1 hvalue.2
    · exact invokeWith?_arange hstorage hparams hbody _ _ a _ i hmemory
    · rw [IntWord.ofInt_eq_iff]
      exact deviceStep_modEq_iff hstep hfits hi

/-- From the greatest word without sign down to zero: the step wraps around, and the device counts like the host. -/
theorem arange_agrees_down :
    let start : Double := .ofInt 4294967295
    let step : Double := .ofInt (-1431655765)
    let output : Shape := ⟨.uint32, [4]⟩
    ∃ k block, kernel (.arange start step) [] output 64 = .ok k ∧
      launchParams (.arange start step) [] output 64 = .ok block ∧
      ∃ out : Array (IntWord ⟨32, false⟩),
        (∃ host, Host.ofConfiguration "" = .ok host ∧ ∀ p,
          HostM.Makes ⟨host, {}⟩ p output (ElementType.IsInteger.uint32.flat out)
            (exec (HostM.arange start step output) (HostState.dividedBy ⟨host, {}⟩ p))) ∧
        ∀ i : Nat, i < 4 → ∃ x : IntWord ⟨32, false⟩, out[i]? = some x ∧ x.value = 4294967295 + i * -1431655765 ∧
          ∀ memory : Memory, (word i).toNat < (memory 0).size →
            k.invokeWith? block memory (word i) = some (memory.set 0 (word i).toNat (.ofElement x)) := by
  intro start step output
  have hstart : start.datum.exact = .number ((4294967295 : Int) : ℚ) :=
    FloatWord.exact_ofInt (FloatFormat.double_represents (by decide))
  have hstep : step.datum.exact = .number ((-1431655765 : Int) : ℚ) :=
    FloatWord.exact_ofInt (FloatFormat.double_represents (by decide))
  obtain ⟨k, block, hk, hblock, -, out, -, hhost, helements⟩ := arange_agrees_iff false start step 4294967295
    (-1431655765) hstart hstep output rfl 4 (by decide) (by unfold RangeFits; decide) 64 (by decide)
  let host := Host.plain
  have hconfigured := Host.ofConfiguration_empty
  refine ⟨k, block, hk, hblock, out, ⟨host, hconfigured, hhost "" host hconfigured (by decide +kernel) []⟩,
    fun i hi => ?_⟩
  obtain ⟨x, y, hx, hvalue, hinvoke, hagree⟩ := helements i hi
  obtain rfl := hagree.mpr (.inl rfl)
  exact ⟨y, hx, hvalue, hinvoke⟩

/-- A step of `3000000000` from the least integer on leads to an integer of the type, which is what the host writes. The
device adds the greatest integer instead. -/
theorem arange_clamped_step :
    let start : Double := .ofInt (-2147483648)
    let step : Double := .ofInt 3000000000
    let output : Shape := ⟨.int32, [2]⟩
    RangeFits .int32 (-2147483648) 3000000000 2 ∧
      (Scalar.toIntWord (.double (Kernel.arangeValue start step 1)) : IntWord .int32).value = 852516352 ∧
      ∃ k block, kernel (.arange start step) [] output 64 = .ok k ∧
        launchParams (.arange start step) [] output 64 = .ok block ∧
        (k.invokeWith? block (fun _ => #[.i32 0, .i32 0]) 1).map (· 0) = some #[.i32 0, .i32 (-1)] := by
  intro start step output
  let k := (kernel (.arange start step) [] output 64).toOption.get (by decide +kernel)
  let block := (launchParams (.arange start step) [] output 64).toOption.get (by decide +kernel)
  exact ⟨by unfold RangeFits; decide, by decide +kernel, k, block, eq_ok_of_toOption (Option.some_get _).symm,
    eq_ok_of_toOption (Option.some_get _).symm, by decide +kernel⟩

end LazyTensor.Shader
