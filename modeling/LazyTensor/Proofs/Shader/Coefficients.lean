import LazyTensor.Proofs.Host.IntegerProduct
import LazyTensor.Proofs.Shader.Grid
import LazyTensor.Proofs.Shader.MatMul

/-!
# Coefficients of integer products

A product with a bias has two coefficients. The host converts them from double precision to the integers of the elements.
The device gets them in single precision and converts them there, so they are rounded to the nearest number of single
precision first. Both conversions drop the fraction and clamp to the type. So the two are the same exactly if rounding
leads past no integer of the type; a whole number below the greatest one is the same exactly if single precision has it.
-/

namespace LazyTensor

open Kernel

namespace Shader

/-! ## Parameters in single precision -/

/-- The parameters of a block in single precision. -/
def Uniform.singles (u : Uniform) (block : List UInt8) : List (String × Single) :=
  (u.fields.zip (decode block)).filterMap fun (field, w) =>
    if field.2 = .f32 then some (field.1, ⟨.ofNat _ w.toNat⟩) else none

theorem ofNat_singleBits (x : Double) : (⟨.ofNat _ (singleBits x).toNat⟩ : Single) = x.convert := by
  have hlt : (x.convert : Single).bits.toNat < 2 ^ 32 := (x.convert : Single).bits.isLt
  rw [singleBits, UInt32.toNat_ofNat_of_lt' hlt, BitVec.ofNat_toNat, BitVec.setWidth_eq]

theorem singles_matMulParams (slot : Int) (d : MatMulSizes) (stride : UInt32) (alpha beta : Double) :
    (matMulParams slot).singles (encode (d.params stride alpha beta)) =
      [("alpha", alpha.convert), ("beta", beta.convert)] := by
  rw [Uniform.singles, decode_encode, ← ofNat_singleBits alpha, ← ofNat_singleBits beta]
  rfl

def ScalarType.integers? : ScalarType → Option IntFormat
  | .i32 => some .int32
  | .u32 => some .uint32
  | _ => none

section

variable (singles : List (String × Single))

/-- An expression of one launch. A parameter in single precision that is converted to an integer is a constant of the
launch: its fraction is dropped, and it is clamped to the type. -/
def Expr.launched : Expr → Expr
  | .convert type (.param field) =>
    match type.integers?, singles.lookup field with
    | some f, some x => .convert type (.int (x.datum.exact.clamped f))
    | _, _ => .convert type (.param field)
  | .convert type e => .convert type e.launched
  | .element buffer index => .element buffer index.launched
  | .neg e => .neg e.launched
  | .apply f e => .apply f e.launched
  | .apply₂ f a b => .apply₂ f a.launched b.launched
  | .fma a b c => .fma a.launched b.launched c.launched
  | .binary op a b => .binary op a.launched b.launched
  | .paren e => .paren e.launched
  | e => e

def Stmt.launched : Stmt → Stmt
  | .bind name value => .bind name (value.launched singles)
  | .declare name type value => .declare name type (value.launched singles)
  | .assign name value => .assign name (value.launched singles)
  | .store buffer index value => .store buffer (index.launched singles) (value.launched singles)
  | .loop counter bound body => .loop counter (bound.launched singles) body.launched

end

/-- The memory after an invocation of the kernel that was launched with a block of parameters, of which some may be in
single precision. -/
def Kernel.launch? (k : Kernel) (block : List UInt8) (memory : Memory) (idx : UInt32) : Option Memory :=
  (readStmts k.bodyText).bind fun body =>
    run? k.storage memory (k.names block idx) (body.map (Stmt.launched (k.params.singles block)))

/-! ## The device -/

/-- The coefficient that the device computes with. -/
def deviceCoefficient (signed : Bool) (x : Double) : IntWord ⟨32, signed⟩ :=
  .ofInt ((x.convert : Single).datum.exact.clamped ⟨32, signed⟩)

/-- A coefficient as a literal. -/
def coefficientExpr (signed : Bool) (x : Double) : Expr :=
  .convert (wordType signed) (.int ((x.convert : Single).datum.exact.clamped ⟨32, signed⟩))

theorem eval?_coefficient (signed : Bool) (x : Double) (storage : List Storage) (memory : Memory) (names : Names) :
    (coefficientExpr signed x).eval? storage memory names = some (.ofElement (deviceCoefficient signed x)) := by
  have hmem := (x.convert : Single).datum.exact.clamped_mem ⟨32, signed⟩
  unfold deviceCoefficient coefficientExpr
  generalize (x.convert : Single).datum.exact.clamped ⟨32, signed⟩ = n at hmem ⊢
  cases signed with
  | false =>
    have hword : UInt32.ofInt n = .ofBitVec (BitVec.ofInt 32 n) := word_eq_ofBitVec n
    show Word.ofLiteral? .u32 n = _
    rw [Word.ofLiteral?, if_pos ⟨hmem.1, Int.lt_add_one_of_le hmem.2⟩, hword]
    rfl
  | true =>
    show Word.ofLiteral? .i32 n = _
    rw [Word.ofLiteral?, if_pos ⟨hmem.1, Int.lt_add_one_of_le hmem.2⟩]
    rfl

section

variable (signed : Bool) (alpha beta : Double)

/-- What the last statement of a launched product writes. -/
def launchedResult : Expr :=
  .binary .add (.binary .mul (coefficientExpr signed alpha) (.element "bias" idx))
    (.binary .mul (coefficientExpr signed beta) (.var "sum"))

theorem launched_product :
    (matMulBody (wordType signed) false ++ [storeOut (matMulResult (wordType signed) false true)]).map
        (Stmt.launched [("alpha", alpha.convert), ("beta", beta.convert)]) =
      matMulBody (wordType signed) false ++ [storeOut (launchedResult signed alpha beta)] := by
  cases signed <;> rfl

end

/-- The buffers of a product with a bias. -/
def biasStorage (t : ScalarType) : List Storage :=
  [⟨0, false, "lhs", t⟩, ⟨1, false, "rhs", t⟩, ⟨2, false, "bias", t⟩, ⟨3, true, "out", t⟩]

theorem exists_biasKernel (signed : Bool) (w : Int) :
    ∃ k, matMulKernel (wordDType signed) true w = .ok k ∧ k.storage = biasStorage (wordType signed) ∧
      k.params = matMulParams 4 ∧
      k.body = matMulBody (wordType signed) false ++ [storeOut (matMulResult (wordType signed) false true)] := by
  cases signed <;> exact ⟨_, rfl, rfl, rfl, rfl⟩

section

variable {signed : Bool} {lhs rhs bias : Array (IntWord ⟨32, signed⟩)} {memory : Memory} {batch m k n b i j : Nat}

/-- An invocation of a product of integers with a bias writes the element of the bias and the sum of the host, with the
coefficients of the device. -/
theorem launch?_product (h : Located wordModulus batch m k n b i j) (hlhs : memory 0 = lhs.map .ofElement)
    (hrhs : memory 1 = rhs.map .ofElement) (hlhsSize : lhs.size = batch * m * k) (hrhsSize : rhs.size = batch * k * n)
    {kernel : Kernel} (hstorage : kernel.storage = biasStorage (wordType signed))
    (hbody : kernel.body = matMulBody (wordType signed) false ++ [storeOut (matMulResult (wordType signed) false true)])
    {block : List UInt8} {alpha beta : Double}
    (hsingles : kernel.params.singles block = [("alpha", alpha.convert), ("beta", beta.convert)]) {place : UInt32}
    (hgiven : Given (.ofNames (kernel.names block place)) m k n ((b * m + i) * n + j))
    (hfresh : ∀ w ∈ productBindings.map Prod.fst ++ ["sum", "p"], (kernel.names block place).lookup w = none)
    (hbias : memory 2 = bias.map .ofElement) {x : IntWord ⟨32, signed⟩} (hx : bias[place.toNat]? = some x)
    (hout : place.toNat < (memory 3).size) :
    kernel.launch? block memory place = some (memory.set 3 place.toNat (.ofElement
      (combined (some (deviceCoefficient signed alpha, deviceCoefficient signed beta)) x
        (integerDot (.apart lhs) (.apart rhs) #[] ((b * m + i) * k) (b * k * n + j) k n)))) := by
  have htype : wordType signed ∈ scalarTypes := by cases signed <;> decide
  have hoperands : Operands kernel.storage (wordType signed) := by
    rw [hstorage]
    exact ⟨rfl, rfl⟩
  obtain ⟨names, vars, hplace, hvars, hrun⟩ := exists_run?_product h hlhs hrhs hlhsSize hrhsSize hoperands hgiven hfresh
  have hindex : Scope.eval? kernel.storage ⟨memory, names, vars⟩ idx = some (.u32 place) := by
    rw [Scope.eval?, idx, Expr.eval?, Scope.lookup_visible (hvars.other (by decide)), hplace]
  have hold : Scope.eval? kernel.storage ⟨memory, names, vars⟩ (.element "bias" idx) = some (.ofElement x) := by
    refine Expr.eval?_element (b := ⟨2, false, "bias", wordType signed⟩) (by rw [hstorage]; rfl) hindex ?_
      (type_ofElement x)
    show (memory 2)[place.toNat]? = _
    rw [hbias, Array.getElem?_map, hx]
    rfl
  -- the sum of the loop is scaled, and added to the scaled element of the bias
  have hvalue : Scope.eval? kernel.storage ⟨memory, names, vars⟩ (launchedResult signed alpha beta) =
      some (.ofElement _) :=
    eval?_binary (eval?_binary (eval?_coefficient signed alpha ..) hold (mul_ofElement _ _))
      (eval?_binary (eval?_coefficient signed beta ..) hvars.eval?_sum (mul_ofElement _ _)) (add_ofElement _ _)
  have hstore := Scope.store?_eq (b := ⟨3, true, "out", wordType signed⟩) (by rw [hstorage]; rfl) hindex hvalue rfl
    (type_ofElement _).symm hout
  rw [Kernel.launch?, readStmts_product htype hbody, Option.bind_some, hbody, hsingles, launched_product, hrun, storeOut,
    Stmt.run?, hstore]
  rfl

end

/-! ## Rounding -/

section

variable (signed : Bool)

theorem deviceCoefficient_eq_iff_clamped (x : Double) :
    deviceCoefficient signed x = Scalar.toIntWord (.double x) ↔
      (x.convert : Single).datum.exact.clamped ⟨32, signed⟩ = x.datum.exact.clamped ⟨32, signed⟩ := by
  have hmem := (x.convert : Single).datum.exact.clamped_mem ⟨32, signed⟩
  have hdevice : (deviceCoefficient signed x).value = (x.convert : Single).datum.exact.clamped ⟨32, signed⟩ :=
    IntWord.value_ofInt_of_mem (Nat.succ_pos 31) hmem.1 hmem.2
  have hhost := value_toIntWord (IntFormat.clampable_word signed) x
  rw [clamped_eq] at hhost
  rw [← hdevice, ← hhost]
  exact ⟨congrArg IntWord.value, fun h => IntWord.eq_of_modEq (h ▸ rfl)⟩

/-- Host and device have the same coefficient exactly if rounding leads past no integer of the type. -/
theorem deviceCoefficient_eq_iff (x : Double) :
    deviceCoefficient signed x = Scalar.toIntWord (.double x) ↔
      ∀ n, (IntFormat.mk 32 signed).least ≤ n → n ≤ (IntFormat.mk 32 signed).greatest →
        ((x.convert : Single).datum.exact.Reaches n ↔ x.datum.exact.Reaches n) := by
  rw [deviceCoefficient_eq_iff_clamped, ExactValue.clamped_eq_clamped_iff]

theorem represents_least : FloatFormat.single.Represents ((IntFormat.mk 32 signed).least : Int) := by
  cases signed with
  | false => exact FloatFormat.single_represents (by decide)
  | true =>
    -- the number `2 ^ 31` has no fraction
    have hunits : FloatFormat.single.units ((31 + 127) * 2 ^ 23) = 2 ^ 180 := by decide +kernel
    have hexponent : FloatFormat.single.leastExponent = -149 := by decide
    refine ⟨(31 + 127) * 2 ^ 23, by decide, ?_⟩
    rw [hunits, hexponent]
    norm_num [IntFormat.least_word]

theorem deviceCoefficient_eq_iff_represents {x : Double} {n : Int} (hx : x.datum.exact = .number n)
    (hleast : (IntFormat.mk 32 signed).least ≤ n) (hlt : n < (IntFormat.mk 32 signed).greatest) :
    deviceCoefficient signed x = Scalar.toIntWord (.double x) ↔ FloatFormat.single.Represents n := by
  rw [deviceCoefficient_eq_iff_clamped, hx, ExactValue.clamped_of_mem hleast (Int.le_of_lt hlt)]
  constructor
  · intro hclamped
    by_cases hsmall : n.natAbs < 2 ^ 24
    · exact FloatFormat.single_represents hsmall
    by_cases hend : n = (IntFormat.mk 32 signed).least
    · rw [hend]
      exact represents_least signed
    -- the rounded number lies between the ends, and it is so large that it is whole
    cases hy : (x.convert : Single).datum.exact with
    | nan =>
      rw [hy, ExactValue.clamped] at hclamped
      omega
    | infinite negative =>
      rw [hy, ExactValue.clamped] at hclamped
      split at hclamped <;> omega
    | number q =>
      rw [hy, ExactValue.clamped] at hclamped
      have htruncated : truncated q = n := by omega
      have hlarge : (2 ^ 24 : ℚ) ≤ |q| := by
        refine le_trans ?_ (abs_truncated_le q)
        rw [htruncated, ← Int.cast_abs, Int.abs_eq_natAbs]
        exact_mod_cast not_lt.mp hsmall
      obtain ⟨z, rfl⟩ := FloatFormat.exists_intCast (k := 149) (by decide) (FloatWord.represents_of_exact hy)
        (le_trans (by exact_mod_cast (by decide : 2 * FloatFormat.single.exponentWeight ≤ 2 ^ 24)) hlarge)
      rw [truncated_intCast] at htruncated
      rw [← htruncated]
      exact FloatWord.represents_of_exact hy
  · intro hrepresents
    rw [FloatWord.exact_convert_of_represents hx hrepresents, ExactValue.clamped_of_mem hleast (Int.le_of_lt hlt)]

end

/-- Products of integers with a bias, on the host and on the device. For all coefficients the kernel and its parameters
exist, and each invocation writes what the host writes for its element, in whatever ranges of rows, but with the
coefficients of the device. A coefficient is the same for both exactly if rounding to single precision leads past no
integer of the type. A whole coefficient below the greatest integer of the type is the same exactly if single precision
has it. -/
theorem coefficients_agree_iff (signed : Bool) (l r output : Shape) (d : MatMulSizes)
    (hsizes : MatMulSizes.ofShapes? l r = some d) (hdtype : output.dtype = wordDType signed) (hbatch : 0 < d.batch)
    (hm : 0 < d.m) (hk : 0 < d.k) (hn : 0 < d.n) (hout : d.batch * d.m * d.n < 4294967296)
    (hlhs : d.batch * d.m * d.k < 4294967296) (hrhs : d.batch * d.k * d.n < 4294967296) (w : Int) (hw : w ≠ 0)
    (alpha beta : Double) :
    (∃ kernel block, Shader.kernel (.matMul alpha beta true) [l, r, output] output w = .ok kernel ∧
      launchParams (.matMul alpha beta true) [l, r, output] output w = .ok block ∧
      kernel.text = String.join (kernel.storage.map Storage.text) ++ kernel.params.text ++ kernel.entry ++
        kernel.bodyText ++ "\x7d\n" ∧
      ∀ lhs rhs bias : Array (IntWord ⟨32, signed⟩), (lhs.size : Int) = d.batch * d.m * d.k →
        (rhs.size : Int) = d.batch * d.k * d.n → (bias.size : Int) = d.batch * d.m * d.n →
        ∃ out : Array (IntWord ⟨32, signed⟩),
          (∀ ranges, Covers ranges (d.batch * d.m).toNat → integerProduct ranges ⟨d.batch, d.m, d.k, d.n⟩ (.apart lhs)
            (.apart rhs) (HostM.coefficientWords _ (some (alpha, beta))) bias = (out, none)) ∧
          ∀ place : UInt32, (place.toNat : Int) < d.batch * d.m * d.n → ∃ x sum : IntWord ⟨32, signed⟩,
            bias[place.toNat]? = some x ∧
            out[place.toNat]? = some (((Scalar.toIntWord (.double alpha)).mul x).add
              ((Scalar.toIntWord (.double beta)).mul sum)) ∧
            ∀ memory : Memory, memory 0 = lhs.map .ofElement → memory 1 = rhs.map .ofElement →
              memory 2 = bias.map .ofElement → (memory 3).size = bias.size →
              kernel.launch? block memory place = some (memory.set 3 place.toNat (.ofElement
                (((deviceCoefficient signed alpha).mul x).add ((deviceCoefficient signed beta).mul sum))))) ∧
    ∀ x : Double,
      (deviceCoefficient signed x = Scalar.toIntWord (.double x) ↔
        ∀ n, (IntFormat.mk 32 signed).least ≤ n → n ≤ (IntFormat.mk 32 signed).greatest →
          ((x.convert : Single).datum.exact.Reaches n ↔ x.datum.exact.Reaches n)) ∧
      ∀ n : Int, x.datum.exact = .number n → (IntFormat.mk 32 signed).least ≤ n →
        n < (IntFormat.mk 32 signed).greatest →
        (deviceCoefficient signed x = Scalar.toIntWord (.double x) ↔ FloatFormat.single.Represents n) := by
  refine ⟨?_, fun x => ⟨deviceCoefficient_eq_iff signed x,
    fun n hx hleast hlt => deviceCoefficient_eq_iff_represents signed hx hleast hlt⟩⟩
  obtain ⟨kernel, hkernel, hstorage, hparams, hbody⟩ := exists_biasKernel signed w
  obtain ⟨g, hgrid⟩ := exists_grid output.size hw
  have hwords : launchWords (.matMul alpha beta true) [l, r, output] output w = .ok (d.params g.stride alpha beta) := by
    simp [launchWords, hgrid, matMulWords, hsizes]
  refine ⟨kernel, encode (d.params g.stride alpha beta), by rw [Shader.kernel, hdtype]; exact hkernel,
    by rw [launchParams, hwords]; rfl, rfl, fun lhs rhs bias hlhsSize hrhsSize hbiasSize => ?_⟩
  -- the block of parameters has the sizes in words, and the coefficients in single precision
  have hsingles := singles_matMulParams 4 d g.stride alpha beta
  rw [← hparams] at hsingles
  obtain ⟨batch, m, k, n⟩ := d
  dsimp only at *
  obtain ⟨batch, rfl⟩ := Int.eq_ofNat_of_zero_le (Int.le_of_lt hbatch)
  obtain ⟨m, rfl⟩ := Int.eq_ofNat_of_zero_le (Int.le_of_lt hm)
  obtain ⟨k, rfl⟩ := Int.eq_ofNat_of_zero_le (Int.le_of_lt hk)
  obtain ⟨n, rfl⟩ := Int.eq_ofNat_of_zero_le (Int.le_of_lt hn)
  have hout' : batch * m * n < 4294967296 := by exact_mod_cast hout
  have hlhs' : batch * m * k < 4294967296 := by exact_mod_cast hlhs
  have hrhs' : batch * k * n < 4294967296 := by exact_mod_cast hrhs
  have hlhsSize' : lhs.size = batch * m * k := by exact_mod_cast hlhsSize
  have hrhsSize' : rhs.size = batch * k * n := by exact_mod_cast hrhsSize
  have hbiasSize' : bias.size = batch * m * n := by exact_mod_cast hbiasSize
  obtain ⟨out, hranges, helements⟩ := exists_combinedElements (by omega) (by omega) (by omega) (by omega) hlhsSize'
    hrhsSize' hbiasSize' (by unfold wordLimit; omega) (by unfold wordLimit; omega) (by unfold wordLimit; omega)
    (HostM.coefficientWords _ (some (alpha, beta)))
  refine ⟨out, hranges, fun place hplace => ?_⟩
  have hplace' : place.toNat < batch * m * n := by exact_mod_cast hplace
  -- the element of an invocation has the coordinates of its number
  obtain ⟨b, i, j, hlocated, hcoordinates⟩ := exists_located hplace' (show 0 < k by omega) (.inr hout') (.inr hlhs')
    (.inr hrhs')
  obtain ⟨hm_le, hk_le, hn_le⟩ := hlocated.sizes_le
  obtain ⟨x, hx, hy⟩ := helements hlocated
  have hgiven : Given (.ofNames (kernel.names (encode (MatMulSizes.params ⟨batch, m, k, n⟩ g.stride alpha beta)) place))
      m k n place.toNat := given_names hparams (by omega) (by omega) (by omega) g.stride alpha beta place
  have hfresh := lookup_names_eq_none hparams ⟨batch, m, k, n⟩ g.stride alpha beta place
  rw [← hcoordinates] at hgiven
  rw [hcoordinates] at hx hy
  refine ⟨x, _, hx, hy, fun memory hlhsMemory hrhsMemory hbiasMemory houtMemory => ?_⟩
  exact launch?_product hlocated hlhsMemory hrhsMemory hlhsSize' hrhsSize' hstorage hbody hsingles hgiven hfresh
    hbiasMemory hx (by omega)

/-- Single precision has both coefficients, so host and device write the same. -/
theorem coefficients_agree_represented :
    let alpha : Double := .ofInt (-3)
    let beta : Double := .ofInt 16777215
    let l : Shape := ⟨.int32, [1, 2]⟩
    let r : Shape := ⟨.int32, [2, 1]⟩
    let output : Shape := ⟨.int32, [1, 1]⟩
    let lhs : Array (IntWord .int32) := #[.ofInt 1, .ofInt 2]
    let rhs : Array (IntWord .int32) := #[.ofInt 3, .ofInt 4]
    let bias : Array (IntWord .int32) := #[.ofInt 5]
    let memory : Memory := fun slot => if slot = 0 then lhs.map .ofElement else if slot = 1 then rhs.map .ofElement
      else bias.map .ofElement
    integerProduct [⟨0, 1⟩] ⟨1, 1, 2, 1⟩ (.apart lhs) (.apart rhs)
        (HostM.coefficientWords .int32 (some (alpha, beta))) bias = (#[.ofInt 184549350], none) ∧
      ∃ kernel block, Shader.kernel (.matMul alpha beta true) [l, r, output] output 64 = .ok kernel ∧
        launchParams (.matMul alpha beta true) [l, r, output] output 64 = .ok block ∧
        kernel.launch? block memory 0 = some (memory.set 3 0 (.i32 184549350)) := by
  intro alpha beta l r output lhs rhs bias memory
  obtain ⟨⟨kernel, block, hkernel, hblock, -, helements⟩, hcoefficients⟩ := coefficients_agree_iff true l r output
    ⟨1, 1, 2, 1⟩ rfl rfl (by decide) (by decide) (by decide) (by decide) (by decide) (by decide) (by decide) 64 (by decide) alpha beta
  have hsame : ∀ n : Int, n.natAbs < 2 ^ 24 →
      deviceCoefficient true (.ofInt n) = Scalar.toIntWord (.double (.ofInt n)) := by
    intro n hn
    have hleast : (IntFormat.mk 32 true).least = -2147483648 := rfl
    have hgreatest : (IntFormat.mk 32 true).greatest = 2147483647 := rfl
    exact ((hcoefficients (.ofInt n)).2 n (FloatWord.exact_ofInt (FloatFormat.double_represents (by omega))) (by omega)
      (by omega)).mpr (FloatFormat.single_represents hn)
  obtain ⟨out, hranges, hplaces⟩ := helements lhs rhs bias rfl rfl rfl
  obtain ⟨x, sum, -, hy, hlaunch⟩ := hplaces 0 (by decide)
  have hrun : integerProduct [⟨0, 1⟩] ⟨1, 1, 2, 1⟩ (.apart lhs) (.apart rhs)
      (HostM.coefficientWords .int32 (some (alpha, beta))) bias = (#[.ofInt 184549350], none) := by decide +kernel
  have hcovers : Covers [⟨0, 1⟩] 1 := ⟨⟨by simp, by simp⟩, fun r hr => ⟨⟨0, 1⟩, by simp, by simp, hr⟩⟩
  obtain rfl : #[.ofInt 184549350] = out := congrArg Prod.fst (hrun.symm.trans (hranges [⟨0, 1⟩] hcovers))
  refine ⟨hrun, kernel, block, hkernel, hblock, ?_⟩
  rw [hlaunch memory rfl rfl rfl Array.size_map, hsame (-3) (by decide), hsame 16777215 (by decide), ← Option.some.inj hy]
  rfl

/-- The number `1 - 2 ^ -30` is truncated to zero on the host. On the device it has been rounded to one before. The whole
number `2 ^ 24 + 1` is another one in single precision. -/
theorem coefficients_rounded :
    let near : Double := .ofDatum (.finite false 1073741823 (-30))
    let shape : Shape := ⟨.int32, [1, 1]⟩
    let one : Array (IntWord .int32) := #[.ofInt 1]
    integerProduct [⟨0, 1⟩] ⟨1, 1, 1, 1⟩ (.apart one) (.apart one)
        (HostM.coefficientWords .int32 (some (near, .ofInt 1))) one = (#[.ofInt 1], none) ∧
      (∃ kernel block, Shader.kernel (.matMul near (.ofInt 1) true) [shape, shape, shape] shape 64 = .ok kernel ∧
        launchParams (.matMul near (.ofInt 1) true) [shape, shape, shape] shape 64 = .ok block ∧
        (kernel.launch? block (fun _ => one.map .ofElement) 0).map (· 3) = some #[.i32 2]) ∧
      (Scalar.toIntWord (.double (.ofInt 16777217)) : IntWord .int32).value = 16777217 ∧
      (deviceCoefficient true (.ofInt 16777217)).value = 16777216 := by
  intro near shape one
  obtain ⟨kernel, hkernel, hstorage, hparams, hbody⟩ := exists_biasKernel true 64
  let block := (launchParams (.matMul near (.ofInt 1) true) [shape, shape, shape] shape 64).toOption.get
    (by decide +kernel)
  refine ⟨by decide +kernel, ⟨kernel, block, hkernel, eq_ok_of_toOption (Option.some_get _).symm, ?_⟩, by decide +kernel,
    by decide +kernel⟩
  rw [Kernel.launch?, readStmts_product (by decide) hbody, Option.bind_some, hbody, hstorage, Kernel.names, hparams]
  decide +kernel

end Shader

end LazyTensor
