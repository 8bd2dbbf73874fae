import LazyTensor.Proofs.Kernel.IntegerProduct
import LazyTensor.Proofs.Shader.Access
import LazyTensor.Proofs.Shader.Launch

/-!
# Products of matrices on the device

An invocation of the kernel of a product takes its number apart into a matrix of the batch, a row and a column. It walks
along the row of the left operand and the column of the right one, and each turn of its loop reads the two elements that
belong together. No index is beyond the last element of its operand, and so none of them wraps around.

For integers the sum is the one that the host computes, term by term in words, so both write the same element.
-/

namespace LazyTensor

open List Option

open Kernel

namespace Shader

/-! ## Places -/

variable {length c : Nat}

private theorem place_lt {a blocks : Nat} (ha : a < blocks) (hc : c < length) : a * length + c < blocks * length := by
  have hle : (a + 1) * length ≤ blocks * length := Nat.mul_le_mul_right length ha
  rw [Nat.add_mul] at hle
  omega

private theorem div_place (a : Nat) (hc : c < length) : (a * length + c) / length = a := by
  rw [Nat.mul_comm, Nat.mul_add_div (by omega), Nat.div_eq_of_lt hc, Nat.add_zero]

private theorem mod_place (a : Nat) (hc : c < length) : (a * length + c) % length = c := by
  rw [Nat.mul_comm, Nat.mul_add_mod, Nat.mod_eq_of_lt hc]

/-- An element of the output of a product with indices that all fit. -/
structure Located (modulus batch m k n b i j : Nat) : Prop where
  batch_lt : b < batch
  row_lt : i < m
  col_lt : j < n
  inner_pos : 0 < k
  out_fits : Fits modulus (batch * m * n)
  lhs_fits : Fits modulus (batch * m * k)
  rhs_fits : Fits modulus (batch * k * n)

variable {p : Nat}

section Located

variable {modulus batch m k n b i j : Nat}

private theorem place_eq : (b * m + i) * n + j = b * (m * n) + (i * n + j) := by ring

variable (h : Located modulus batch m k n b i j)

include h

theorem Located.place_div : ((b * m + i) * n + j) / (m * n) = b := by
  rw [place_eq, div_place b (place_lt h.row_lt h.col_lt)]

theorem Located.place_mod : ((b * m + i) * n + j) % (m * n) = i * n + j := by
  rw [place_eq, mod_place b (place_lt h.row_lt h.col_lt)]

theorem Located.row_lt' : b * m + i < batch * m :=
  place_lt h.batch_lt h.row_lt

theorem Located.sizes_le : m ≤ batch * m * n ∧ k ≤ batch * m * k ∧ n ≤ batch * m * n := by
  have hrows : 0 < batch * m := Nat.zero_lt_of_lt h.row_lt'
  have hm : m ≤ batch * m := Nat.le_mul_of_pos_left m (Nat.zero_lt_of_lt h.batch_lt)
  exact ⟨Nat.le_trans hm (Nat.le_mul_of_pos_right _ (Nat.zero_lt_of_lt h.col_lt)), Nat.le_mul_of_pos_left k hrows,
    Nat.le_mul_of_pos_left n hrows⟩

theorem Located.out_lt : (b * m + i) * n + j < batch * m * n :=
  place_lt h.row_lt' h.col_lt

theorem Located.lhs_lt (hp : p < k) : (b * m + i) * k + p < batch * m * k := place_lt h.row_lt' hp

theorem Located.rhs_lt (hp : p < k) : b * k * n + j + p * n < batch * k * n := by
  have hplace := place_lt (place_lt h.batch_lt hp) h.col_lt
  have heq : b * k * n + j + p * n = (b * k + p) * n + j := by ring
  omega

end Located

/-! ## Names -/

/-- The names of a product before its sum. -/
def productBindings : List (String × Expr) :=
  [ ("mn", .binary .mul (.param "m") (.param "n")),
    ("batch", .binary .div idx (.var "mn")),
    ("row", .binary .div (.paren (.binary .rem idx (.var "mn"))) (.param "n")),
    ("col", .binary .rem idx (.param "n")),
    ("lhsBase", .binary .add
      (.binary .mul (.binary .mul (.var "batch") (.param "m")) (.param "k"))
      (.binary .mul (.var "row") (.param "k"))),
    ("rhsBase", .binary .add
      (.binary .mul (.binary .mul (.var "batch") (.param "k")) (.param "n")) (.var "col")) ]

/-- What is added in each turn of the loop, to the sum so far. -/
def turnExpr (t : ScalarType) (isFloat : Bool) : Expr :=
  if isFloat then .fma (.convert t lhsElement) (.convert t rhsElement) (.var "sum")
  else .binary .add (.var "sum") (.binary .mul lhsElement rhsElement)

theorem matMulBody_eq (t : ScalarType) (isFloat : Bool) :
    matMulBody t isFloat = bindStmts productBindings ++
      [.declare "sum" (some t) (.convert t (.int 0)),
        .loop "p" (.param "k") (.assign "sum" (turnExpr t isFloat))] := rfl

/-- What an invocation knows at the start. -/
structure Given (known : Known) (m k n place : Nat) : Prop where
  m : known (paramName "m") = some m
  k : known (paramName "k") = some k
  n : known (paramName "n") = some n
  idx : known "idx" = some place

/-- The names of a product with their values. -/
def productNames (known : Known) (m k n b i j : Nat) : Known :=
  (((((known.set "mn" (some (m * n))).set "batch" (some b)).set "row" (some i)).set "col" (some j)).set "lhsBase"
    (some ((b * m + i) * k))).set "rhsBase" (some (b * k * n + j))

theorem Given.set {known : Known} {m k n place : Nat} (h : Given known m k n place) {w : String}
    (hw : w ∉ [paramName "m", paramName "k", paramName "n", "idx"]) (value : Option Nat) :
    Given (known.set w value) m k n place := by
  simp only [mem_cons, not_mem_nil, or_false, not_or] at hw
  obtain ⟨hm, hk, hn, hidx⟩ := hw
  exact ⟨by rw [Known.set_of_ne _ (Ne.symm hm), h.m], by rw [Known.set_of_ne _ (Ne.symm hk), h.k],
    by rw [Known.set_of_ne _ (Ne.symm hn), h.n], by rw [Known.set_of_ne _ (Ne.symm hidx), h.idx]⟩

section Names

variable {modulus batch m k n b i j : Nat} {known : Known} (h : Located modulus batch m k n b i j)
  (hgiven : Given known m k n ((b * m + i) * n + j))

include h hgiven

theorem index?_mn : (Expr.binary .mul (.param "m") (.param "n")).index? modulus known = some (m * n) := by
  have hfits : Fits modulus (m * n) := by
    apply h.out_fits.mono
    rw [Nat.mul_assoc]
    exact Nat.le_mul_of_pos_left _ (Nat.zero_lt_of_lt h.batch_lt)
  exact index?_mul hgiven.m hgiven.n hfits

theorem index?_batch (hmn : known "mn" = some (m * n)) :
    (Expr.binary .div idx (.var "mn")).index? modulus known = some b := by
  have hpos : 0 < m * n := Nat.mul_pos (Nat.zero_lt_of_lt h.row_lt) (Nat.zero_lt_of_lt h.col_lt)
  rw [← h.place_div]
  exact index?_div hgiven.idx hmn hpos

theorem index?_row (hmn : known "mn" = some (m * n)) :
    (Expr.binary .div (.paren (.binary .rem idx (.var "mn"))) (.param "n")).index? modulus known = some i := by
  have hpos : 0 < m * n := Nat.mul_pos (Nat.zero_lt_of_lt h.row_lt) (Nat.zero_lt_of_lt h.col_lt)
  have hrem : (Expr.paren (.binary .rem idx (.var "mn"))).index? modulus known =
      some (((b * m + i) * n + j) % (m * n)) := index?_rem hgiven.idx hmn hpos
  rw [h.place_mod] at hrem
  rw [← div_place i h.col_lt]
  exact index?_div hrem hgiven.n (Nat.zero_lt_of_lt h.col_lt)

theorem index?_col : (Expr.binary .rem idx (.param "n")).index? modulus known = some j := by
  rw [← mod_place (b * m + i) h.col_lt]
  exact index?_rem hgiven.idx hgiven.n (Nat.zero_lt_of_lt h.col_lt)

theorem index?_lhsBase (hbatch : known "batch" = some b) (hrow : known "row" = some i) :
    (Expr.binary .add (.binary .mul (.binary .mul (.var "batch") (.param "m")) (.param "k"))
      (.binary .mul (.var "row") (.param "k"))).index? modulus known = some ((b * m + i) * k) := by
  have hfits : Fits modulus (b * m * k + i * k) := by
    have hlt := h.lhs_lt h.inner_pos
    rw [Nat.add_mul] at hlt
    exact h.lhs_fits.mono (by omega)
  have hmatrix : Fits modulus (b * m * k) := hfits.mono (Nat.le_add_right _ _)
  have hbm : (Expr.binary .mul (.var "batch") (.param "m")).index? modulus known = some (b * m) :=
    index?_mul hbatch hgiven.m (hmatrix.mono (Nat.le_mul_of_pos_right _ h.inner_pos))
  rw [Nat.add_mul]
  exact index?_add (index?_mul hbm hgiven.k hmatrix) (index?_mul hrow hgiven.k (hfits.mono (Nat.le_add_left _ _))) hfits

theorem index?_rhsBase (hbatch : known "batch" = some b) (hcol : known "col" = some j) :
    (Expr.binary .add (.binary .mul (.binary .mul (.var "batch") (.param "k")) (.param "n")) (.var "col")).index?
      modulus known = some (b * k * n + j) := by
  have hfits : Fits modulus (b * k * n + j) := by
    have hlt := h.rhs_lt h.inner_pos
    exact h.rhs_fits.mono (by omega)
  have hmatrix : Fits modulus (b * k * n) := hfits.mono (Nat.le_add_right _ _)
  have hbk : (Expr.binary .mul (.var "batch") (.param "k")).index? modulus known = some (b * k) :=
    index?_mul hbatch hgiven.k (hmatrix.mono (Nat.le_mul_of_pos_right _ (Nat.zero_lt_of_lt h.col_lt)))
  exact index?_add (index?_mul hbk hgiven.n hmatrix) hcol hfits

theorem bindIndices?_product :
    bindIndices? modulus productBindings known = some (productNames known m k n b i j) := by
  have h₁ := hgiven.set (w := "mn") (by decide) (some (m * n))
  have h₂ := h₁.set (w := "batch") (by decide) (some b)
  have h₃ := h₂.set (w := "row") (by decide) (some i)
  have h₄ := h₃.set (w := "col") (by decide) (some j)
  have h₅ := h₄.set (w := "lhsBase") (by decide) (some ((b * m + i) * k))
  rw [productBindings, bindIndices?_cons (index?_mn h hgiven), bindIndices?_cons (index?_batch h h₁ rfl),
    bindIndices?_cons (index?_row h h₂ rfl), bindIndices?_cons (index?_col h h₃),
    bindIndices?_cons (index?_lhsBase h h₄ rfl rfl), bindIndices?_cons (index?_rhsBase h h₅ rfl rfl)]
  rfl

end Names

/-! ## Accesses -/

/-- The elements that one turn of the loop reads. -/
def factorReads (m k n b i j p : Nat) : List Access :=
  [.read "lhs" ((b * m + i) * k + p), .read "rhs" (b * k * n + j + p * n)]

/-- What is known in each turn of the loop. -/
structure Walking (known : Known) (m k n b i j : Nat) : Prop where
  lhsBase : known "lhsBase" = some ((b * m + i) * k)
  rhsBase : known "rhsBase" = some (b * k * n + j)
  n : known (paramName "n") = some n

section Accesses

variable {modulus batch m k n b i j p : Nat} {known : Known} (h : Located modulus batch m k n b i j)

theorem Walking.congr {known' : Known} (hwalking : Walking known m k n b i j)
    (hframe : ∀ w, w ≠ "p" → w ≠ "sum" → known' w = known w) : Walking known' m k n b i j where
  lhsBase := (hframe _ (by decide) (by decide)).trans hwalking.lhsBase
  rhsBase := (hframe _ (by decide) (by decide)).trans hwalking.rhsBase
  n := (hframe _ (by decide) (by decide)).trans hwalking.n

include h

section

variable (hwalking : Walking known m k n b i j)

include hwalking

theorem index?_lhs (hp : known "p" = some p) (hlt : p < k) :
    (Expr.binary .add (.var "lhsBase") (.var "p")).index? modulus known = some ((b * m + i) * k + p) :=
  index?_add hwalking.lhsBase hp (h.lhs_fits.mono (Nat.le_of_lt (h.lhs_lt hlt)))

theorem index?_rhs (hp : known "p" = some p) (hlt : p < k) :
    (Expr.binary .add (.var "rhsBase") (.binary .mul (.var "p") (.param "n"))).index? modulus known =
      some (b * k * n + j + p * n) := by
  have hfits : Fits modulus (b * k * n + j + p * n) := h.rhs_fits.mono (Nat.le_of_lt (h.rhs_lt hlt))
  exact index?_add hwalking.rhsBase (index?_mul hp hwalking.n (hfits.mono (Nat.le_add_left _ _))) hfits

theorem reads?_turnExpr (hp : known "p" = some p) (hlt : p < k) (t : ScalarType)
    (isFloat : Bool) : (turnExpr t isFloat).reads? modulus known = some (factorReads m k n b i j p) := by
  have hlhs : lhsElement.reads? modulus known = some [.read "lhs" ((b * m + i) * k + p)] := by
    have hindex := index?_lhs h hwalking hp hlt
    rw [lhsElement, Expr.reads?, hindex]
    rfl
  have hrhs : rhsElement.reads? modulus known = some [.read "rhs" (b * k * n + j + p * n)] := by
    have hindex := index?_rhs h hwalking hp hlt
    rw [rhsElement, Expr.reads?, hindex]
    rfl
  cases isFloat with
  | true =>
    show (Expr.fma (.convert t lhsElement) (.convert t rhsElement) (.var "sum")).reads? modulus known = _
    simp only [Expr.reads?, hlhs, hrhs]
    rfl
  | false =>
    show (Expr.binary .add (.var "sum") (.binary .mul lhsElement rhsElement)).reads? modulus known = _
    simp only [Expr.reads?, hlhs, hrhs]
    rfl

theorem exists_trace?_turns (t : ScalarType) (isFloat : Bool)
    (accesses : List Access) {count : Nat} (hcount : count ≤ k) :
    ∃ known', (range count).foldlM (fun (t' : Trace) (p : Nat) => (Stmt.assign "sum" (turnExpr t isFloat)).trace?
        modulus { t' with known := t'.known.set "p" (some p) }) ⟨known, accesses⟩ =
        some ⟨known', accesses ++ (range count).flatMap (factorReads m k n b i j)⟩ ∧
      ∀ w, w ≠ "p" → w ≠ "sum" → known' w = known w := by
  induction count with
  | zero => exact ⟨known, by simp, fun _ _ _ => rfl⟩
  | succ count ih =>
    obtain ⟨known', hturns, hframe⟩ := ih (by omega)
    -- the next turn starts with what is known after the others
    have hwalking' : Walking (known'.set "p" (some count)) m k n b i j := by
      apply hwalking.congr
      intro w hw hw'
      rw [Known.set_of_ne _ hw, hframe w hw hw']
    have hreads := reads?_turnExpr h hwalking' (Known.set_self ..) hcount t isFloat
    refine ⟨(known'.set "p" (some count)).set "sum" ((turnExpr t isFloat).index? modulus (known'.set "p" (some count))),
      ?_, fun w hw hw' => ?_⟩
    · rw [range_succ, foldlM_append, hturns]
      simp only [bind_eq_bind, bind_some, foldlM_cons, Stmt.trace?, Trace.give?,
        hreads, flatMap_append,
        append_assoc]
      rfl
    · rw [Known.set_of_ne _ hw', Known.set_of_ne _ hw, hframe w hw hw']

theorem exists_trace?_loop (hk : known (paramName "k") = some k)
    (t : ScalarType) (isFloat : Bool) (accesses : List Access) :
    ∃ known', (Stmt.loop "p" (.param "k") (.assign "sum" (turnExpr t isFloat))).trace? modulus ⟨known, accesses⟩ =
        some ⟨known', accesses ++ (range k).flatMap (factorReads m k n b i j)⟩ ∧
      ∀ w, w ≠ "p" → w ≠ "sum" → known' w = known w := by
  obtain ⟨known', hturns, hframe⟩ := exists_trace?_turns h hwalking t isFloat accesses (Nat.le_refl k)
  have hbound : (Expr.param "k").index? modulus known = some k := hk
  refine ⟨known'.set "p" none, ?_, fun w hw hw' => ?_⟩
  · rw [Stmt.trace?, hbound, bind_some, hturns, map_some]
  · rw [Known.set_of_ne _ hw, hframe w hw hw']

end

omit h

theorem reads?_matMulResult {place : Nat} (hidx : known "idx" = some place) (t : ScalarType) (isFloat hasBias : Bool) :
    (matMulResult t isFloat hasBias).reads? modulus known = some (if hasBias then [.read "bias" place] else []) := by
  have hbias : (Expr.element "bias" idx).reads? modulus known = some [.read "bias" place] := by
    have hindex : idx.index? modulus known = some place := hidx
    rw [Expr.reads?, hindex]
    rfl
  cases hasBias with
  | false => rfl
  | true =>
    cases isFloat with
    | true =>
      show (Expr.convert t (.binary .add (.binary .mul (.param "alpha") (.convert .f32 (.element "bias" idx)))
        (.binary .mul (.param "beta") (.var "sum")))).reads? modulus known = _
      simp only [Expr.reads?] at hbias ⊢
      rw [hbias]
      rfl
    | false =>
      show (Expr.binary .add (.binary .mul (.convert t (.param "alpha")) (.element "bias" idx))
        (.binary .mul (.convert t (.param "beta")) (.var "sum"))).reads? modulus known = _
      simp only [Expr.reads?] at hbias ⊢
      rw [hbias]
      rfl

include h

theorem traceStmts?_product {known : Known} (hgiven : Given known m k n ((b * m + i) * n + j)) (t : ScalarType)
    (isFloat hasBias : Bool) :
    (traceStmts? modulus (matMulBody t isFloat ++ [storeOut (matMulResult t isFloat hasBias)]) ⟨known, []⟩).map
      (·.accesses) = some ((range k).flatMap (factorReads m k n b i j) ++
        (if hasBias then [.read "bias" ((b * m + i) * n + j)] else []) ++ [.write "out" ((b * m + i) * n + j)]) := by
  let known₁ := (productNames known m k n b i j).set "sum" none
  have hwalking : Walking known₁ m k n b i j := ⟨rfl, rfl, hgiven.n⟩
  have hdeclare : (Stmt.declare "sum" (some t) (.convert t (.int 0))).trace? modulus
      ⟨productNames known m k n b i j, []⟩ = some ⟨known₁, []⟩ := rfl
  obtain ⟨known₂, hloop, hframe⟩ := exists_trace?_loop h hwalking hgiven.k t isFloat []
  have hidx : known₂ "idx" = some ((b * m + i) * n + j) := (hframe "idx" (by decide) (by decide)).trans hgiven.idx
  have hstore : (storeOut (matMulResult t isFloat hasBias)).trace? modulus
      ⟨known₂, [] ++ (range k).flatMap (factorReads m k n b i j)⟩ =
      some ⟨known₂, (range k).flatMap (factorReads m k n b i j) ++
        (if hasBias then [.read "bias" ((b * m + i) * n + j)] else []) ++ [.write "out" ((b * m + i) * n + j)]⟩ := by
    have hindex : idx.index? modulus known₂ = some ((b * m + i) * n + j) := hidx
    rw [storeOut, Stmt.trace?, reads?_matMulResult hidx, hindex]
    rfl
  rw [matMulBody_eq, append_assoc, traceStmts?_append,
    traceStmts?_bindStmts (bindIndices?_product h hgiven), bind_some]
  rw [cons_append, traceStmts?_cons, hdeclare, bind_some, cons_append, traceStmts?_cons, hloop,
    bind_some, nil_append, traceStmts?_cons, hstore]
  rfl

end Accesses

theorem readable_product {t : ScalarType} (ht : t ∈ scalarTypes) (isFloat hasBias : Bool) :
    ∀ s ∈ matMulBody t isFloat ++ [storeOut (matMulResult t isFloat hasBias)], s.Readable := by
  cases isFloat <;> cases hasBias <;>
    simp [matMulBody, matMulResult, storeOut, lhsElement, rhsElement, Stmt.Readable, Expr.Readable, idx,
      ht, Stmt.isLoop] <;>
    decide

variable {kernel : Kernel}

theorem readStmts_product {t : ScalarType} (ht : t ∈ scalarTypes) {isFloat hasBias : Bool}
    (hbody : kernel.body = matMulBody t isFloat ++ [storeOut (matMulResult t isFloat hasBias)]) :
    readStmts kernel.bodyText = some kernel.body := by
  apply readStmts_text
  rw [hbody]
  exact readable_product ht isFloat hasBias

/-! ## Integers -/

section Integers

variable {signed : Bool} {lhs rhs : Array (IntWord ⟨32, signed⟩)} {storage : List Storage} {memory : Memory}
  {names vars : Names} {known : Known} {batch m k n b i j : Nat} {x : IntWord ⟨32, signed⟩}

/-- The buffers of a product without a bias. -/
def productStorage (t : ScalarType) : List Storage :=
  [⟨0, false, "lhs", t⟩, ⟨1, false, "rhs", t⟩, ⟨2, true, "out", t⟩]

/-- The operands of a product are at the first two slots. -/
structure Operands (storage : List Storage) (t : ScalarType) : Prop where
  lhs : storage.find? (·.name == "lhs") = some ⟨0, false, "lhs", t⟩
  rhs : storage.find? (·.name == "rhs") = some ⟨1, false, "rhs", t⟩

/-- The sum has a value, and there is no other variable. -/
def IsSum (vars : Names) (x : IntWord ⟨32, signed⟩) : Prop :=
  ∀ w, vars.lookup w = if w = "sum" then some (.ofElement x) else none

theorem IsSum.other (h : IsSum vars x) {w : String} (hw : w ≠ "sum") :
    vars.lookup w = none := (h w).trans (if_neg hw)

theorem IsSum.eval?_sum (h : IsSum vars x) :
    Scope.eval? storage ⟨memory, names, vars⟩ (.var "sum") = some (.ofElement x) := by
  rw [Scope.eval?, Expr.eval?, Scope.visible, lookup_append, h "sum"]
  rfl

theorem Known.Agrees.turn (h : known.Agrees names) (hsum : known "sum" = none) (hvars : IsSum vars x)
    (hp : p < 4294967296) : (known.set "p" (some p)).Agrees (vars ++ ("p", .u32 (.ofNat p)) :: names) := by
  intro w q hw
  have hne : w ≠ "sum" := by
    rintro rfl
    rw [Known.set_of_ne _ (by decide), hsum] at hw
    cases hw
  have hword : (UInt32.ofNat p).toNat = p := UInt32.toNat_ofNat_of_lt' hp
  rw [lookup_append, hvars.other hne]
  exact h.set "p" hword w q hw

theorem isSum_cons (h : ∀ w, w ≠ "sum" → vars.lookup w = none) (y : IntWord ⟨32, signed⟩) :
    IsSum (("sum", .ofElement y) :: vars) y := by
  intro w
  by_cases hw : w = "sum"
  · simp [hw]
  · rw [lookup_cons_of_ne hw, h w hw, if_neg hw]

theorem run?_declare_sum (hfresh : names.lookup "sum" = none) :
    (Stmt.declare "sum" (some (wordType signed)) (.convert (wordType signed) (.int 0))).run? storage
      ⟨memory, names, []⟩ = some ⟨memory, names, [("sum", .ofElement (.zero : IntWord ⟨32, signed⟩))]⟩ := by
  have hinitial : Scope.initial? storage ⟨memory, names, []⟩ "sum" (.convert (wordType signed) (.int 0)) =
      some (.ofElement (.zero : IntWord ⟨32, signed⟩)) := by
    unfold Scope.initial?
    rw [show Scope.visible ⟨memory, names, []⟩ = names from rfl, hfresh]
    exact ofLiteral?_zero
  rw [Stmt.run?, hinitial]
  simp [type_ofElement]

theorem assign?_sum (h : IsSum vars x) (y : IntWord ⟨32, signed⟩) :
    Scope.assign? ⟨memory, names, vars⟩ "sum" (.ofElement y) = some ⟨memory, names, ("sum", .ofElement y) :: vars⟩ := by
  have hold : vars.lookup "sum" = some (.ofElement x) := h "sum"
  rw [Scope.assign?, hold]
  exact if_pos ((type_ofElement x).trans (type_ofElement y).symm)

theorem integerDot_succ (lhsBase rhsBase count n : Nat) :
    integerDot (.apart lhs) (.apart rhs) #[] lhsBase rhsBase (count + 1) n =
      (integerDot (.apart lhs) (.apart rhs) #[] lhsBase rhsBase count n).add
        ((lhs.getD (lhsBase + count) .zero).mul (rhs.getD (rhsBase + count * n) .zero)) := by
  rw [integerDot, range_succ, foldl_append]
  rfl

variable (h : Located wordModulus batch m k n b i j) (hlhs : memory 0 = lhs.map .ofElement)
  (hrhs : memory 1 = rhs.map .ofElement) (hlhsSize : lhs.size = batch * m * k) (hrhsSize : rhs.size = batch * k * n)

include h hlhs hrhs hlhsSize hrhsSize

section Sum

variable (hoperands : Operands storage (wordType signed)) (hwalking : Walking known m k n b i j)
  (hagrees : known.Agrees names) (hsum : known "sum" = none)

include hoperands hwalking hagrees hsum

theorem exists_turn? (hvars : IsSum vars x) (hp : p < k) (hword : p < 4294967296) :
    ∃ vars', Scope.turn? storage ⟨memory, names, vars⟩ "p" "sum"
        (turnExpr (wordType signed) false) p = some ⟨memory, names, vars'⟩ ∧
      IsSum vars' (x.add ((lhs.getD ((b * m + i) * k + p) .zero).mul (rhs.getD (b * k * n + j + p * n) .zero))) := by
  have hturn := hagrees.turn hsum hvars hword
  have hwalking' : Walking (known.set "p" (some p)) m k n b i j :=
    hwalking.congr fun w hw _ => Known.set_of_ne _ hw _
  -- the elements at the two indices
  obtain ⟨lhsWord, hlhsIndex, hlhsWord⟩ := Expr.eval?_of_index? hturn storage memory
    (index?_lhs h hwalking' (Known.set_self ..) hp)
  obtain ⟨rhsWord, hrhsIndex, hrhsWord⟩ := Expr.eval?_of_index? hturn storage memory
    (index?_rhs h hwalking' (Known.set_self ..) hp)
  have hlhsLt := h.lhs_lt hp
  have hrhsLt := h.rhs_lt hp
  rw [← hlhsSize] at hlhsLt
  rw [← hrhsSize] at hrhsLt
  have hlhsElement : (memory 0)[lhsWord.toNat]? = some (.ofElement (lhs.getD ((b * m + i) * k + p) .zero)) := by
    rw [hlhs, hlhsWord]
    simp [hlhsLt]
  have hrhsElement : (memory 1)[rhsWord.toNat]? = some (.ofElement (rhs.getD (b * k * n + j + p * n) .zero)) := by
    rw [hrhs, hrhsWord]
    simp [hrhsLt]
  have hleft : lhsElement.eval? storage memory
      (vars ++ ("p", .u32 (.ofNat p)) :: names) = some (.ofElement (lhs.getD ((b * m + i) * k + p) .zero)) :=
    Expr.eval?_element (b := ⟨0, false, "lhs", wordType signed⟩) hoperands.lhs hlhsIndex hlhsElement (type_ofElement _)
  have hright : rhsElement.eval? storage memory
      (vars ++ ("p", .u32 (.ofNat p)) :: names) = some (.ofElement (rhs.getD (b * k * n + j + p * n) .zero)) :=
    Expr.eval?_element (b := ⟨1, false, "rhs", wordType signed⟩) hoperands.rhs hrhsIndex hrhsElement (type_ofElement _)
  have hold : vars.lookup "sum" = some (.ofElement x) := hvars "sum"
  have hbefore : (Expr.var "sum").eval? storage memory
      (vars ++ ("p", .u32 (.ofNat p)) :: names) = some (.ofElement x) := by
    rw [Expr.eval?, lookup_append, hold]
    rfl
  have hvalue : (turnExpr (wordType signed) false).eval? storage memory
      (vars ++ ("p", .u32 (.ofNat p)) :: names) = some (.ofElement _) :=
    eval?_binary hbefore (eval?_binary hleft hright (mul_ofElement _ _)) (add_ofElement _ _)
  refine ⟨_, ?_, isSum_cons (fun w hw => hvars.other hw) _⟩
  rw [Scope.turn?, hvalue]
  exact assign?_sum hvars _

theorem exists_run?_turns (hvars : IsSum vars (.zero : IntWord ⟨32, signed⟩)) {count : Nat} (hcount : count ≤ k)
    (hword : k < 4294967296) :
    ∃ vars', (range count).foldlM (fun (s : Scope) (p : Nat) => s.turn? storage "p" "sum"
        (turnExpr (wordType signed) false) p) ⟨memory, names, vars⟩ = some ⟨memory, names, vars'⟩ ∧
      IsSum vars' (integerDot (.apart lhs) (.apart rhs) #[] ((b * m + i) * k) (b * k * n + j) count n) := by
  induction count with
  | zero => exact ⟨vars, rfl, hvars⟩
  | succ count ih =>
    obtain ⟨vars', hturns, hvars'⟩ := ih (by omega)
    obtain ⟨vars'', hturn, hvars''⟩ := exists_turn? h hlhs hrhs hlhsSize hrhsSize hoperands hwalking hagrees hsum hvars'
      hcount (by omega)
    refine ⟨vars'', ?_, ?_⟩
    · rw [range_succ, foldlM_append, hturns]
      simp [hturn]
    · rw [integerDot_succ]
      exact hvars''

theorem exists_run?_sum (hfresh : names.lookup "sum" = none ∧ names.lookup "p" = none) {inner : UInt32}
    (hinner : names.lookup (paramName "k") = some (.u32 inner)) (hk : inner.toNat = k) :
    ∃ vars, IsSum vars (integerDot (.apart lhs) (.apart rhs) #[] ((b * m + i) * k) (b * k * n + j) k n) ∧
      [Stmt.declare "sum" (some (wordType signed)) (.convert (wordType signed) (.int 0)),
        .loop "p" (.param "k") (.assign "sum" (turnExpr (wordType signed) false))].foldlM
          (fun (s : Scope) (stmt : Stmt) => stmt.run? storage s) ⟨memory, names, []⟩ = some ⟨memory, names, vars⟩ := by
  have hzero : IsSum [("sum", .ofElement (.zero : IntWord ⟨32, signed⟩))] (.zero : IntWord ⟨32, signed⟩) :=
    isSum_cons (fun _ _ => rfl) _
  obtain ⟨vars, hturns, hvars⟩ := exists_run?_turns h hlhs hrhs hlhsSize hrhsSize hoperands hwalking hagrees hsum hzero
    (Nat.le_refl k) (by rw [← hk]; exact inner.toNat_lt)
  refine ⟨vars, hvars, ?_⟩
  have hinitial : Scope.initial? storage ⟨memory, names, [("sum", .ofElement (.zero : IntWord ⟨32, signed⟩))]⟩ "p"
      (.param "k") = some (.u32 inner) := by
    rw [Scope.initial?, Scope.lookup_visible (hzero.other (by decide)), hfresh.2, Scope.eval?, Expr.eval?,
      Scope.lookup_visible (hzero.other (by decide)), hinner]
    rfl
  rw [foldlM_cons, run?_declare_sum hfresh.1, bind_eq_bind, bind_some, foldlM_cons,
    Stmt.run?_loop hinitial, hk, hturns]
  rfl

end Sum

/-- When an invocation comes to the last statement, the memory is still the same, and it knows its number and the sum of
the products. -/
theorem exists_run?_product (hoperands : Operands kernel.storage (wordType signed)) {block : List UInt8}
    {place : UInt32} (hgiven : Given (.ofNames (kernel.names block place)) m k n ((b * m + i) * n + j))
    (hfresh : ∀ w ∈ productBindings.map Prod.fst ++ ["sum", "p"], (kernel.names block place).lookup w = none) :
    ∃ names vars, names.lookup "idx" = some (.u32 place) ∧
      IsSum vars (integerDot (.apart lhs) (.apart rhs) #[] ((b * m + i) * k) (b * k * n + j) k n) ∧
      ∀ last : Stmt,
        run? kernel.storage memory (kernel.names block place) (matMulBody (wordType signed) false ++ [last]) =
          (last.run? kernel.storage ⟨memory, names, vars⟩).map (·.memory) := by
  have hfreshBindings : ∀ b ∈ productBindings, (kernel.names block place).lookup b.1 = none :=
    fun b hb => hfresh b.1 (mem_append_left _ (List.mem_map_of_mem hb))
  obtain ⟨names, hagrees, hframe, hrun⟩ := exists_run?_bindStmts (bindIndices?_product h hgiven)
    (Known.agrees_ofNames _) hfreshBindings (by decide) kernel.storage memory
  have hunknown : productNames (.ofNames (kernel.names block place)) m k n b i j "sum" = none := by
    show Known.ofNames (kernel.names block place) "sum" = none
    rw [Known.ofNames, hfresh "sum" (by decide)]
  obtain ⟨inner, hinner, hk⟩ := Known.agrees_ofNames _ _ _ hgiven.k
  have hwalking : Walking (productNames (.ofNames (kernel.names block place)) m k n b i j) m k n b i j :=
    ⟨rfl, rfl, hgiven.n⟩
  -- the names before are still bound, and the sum and the counter are new
  have hplace : names.lookup "idx" = some (.u32 place) := by
    rw [hframe _ (by decide), Kernel.names]
    simp
  have hnew : names.lookup "sum" = none ∧ names.lookup "p" = none := by
    rw [hframe "sum" (by decide), hframe "p" (by decide)]
    exact ⟨hfresh "sum" (by decide), hfresh "p" (by decide)⟩
  rw [← hframe _ (by decide)] at hinner
  obtain ⟨vars, hvars, hsum⟩ := exists_run?_sum h hlhs hrhs hlhsSize hrhsSize hoperands hwalking hagrees hunknown hnew
    hinner hk
  refine ⟨names, vars, hplace, hvars, fun last => ?_⟩
  rw [matMulBody_eq, append_assoc, hrun, run?, foldlM_append, hsum]
  simp

/-- An invocation of a product of integers without a bias writes the sum that the host computes for its element. -/
theorem invokeWith?_product (hstorage : kernel.storage = productStorage (wordType signed))
    (hbody : kernel.body = matMulBody (wordType signed) false ++ [storeOut (matMulResult (wordType signed) false false)])
    {block : List UInt8} {place : UInt32}
    (hgiven : Given (.ofNames (kernel.names block place)) m k n ((b * m + i) * n + j))
    (hfresh : ∀ w ∈ productBindings.map Prod.fst ++ ["sum", "p"], (kernel.names block place).lookup w = none)
    (hout : place.toNat < (memory 2).size) :
    kernel.invokeWith? block memory place = some (memory.set 2 place.toNat (.ofElement
      (integerDot (.apart lhs) (.apart rhs) #[] ((b * m + i) * k) (b * k * n + j) k n))) := by
  have htype : wordType signed ∈ scalarTypes := by cases signed <;> decide
  have hoperands : Operands kernel.storage (wordType signed) := by
    rw [hstorage]
    exact ⟨rfl, rfl⟩
  obtain ⟨names, vars, hplace, hvars, hrun⟩ := exists_run?_product h hlhs hrhs hlhsSize hrhsSize hoperands hgiven hfresh
  -- the sum is written where the number of the invocation says
  have hindex : Scope.eval? kernel.storage ⟨memory, names, vars⟩ idx = some (.u32 place) := by
    rw [Scope.eval?, idx, Expr.eval?, Scope.lookup_visible (hvars.other (by decide)), hplace]
  have hvalue : Scope.eval? kernel.storage ⟨memory, names, vars⟩ (matMulResult (wordType signed) false false) =
      some (.ofElement (integerDot (.apart lhs) (.apart rhs) #[] ((b * m + i) * k) (b * k * n + j) k n)) := by
    show (Scope.eval? kernel.storage ⟨memory, names, vars⟩ (.var "sum")).bind (Word.convert? (wordType signed)) = _
    rw [hvars.eval?_sum, bind_some, convert?_ofElement]
  have hstore := Scope.store?_eq (b := ⟨2, true, "out", wordType signed⟩) (by rw [hstorage]; rfl) hindex hvalue rfl
    (type_ofElement _).symm hout
  rw [Kernel.invokeWith?, readStmts_product htype hbody, bind_some, hbody, hrun, storeOut, Stmt.run?, hstore]
  rfl

end Integers

/-! ## Kernels -/

section Kernels

variable {batch m k n b i j modulus : Nat} {signed : Bool}

theorem exists_matMulKernel {dtype : DType} (hdtype : dtype ∈ deviceTypes) (hasBias : Bool) (workgroupSize : Int) :
    ∃ kernel t, ScalarType.ofDType? dtype = some t ∧ matMulKernel dtype hasBias workgroupSize = .ok kernel ∧
      (∃ slot, kernel.params = matMulParams slot) ∧ (hasBias = false → kernel.storage = productStorage t) ∧
      kernel.body = matMulBody t (dtype == .float32) ++ [storeOut (matMulResult t (dtype == .float32) hasBias)] := by
  obtain ⟨t, ht⟩ := exists_scalarType_iff.mpr hdtype
  rw [matMulKernel, ht]
  refine ⟨_, t, scalarType_eq_ok_iff.mp ht, rfl, ⟨_, rfl⟩, ?_, rfl⟩
  rintro rfl
  rfl

theorem given_names {slot : Int} (hparams : kernel.params = matMulParams slot) (hm : m < 4294967296)
    (hk : k < 4294967296) (hn : n < 4294967296) (stride : UInt32) (alpha beta : Double) (place : UInt32) :
    Given (.ofNames (kernel.names (encode (MatMulSizes.params ⟨batch, m, k, n⟩ stride alpha beta)) place)) m k n
      place.toNat := by
  have hword : ∀ a : Nat, a < 4294967296 → (word a).toNat = a := by
    intro a ha
    rw [word_toNat (by omega) (by omega), Int.toNat_natCast]
  rw [Kernel.names, hparams, names_matMulParams]
  exact ⟨congrArg some (hword m hm), congrArg some (hword k hk), congrArg some (hword n hn), rfl⟩

theorem lookup_names_eq_none {slot : Int} (hparams : kernel.params = matMulParams slot) (d : MatMulSizes)
    (stride : UInt32) (alpha beta : Double) (place : UInt32) :
    ∀ w ∈ productBindings.map Prod.fst ++ ["sum", "p"],
      (kernel.names (encode (d.params stride alpha beta)) place).lookup w = none := by
  rw [Kernel.names, hparams, names_matMulParams]
  simp only [productBindings, map_cons, map_nil, cons_append, nil_append, forall_mem_cons]
  exact ⟨rfl, rfl, rfl, rfl, rfl, rfl, rfl, rfl, fun w hw => absurd hw not_mem_nil⟩

theorem toNat_rowMajor (a b c x y z : Nat) : (rowMajor [(a : Int), b, c] [(x : Int), y, z]).toNat = (x * b + y) * c + z := by
  have hplace : rowMajor [(a : Int), b, c] [(x : Int), y, z] = (((x * b + y) * c + z : Nat) : Int) := by
    rw [rowMajor_three]
    rfl
  rw [hplace, Int.toNat_natCast]

theorem exists_located {place : Nat} (hplace : place < batch * m * n) (hk : 0 < k) (hout : Fits modulus (batch * m * n))
    (hlhs : Fits modulus (batch * m * k)) (hrhs : Fits modulus (batch * k * n)) :
    ∃ b i j, Located modulus batch m k n b i j ∧ (b * m + i) * n + j = place := by
  have hn : 0 < n := Nat.pos_of_ne_zero fun hzero => by simp [hzero] at hplace
  have hm : 0 < m := Nat.pos_of_ne_zero fun hzero => by simp [hzero] at hplace
  have hrow : place / n < batch * m := Nat.div_lt_of_lt_mul (by rwa [Nat.mul_comm])
  have hb : place / n / m < batch := Nat.div_lt_of_lt_mul (by rwa [Nat.mul_comm])
  refine ⟨place / n / m, place / n % m, place % n,
    ⟨hb, Nat.mod_lt _ hm, Nat.mod_lt _ hn, hk, hout, hlhs, hrhs⟩, ?_⟩
  rw [Nat.div_add_mod', Nat.div_add_mod']

theorem accesses?_product (h : Located modulus batch m k n b i j) {t : ScalarType} (ht : t ∈ scalarTypes)
    {isFloat hasBias : Bool} (hbody : kernel.body = matMulBody t isFloat ++ [storeOut (matMulResult t isFloat hasBias)])
    {names : Names} (hgiven : Given (.ofNames names) m k n ((b * m + i) * n + j)) :
    kernel.accesses? modulus names = some ((range k).flatMap (factorReads m k n b i j) ++
      (if hasBias then [.read "bias" ((b * m + i) * n + j)] else []) ++ [.write "out" ((b * m + i) * n + j)]) := by
  rw [Kernel.accesses?, readStmts_product ht hbody, hbody]
  exact traceStmts?_product h hgiven t isFloat hasBias

theorem factorReads_eq (batch m k n b i j p : Nat) : factorReads m k n b i j p =
    [.read "lhs" (rowMajor [(batch : Int), m, k] [(b : Int), i, p]).toNat,
      .read "rhs" (rowMajor [(batch : Int), k, n] [(b : Int), p, j]).toNat] := by
  have hright : b * k * n + j + p * n = (b * k + p) * n + j := by ring
  rw [toNat_rowMajor, toNat_rowMajor, factorReads, hright]

/-- What the host writes for a sum: with coefficients the old element counts as well. -/
def combined {f : IntFormat} (coefficients : Option (IntWord f × IntWord f)) (old sum : IntWord f) : IntWord f :=
  coefficients.elim sum fun (alpha, beta) => (alpha.mul old).add (beta.mul sum)

theorem elementOf_eq_combined {lhs rhs : Array (IntWord ⟨32, signed⟩)} (h : Located modulus batch m k n b i j)
    (hlhsSize : lhs.size = batch * m * k) (hrhsSize : rhs.size = batch * k * n) (hlhs : (lhs.size : Int) < wordLimit)
    (hrhs : (rhs.size : Int) < wordLimit) (coefficients : Option (IntWord ⟨32, signed⟩ × IntWord ⟨32, signed⟩))
    (old : IntWord ⟨32, signed⟩) :
    elementOf ⟨batch, m, k, n⟩ lhs rhs coefficients (((b * m + i) * n + j) / n) (((b * m + i) * n + j) % n) old =
      combined coefficients old (integerDot (.apart lhs) (.apart rhs) #[] ((b * m + i) * k) (b * k * n + j) k n) := by
  have hbatch : (((b * m + i : Nat) : Int) / (m : Int)) = (b : Int) := by
    rw [← Int.natCast_ediv, div_place b h.row_lt]
  -- the blocks of both operands start where the exact products say
  have hlhsStart : blockStart ((b * m + i : Nat) : Int) (k : Int) = (b * m + i) * k := by
    have hle : ((b * m + i + 1) * k : Nat) ≤ lhs.size := by
      rw [hlhsSize]
      exact Nat.mul_le_mul_right k h.row_lt'
    apply Int.ofNat.inj
    show (blockStart ((b * m + i : Nat) : Int) (k : Int) : Int) = (((b * m + i) * k : Nat) : Int)
    rw [blockStart_eq (Int.natCast_nonneg _) (Int.natCast_nonneg _) (by exact_mod_cast hle) hlhs]
    rfl
  have hrhsStart : blockStart (b : Int) ((k : Int) * (n : Int)) = b * k * n := by
    have hle : ((b + 1) * (k * n) : Nat) ≤ rhs.size := by
      rw [hrhsSize, Nat.mul_assoc]
      exact Nat.mul_le_mul_right (k * n) h.batch_lt
    apply Int.ofNat.inj
    show (blockStart (b : Int) ((k : Int) * (n : Int)) : Int) = ((b * k * n : Nat) : Int)
    rw [blockStart_eq (Int.natCast_nonneg _) (Int.mul_nonneg (Int.natCast_nonneg _) (Int.natCast_nonneg _))
      (by exact_mod_cast hle) hrhs]
    push_cast
    ring
  rw [div_place _ h.col_lt, mod_place _ h.col_lt]
  unfold elementOf
  simp only [hbatch, hlhsStart, hrhsStart]
  cases coefficients <;> rfl

/-- The host writes that sum with its coefficients for each element, in whatever ranges of rows it works. -/
theorem exists_combinedElements {lhs rhs old : Array (IntWord ⟨32, signed⟩)} (hbatch : 0 < batch) (hm : 0 < m)
    (hk : 0 < k) (hn : 0 < n) (hlhsSize : lhs.size = batch * m * k) (hrhsSize : rhs.size = batch * k * n)
    (holdSize : old.size = batch * m * n) (hlhs : (lhs.size : Int) < wordLimit) (hrhs : (rhs.size : Int) < wordLimit)
    (hold : (old.size : Int) < wordLimit) (coefficients : Option (IntWord ⟨32, signed⟩ × IntWord ⟨32, signed⟩)) :
    ∃ out, (∀ ranges, Covers ranges ((batch : Int) * m).toNat →
        integerProduct ranges ⟨batch, m, k, n⟩ (.apart lhs) (.apart rhs) coefficients old = (out, none)) ∧
      ∀ {modulus b i j : Nat}, Located modulus batch m k n b i j → ∃ x, old[(b * m + i) * n + j]? = some x ∧
        out[(b * m + i) * n + j]? = some (combined coefficients x
          (integerDot (.apart lhs) (.apart rhs) #[] ((b * m + i) * k) (b * k * n + j) k n)) := by
  have hfitting : Fitting ⟨batch, m, k, n⟩ lhs.size rhs.size old.size :=
    { batch_pos := show 0 < (batch : Int) by omega
      m_pos := show 0 < (m : Int) by omega
      k_pos := show 0 < (k : Int) by omega
      n_pos := show 0 < (n : Int) by omega
      lhs_eq := by rw [hlhsSize]; push_cast; ring
      rhs_eq := by rw [hrhsSize]; push_cast; ring
      out_eq := by rw [holdSize]; push_cast; ring
      lhs_lt := hlhs
      rhs_lt := hrhs
      out_lt := hold }
  obtain ⟨out, -, hranges, hget⟩ := exists_integerProduct_elements hfitting coefficients
  refine ⟨out, hranges, fun h => ?_⟩
  have hlt := h.out_lt
  rw [← holdSize] at hlt
  have hx := Array.getElem?_eq_getElem hlt
  refine ⟨_, hx, ?_⟩
  rw [hget, hx, map_some]
  simp only [Int.toNat_natCast]
  rw [elementOf_eq_combined h hlhsSize hrhsSize hlhs hrhs]

theorem exists_hostElement {lhs rhs old : Array (IntWord ⟨32, signed⟩)} (h : Located modulus batch m k n b i j)
    (hlhsSize : lhs.size = batch * m * k) (hrhsSize : rhs.size = batch * k * n) (holdSize : old.size = batch * m * n)
    (hlhs : (lhs.size : Int) < wordLimit) (hrhs : (rhs.size : Int) < wordLimit) (hold : (old.size : Int) < wordLimit) :
    ∃ out, (∀ ranges, Covers ranges ((batch : Int) * m).toNat →
        integerProduct ranges ⟨batch, m, k, n⟩ (.apart lhs) (.apart rhs) none old = (out, none)) ∧
      out[(b * m + i) * n + j]? =
        some (integerDot (.apart lhs) (.apart rhs) #[] ((b * m + i) * k) (b * k * n + j) k n) := by
  have hbatch := h.batch_lt
  have hrow := h.row_lt
  have hcol := h.col_lt
  obtain ⟨out, hranges, helements⟩ := exists_combinedElements (show 0 < batch by omega) (show 0 < m by omega) h.inner_pos
    (show 0 < n by omega) hlhsSize hrhsSize holdSize hlhs hrhs hold none
  obtain ⟨x, -, hget⟩ := helements h
  exact ⟨out, hranges, hget⟩

end Kernels

/-- For all positive sizes of a product whose buffers have fewer than `2 ^ 32` elements, with or without a bias and for
each data type of the device: the kernel that is launched with these sizes makes the invocation of each element of the
output read, along the inner dimension, the elements of the row and of the column that belong together. The indices in
words are the exact ones, so nothing wraps around. On integers without a bias, the invocation writes the element that
the host writes in whatever ranges of rows. -/
theorem product_reads_factors (d : MatMulSizes) (hbatch : 0 < d.batch) (hm : 0 < d.m) (hk : 0 < d.k) (hn : 0 < d.n)
    (hout : d.batch * d.m * d.n < 4294967296) (hlhs : d.batch * d.m * d.k < 4294967296)
    (hrhs : d.batch * d.k * d.n < 4294967296) (dtype : DType) (hdtype : dtype ∈ deviceTypes) (hasBias : Bool)
    (workgroupSize : Int) (stride : UInt32) (alpha beta : Double) :
    ∃ kernel, matMulKernel dtype hasBias workgroupSize = .ok kernel ∧
      kernel.text = String.join (kernel.storage.map Storage.text) ++ kernel.params.text ++ kernel.entry ++
        kernel.bodyText ++ "\x7d\n" ∧
      ∀ place : UInt32, (place.toNat : Int) < d.batch * d.m * d.n → ∃ b i j : Int,
        IsIndex [d.batch, d.m, d.n] [b, i, j] ∧ rowMajor [d.batch, d.m, d.n] [b, i, j] = place.toNat ∧
        (∀ modulus ∈ [wordModulus, 0],
          kernel.accesses? modulus (kernel.names (encode (d.params stride alpha beta)) place) = some
            ((List.range d.k.toNat).flatMap (fun p => [.read "lhs" (rowMajor [d.batch, d.m, d.k] [b, i, p]).toNat,
              .read "rhs" (rowMajor [d.batch, d.k, d.n] [b, p, j]).toNat]) ++
            (if hasBias then [.read "bias" place.toNat] else []) ++ [.write "out" place.toNat])) ∧
        ∀ signed, dtype = wordDType signed → hasBias = false → ∀ lhs rhs old : Array (IntWord ⟨32, signed⟩),
          (lhs.size : Int) = d.batch * d.m * d.k → (rhs.size : Int) = d.batch * d.k * d.n →
          (old.size : Int) = d.batch * d.m * d.n →
          ∃ (out : Array (IntWord ⟨32, signed⟩)) (y : IntWord ⟨32, signed⟩),
            (∀ ranges, Covers ranges (d.batch * d.m).toNat → integerProduct ranges ⟨d.batch, d.m, d.k, d.n⟩ (.apart lhs)
              (.apart rhs) none old = (out, none)) ∧
            out[place.toNat]? = some y ∧
            ∀ memory : Memory, memory 0 = lhs.map .ofElement → memory 1 = rhs.map .ofElement →
              (memory 2).size = old.size → kernel.invokeWith? (encode (d.params stride alpha beta)) memory place =
                some (memory.set 2 place.toNat (.ofElement y)) := by
  obtain ⟨kernel, t, ht, hkernel, ⟨slot, hparams⟩, hstorage, hbody⟩ := exists_matMulKernel hdtype hasBias workgroupSize
  refine ⟨kernel, hkernel, rfl, fun place hplace => ?_⟩
  obtain ⟨batch, m, k, n⟩ := d
  dsimp only at *
  obtain ⟨batch, rfl⟩ := Int.eq_ofNat_of_zero_le (Int.le_of_lt hbatch)
  obtain ⟨m, rfl⟩ := Int.eq_ofNat_of_zero_le (Int.le_of_lt hm)
  obtain ⟨k, rfl⟩ := Int.eq_ofNat_of_zero_le (Int.le_of_lt hk)
  obtain ⟨n, rfl⟩ := Int.eq_ofNat_of_zero_le (Int.le_of_lt hn)
  have hout' : batch * m * n < 4294967296 := by exact_mod_cast hout
  have hlhs' : batch * m * k < 4294967296 := by exact_mod_cast hlhs
  have hrhs' : batch * k * n < 4294967296 := by exact_mod_cast hrhs
  have hplace' : place.toNat < batch * m * n := by exact_mod_cast hplace
  have hout_fits : Fits wordModulus (batch * m * n) := .inr hout'
  -- the coordinates of the place, which are the same in words and without wrapping around
  obtain ⟨b, i, j, hword, hcoordinates⟩ := exists_located hplace' (show 0 < k by omega) hout_fits (.inr hlhs') (.inr hrhs')
  have hexact : Located 0 batch m k n b i j :=
    ⟨hword.batch_lt, hword.row_lt, hword.col_lt, hword.inner_pos, .inl rfl, .inl rfl, .inl rfl⟩
  obtain ⟨hm_le, hk_le, hn_le⟩ := hword.sizes_le
  have hgiven : Given (.ofNames (kernel.names (encode (MatMulSizes.params ⟨batch, m, k, n⟩ stride alpha beta)) place))
      m k n place.toNat := given_names hparams (by omega) (by omega) (by omega) stride alpha beta place
  have hfresh := lookup_names_eq_none hparams ⟨batch, m, k, n⟩ stride alpha beta place
  rw [← hcoordinates] at hgiven ⊢
  refine ⟨b, i, j, ?_, ?_, ?_, ?_⟩
  · have hb := hword.batch_lt
    have hi := hword.row_lt
    have hj := hword.col_lt
    exact .cons (by omega) (.cons (by omega) (.cons (by omega) .nil))
  · rw [rowMajor_three]
    push_cast
    rfl
  · intro modulus hmodulus
    have hlocated : Located modulus batch m k n b i j := by
      simp only [List.mem_cons, List.not_mem_nil, or_false] at hmodulus
      rcases hmodulus with rfl | rfl
      · exact hword
      · exact hexact
    have hreads : factorReads m k n b i j = fun p => _ := funext (factorReads_eq batch m k n b i j)
    rw [accesses?_product hlocated (mem_scalarTypes ht) hbody hgiven, hreads, Int.toNat_natCast]
  · rintro signed rfl rfl lhs rhs old hlhsSize hrhsSize holdSize
    obtain rfl : wordType signed = t := by cases signed <;> exact Option.some.inj ht
    have hinteger : (wordDType signed == .float32) = false := by cases signed <;> rfl
    rw [hinteger] at hbody
    have hlhsSize' : lhs.size = batch * m * k := by exact_mod_cast hlhsSize
    have hrhsSize' : rhs.size = batch * k * n := by exact_mod_cast hrhsSize
    have holdSize' : old.size = batch * m * n := by exact_mod_cast holdSize
    obtain ⟨out, hranges, hy⟩ := exists_hostElement hword hlhsSize' hrhsSize' holdSize' (by unfold wordLimit; omega)
      (by unfold wordLimit; omega) (by unfold wordLimit; omega)
    refine ⟨out, _, hranges, hy, fun memory hlhsMemory hrhsMemory houtMemory => ?_⟩
    have hsize : place.toNat < (memory 2).size := by omega
    have hinvoke := invokeWith?_product hword hlhsMemory hrhsMemory hlhsSize' hrhsSize' (hstorage rfl) hbody hgiven
      hfresh hsize
    rw [← hcoordinates] at hinvoke
    exact hinvoke

/-- The last element of a batch of two products: `3 * 5 + 4294967295 * 7` is `8` in words. -/
theorem product_reads_factors_last :
    let d : MatMulSizes := ⟨2, 1, 2, 2⟩
    let block := encode (d.params 64 (.ofInt 1) (.ofInt 1))
    let lhs : Array (IntWord ⟨32, false⟩) := #[.ofInt 1, .ofInt 2, .ofInt 3, .ofInt (-1)]
    let rhs : Array (IntWord ⟨32, false⟩) :=
      #[.ofInt 0, .ofInt 1, .ofInt 2, .ofInt 3, .ofInt 4, .ofInt 5, .ofInt 6, .ofInt 7]
    let memory : Memory := fun slot => if slot = 0 then lhs.map .ofElement else if slot = 1 then rhs.map .ofElement
      else #[.u32 0, .u32 0, .u32 0, .u32 0]
    ∃ kernel, matMulKernel .uint32 false 64 = .ok kernel ∧
      kernel.accesses? wordModulus (kernel.names block 3) =
        some [.read "lhs" 2, .read "rhs" 5, .read "lhs" 3, .read "rhs" 7, .write "out" 3] ∧
      kernel.invokeWith? block memory 3 = some (memory.set 2 3 (.u32 8)) := by
  intro d block lhs rhs memory
  obtain ⟨kernel, hkernel, -, hplaces⟩ := product_reads_factors d (by decide) (by decide) (by decide) (by decide)
    (by decide) (by decide) (by decide) .uint32 (by decide) false 64 64 (.ofInt 1) (.ofInt 1)
  obtain ⟨b, i, j, hindex, hplace, haccesses, hvalue⟩ := hplaces 3 (by decide)
  obtain _ | ⟨⟨hb, hb'⟩, _ | ⟨⟨hi, hi'⟩, _ | ⟨⟨hj, hj'⟩, _⟩⟩⟩ := hindex
  rw [rowMajor_three] at hplace
  have hcoordinates : b = 1 ∧ i = 0 ∧ j = 1 := by
    simp only [d] at hb' hi' hj' hplace
    have hthree : ((3 : UInt32).toNat : Int) = 3 := rfl
    omega
  obtain ⟨rfl, rfl, rfl⟩ := hcoordinates
  refine ⟨kernel, hkernel, haccesses wordModulus (by simp), ?_⟩
  obtain ⟨out, y, hranges, hy, hinvoke⟩ := hvalue false rfl rfl lhs rhs #[.zero, .zero, .zero, .zero] rfl rfl rfl
  have hcovers : Covers [⟨0, 2⟩] 2 := by
    exact ⟨⟨by simp, by simp⟩, fun r hr => ⟨⟨0, 2⟩, by simp, by simp, hr⟩⟩
  have hrun : integerProduct [⟨0, 2⟩] ⟨2, 1, 2, 2⟩ (.apart lhs) (.apart rhs) none #[.zero, .zero, .zero, .zero] =
      (#[.ofInt 4, .ofInt 7, .ofInt 6, .ofInt 8], none) := by decide +kernel
  obtain rfl : #[.ofInt 4, .ofInt 7, .ofInt 6, .ofInt 8] = out :=
    congrArg Prod.fst (hrun.symm.trans (hranges [⟨0, 2⟩] hcovers))
  obtain rfl : .ofInt 8 = y := Option.some.inj hy
  exact hinvoke memory rfl rfl rfl

end Shader

end LazyTensor
