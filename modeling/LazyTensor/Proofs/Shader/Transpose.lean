import LazyTensor.Proofs.Host.Transpose
import LazyTensor.Proofs.Shader.Access
import LazyTensor.Proofs.Shader.Launch

/-!
# Transpositions on the device

The kernel of a transposition takes the number of the invocation apart, axis by axis, and adds up how far each
coordinate moves the index of the operand. The same coordinates and strides lead the cursor of the host through the
operand, so both read the same element for every element of the output. No sum on the way is beyond the last element of
the operand, and so none of them wraps around.
-/

namespace LazyTensor

open List Option

open Kernel

theorem Kernel.Cursor.iterate_next_start {dims strides : List Int} (hpos : ∀ d ∈ dims, 0 < d) (i n : Nat) :
    next^[n] (start dims strides i) = start dims strides (i + n) := by
  induction n with
  | zero => rfl
  | succ n ih => rw [Function.iterate_succ_apply', ih, next_start hpos, Nat.add_assoc]

namespace Shader

/-! ## Axes -/

section Axes

variable {modulus : Nat} {known : Known} {t : Trace}

theorem index?_literal {n : Nat} (h : n < 4294967296) : (Expr.unsigned n).index? modulus known = some n := by
  have hliteral : 0 ≤ (n : Int) ∧ (n : Int) < 4294967296 := by omega
  rw [Expr.index?, if_pos hliteral, Int.toNat_natCast]

theorem trace?_assign_src {dim stride rem src : Nat} (hdim : 0 < dim) (hdim' : dim < 4294967296)
    (hstride : stride < 4294967296) (hrem : t.known "rem" = some rem) (hsrc : t.known "src" = some src)
    (hfits : Fits modulus (src + rem % dim * stride)) :
    (Stmt.assign "src" (.binary .add (.var "src") (.binary .mul (.paren (.binary .rem (.var "rem") (.unsigned dim)))
      (.unsigned stride)))).trace? modulus t =
      some { t with known := t.known.set "src" (some (src + rem % dim * stride)) } := by
  have hcoordinate : (Expr.paren (.binary .rem (.var "rem") (.unsigned dim))).index? modulus t.known =
      some (rem % dim) := index?_rem hrem (index?_literal hdim') hdim
  have hproduct := index?_mul hcoordinate (index?_literal hstride) (hfits.mono (Nat.le_add_left _ _))
  exact Trace.give?_of_index? (index?_add hsrc hproduct hfits)

theorem trace?_assign_rem {dim rem : Nat} (hdim : 0 < dim) (hdim' : dim < 4294967296)
    (hrem : t.known "rem" = some rem) :
    (Stmt.assign "rem" (.binary .div (.var "rem") (.unsigned dim))).trace? modulus t =
      some { t with known := t.known.set "rem" (some (rem / dim)) } :=
  Trace.give?_of_index? (index?_div hrem (index?_literal hdim') hdim)

/-- The updates for one axis. On the last one what is left of the index stays as it is. -/
theorem exists_traceStmts?_axisStmts {dim stride rem src : Nat} (hdim : 0 < dim) (hdim' : dim < 4294967296)
    (hstride : stride < 4294967296) (hrem : t.known "rem" = some rem) (hsrc : t.known "src" = some src)
    (hfits : Fits modulus (src + rem % dim * stride)) (last : Bool) :
    ∃ (known : Known) (rest : Nat), traceStmts? modulus (axisStmts dim stride last) t = some ⟨known, t.accesses⟩ ∧
      known "src" = some (src + rem % dim * stride) ∧ known "rem" = some rest ∧ (last = false → rest = rem / dim) ∧
      ∀ w, w ≠ "src" → w ≠ "rem" → known w = t.known w := by
  have hassign := trace?_assign_src hdim hdim' hstride hrem hsrc hfits
  have hkept : t.known.set "src" (some (src + rem % dim * stride)) "rem" = some rem := by
    rw [Known.set_of_ne _ (by decide), hrem]
  -- the last axis takes what remains, and does not divide it again
  cases last with
  | true =>
    refine ⟨_, rem, ?_, Known.set_self .., hkept, (fun h => by cases h), fun w hw _ => Known.set_of_ne _ hw _⟩
    rw [axisStmts, traceStmts?_cons, hassign]
    rfl
  | false =>
    have hdivide : (Stmt.assign "rem" (.binary .div (.var "rem") (.unsigned dim))).trace? modulus
        { t with known := t.known.set "src" (some (src + rem % dim * stride)) } = _ :=
      trace?_assign_rem hdim hdim' hkept
    refine ⟨(t.known.set "src" (some (src + rem % dim * stride))).set "rem" (some (rem / dim)), rem / dim, ?_, ?_,
      Known.set_self .., fun _ => rfl, fun w hw hw' => ?_⟩
    · rw [axisStmts, traceStmts?_cons, hassign]
      show traceStmts? modulus [.assign "rem" _] _ = _
      rw [traceStmts?_cons, hdivide]
      rfl
    · rw [Known.set_of_ne _ (by decide), Known.set_self]
    · rw [Known.set_of_ne _ hw', Known.set_of_ne _ hw]

/-- The updates for all axes add up how far the coordinates of the index move the index of the operand. -/
theorem exists_traceStmts?_transposeStmts {axes : List (Int × Int)} (hdims : ∀ a ∈ axes, 0 < a.1 ∧ a.1 < 4294967296)
    (hstrides : ∀ a ∈ axes, 0 ≤ a.2 ∧ a.2 < 4294967296) {rem src : Nat} (hrem : t.known "rem" = some rem)
    (hsrc : t.known "src" = some src) {limit : Nat}
    (hlimit : (src : Int) + (axes.map fun a => (a.1 - 1) * a.2).sum ≤ limit) (hfits : Fits modulus limit) :
    ∃ (known : Known) (n : Nat), traceStmts? modulus (transposeStmts axes) t = some ⟨known, t.accesses⟩ ∧
      known "src" = some n ∧ (n : Int) = src + Cursor.offset (Cursor.axesAt axes rem) ∧
      ∀ w, w ≠ "src" → w ≠ "rem" → known w = t.known w := by
  induction axes generalizing t rem src with
  | nil => exact ⟨t.known, src, rfl, hsrc, by simp [Cursor.axesAt, Cursor.offset], fun _ _ _ => rfl⟩
  | cons a axes ih =>
    obtain ⟨dim, stride⟩ := a
    obtain ⟨hdim, hdim'⟩ : 0 < dim ∧ dim < 4294967296 := hdims (dim, stride) (.head _)
    obtain ⟨hstride, hstride'⟩ : 0 ≤ stride ∧ stride < 4294967296 := hstrides (dim, stride) (.head _)
    obtain ⟨d, rfl⟩ := Int.eq_ofNat_of_zero_le (Int.le_of_lt hdim)
    obtain ⟨s, rfl⟩ := Int.eq_ofNat_of_zero_le hstride
    have hdims' : ∀ a ∈ axes, 0 < a.1 ∧ a.1 < 4294967296 := fun a ha => hdims a (.tail _ ha)
    have hstrides' : ∀ a ∈ axes, 0 ≤ a.2 ∧ a.2 < 4294967296 := fun a ha => hstrides a (.tail _ ha)
    -- the other axes only move the index on
    have hrest : 0 ≤ (axes.map fun a => (a.1 - 1) * a.2).sum := by
      have hbounds := Cursor.offset_bounds (fun a ha => (hdims' a ha).1) (fun a ha => (hstrides' a ha).1) (Int.le_refl 0)
      omega
    have hterm : ((rem % d * s : Nat) : Int) ≤ ((d : Int) - 1) * s := by
      have hlt := Nat.mod_lt rem (show 0 < d by omega)
      rw [Int.natCast_mul]
      exact Int.mul_le_mul_of_nonneg_right (by omega) (by omega)
    rw [map_cons, sum_cons] at hlimit
    dsimp only at hlimit
    have hnext : ((src + rem % d * s : Nat) : Int) + (axes.map fun a => (a.1 - 1) * a.2).sum ≤ limit := by
      omega
    obtain ⟨known, rest, haxis, hsrc', hrem', hdivided, hframe⟩ := exists_traceStmts?_axisStmts (show 0 < d by omega)
      (by omega) (show s < 4294967296 by omega) hrem hsrc (hfits.mono (by omega)) axes.isEmpty
    obtain ⟨known', n, haxes, hn, hsum, hframe'⟩ := ih (t := ⟨known, t.accesses⟩) hdims' hstrides' hrem' hsrc' hnext
    -- after the last axis it does not matter what is left of the index
    have hrest' : Cursor.offset (Cursor.axesAt axes rest) =
        Cursor.offset (Cursor.axesAt axes ((rem / d : Nat) : Int)) := by
      cases axes with
      | nil => rfl
      | cons a axes => rw [hdivided rfl]
    refine ⟨known', n, ?_, hn, ?_, fun w hw hw' => ?_⟩
    · rw [transposeStmts, traceStmts?_append, haxis, bind_some, haxes]
    · rw [Cursor.offset_axesAt_cons, ← Int.ofNat_tmod, ← Int.ofNat_tdiv]
      omega
    · rw [hframe' w hw hw']
      exact hframe w hw hw'

end Axes

/-! ## Kernels -/

section Kernel

variable {x output : Shape} {permutation strides : List Int} {workgroupSize : Int}

/-- The axes of the kernel are those of the output with the strides of the host, the last one first. -/
theorem permutedAxes?_eq (h : x.Permuted permutation output)
    (hstrides : Reorders permutation (Shape.stridesOf x.dims) strides) :
    permutedAxes? x permutation = some (output.dims.zip strides).reverse := by
  rw [permutedAxes?, mapM_eq_some_iff, map_reverse, map_reverse]
  congr 1
  refine ext_getElem? fun a => ?_
  rw [getElem?_map, getElem?_map]
  -- both lists have an entry for each axis that the permutation names
  cases ha : permutation[a]? with
  | none =>
    have hlength := h.reorders.length_eq
    rw [List.getElem?_eq_none_iff] at ha
    rw [getElem?_eq_none (by rw [length_zip]; omega)]
    rfl
  | some axis =>
    obtain ⟨n, -, rfl⟩ := List.mem_map.mp (h.axes.mem_iff.mp (mem_of_getElem? ha))
    have hlt : a < permutation.length := (List.getElem?_eq_some_iff.mp ha).1
    obtain ⟨dim, hdim⟩ : ∃ dim, output.dims[a]? = some dim :=
      ⟨_, getElem?_eq_getElem (by rwa [h.reorders.length_eq])⟩
    obtain ⟨stride, hstride⟩ : ∃ stride, strides[a]? = some stride :=
      ⟨_, getElem?_eq_getElem (by rwa [hstrides.length_eq])⟩
    have hdim' : x.dims[n]? = some dim := (h.reorders.getElem?_eq ha).symm.trans hdim
    have hstride' : x.strides[n]? = some stride := (hstrides.getElem?_eq ha).symm.trans hstride
    have hzip : (output.dims.zip strides)[a]? = some (dim, stride) :=
      getElem?_zip_eq_some.mpr ⟨hdim, hstride⟩
    rw [hzip]
    simp [hdim', hstride']

theorem exists_transposeKernel (h : x.Permuted permutation output)
    (hstrides : Reorders permutation (Shape.stridesOf x.dims) strides) (hdtype : x.dtype ∈ deviceTypes) :
    ∃ k, transposeKernel x permutation workgroupSize = .ok k ∧
      k.body = [.declare "rem" none idx, .declare "src" none (.unsigned 0)] ++
        transposeStmts (output.dims.zip strides).reverse ++ [storeOut (.element "in0" (.var "src"))] := by
  obtain ⟨t, ht⟩ := exists_scalarType_iff.mpr hdtype
  have hlength : permutation.length = x.rank := (isPermutation_iff.mpr h.axes).1
  rw [transposeKernel, ht]
  simp only [hlength, permutedAxes?_eq h hstrides, ne_eq]
  exact ⟨_, rfl, rfl⟩

theorem readable_transposeStmts {axes : List (Int × Int)} (h : ∀ a ∈ axes, 0 ≤ a.1 ∧ 0 ≤ a.2) :
    ∀ s ∈ transposeStmts axes, s.Readable := by
  induction axes with
  | nil => exact fun s hs => absurd hs not_mem_nil
  | cons a axes ih =>
    obtain ⟨dim, stride⟩ := a
    obtain ⟨hdim, hstride⟩ : 0 ≤ dim ∧ 0 ≤ stride := h (dim, stride) (.head _)
    have htail := ih fun a ha => h a (.tail _ ha)
    intro s hs
    rcases mem_append.mp hs with hs | hs
    · rcases mem_cons.mp hs with rfl | hs
      · simp [Stmt.Readable, Expr.Readable, hdim, hstride]
        decide
      · split at hs
        · cases hs
        · obtain rfl := mem_singleton.mp hs
          simp [Stmt.Readable, Expr.Readable, hdim]
          decide
    · exact htail s hs

variable (h : x.Permuted permutation output) (hstrides : Reorders permutation (Shape.stridesOf x.dims) strides) (hpos : ∀ d ∈ x.dims, 0 < d)

include h hstrides hpos

theorem sum_last_permuted (hsmall : x.dims.prod < wordLimit) :
    ((output.dims.zip strides).reverse.map fun a => (a.1 - 1) * a.2).sum = x.dims.prod - 1 := by
  obtain ⟨hlength, hperm⟩ := isPermutation_iff.mpr h.axes
  rw [map_reverse, sum_reverse, h.reorders.eq_map, hstrides.eq_map, ← Shape.sum_last hpos hsmall]
  exact Operation.sum_last_permuted hlength hperm

theorem bounds_of_mem_axes (hsmall : x.dims.prod < 4294967296) :
    ∀ a ∈ (output.dims.zip strides).reverse, (0 < a.1 ∧ a.1 < 4294967296) ∧ (0 ≤ a.2 ∧ a.2 < 4294967296) := by
  have hlimit : x.dims.prod < wordLimit := by
    unfold wordLimit
    omega
  have hperm : strides.Perm (Shape.stridesOf x.dims) := hstrides.perm h.perm_axes (Shape.length_stridesOf x.dims)
  intro a ha
  obtain ⟨hdim, hstride⟩ := of_mem_zip (mem_reverse.mp ha)
  have hdim' := h.perm_dims.mem_iff.mp hdim
  have hstride' := hperm.mem_iff.mp hstride
  have hdimPos := hpos a.1 hdim'
  have hdimLe := le_prod hpos hdim'
  have hstridePos := Shape.strides_pos hpos hlimit a.2 hstride'
  have hstrideLe := Shape.strides_le hpos hlimit a.2 hstride'
  omega

/-- An invocation reads one element of the operand, at the index that the updates add up to, and writes it. -/
theorem exists_accesses?_transpose (hsmall : x.dims.prod < 4294967296) {k : Kernel}
    (hbody : k.body = [.declare "rem" none idx, .declare "src" none (.unsigned 0)] ++
      transposeStmts (output.dims.zip strides).reverse ++ [storeOut (.element "in0" (.var "src"))])
    (block : List UInt8) (i : UInt32) {modulus : Nat} (hfits : Fits modulus (x.dims.prod - 1).toNat) :
    ∃ n : Nat, (n : Int) = Cursor.offset (Cursor.axesAt (output.dims.zip strides).reverse i.toNat) ∧
      k.accesses? modulus (k.names block i) = some [.read "in0" n, .write "out" i.toNat] := by
  have hbounds := bounds_of_mem_axes h hstrides hpos hsmall
  have hread : readStmts k.bodyText = some k.body := by
    apply readStmts_text
    intro s hs
    rw [hbody, append_assoc] at hs
    rcases mem_append.mp hs with hs | hs
    · have hdeclared : ∀ s ∈ [Stmt.declare "rem" none idx, .declare "src" none (.unsigned 0)], s.Readable := by
        simp [Stmt.Readable, Expr.Readable, idx]
        decide
      exact hdeclared s hs
    · rcases mem_append.mp hs with hs | hs
      · refine readable_transposeStmts (fun a ha => ?_) s hs
        have := hbounds a ha
        omega
      · obtain rfl := mem_singleton.mp hs
        exact ⟨rfl, rfl, rfl, rfl⟩
  let known := ((Known.ofNames (k.names block i)).set "rem" (some i.toNat)).set "src" (some 0)
  have hidx : Known.ofNames (k.names block i) "idx" = some i.toNat := by
    simp [Known.ofNames, Kernel.names]
  have hindex : idx.index? modulus (Known.ofNames (k.names block i)) = some i.toNat := hidx
  have hdeclared : traceStmts? modulus [.declare "rem" none idx, .declare "src" none (.unsigned 0)]
      ⟨.ofNames (k.names block i), []⟩ = some ⟨known, []⟩ := by
    have hrem : (Stmt.declare "rem" none idx).trace? modulus ⟨.ofNames (k.names block i), []⟩ =
        some ⟨(Known.ofNames (k.names block i)).set "rem" (some i.toNat), []⟩ :=
      Trace.give?_of_index? (t := ⟨.ofNames (k.names block i), []⟩) hindex
    have hsrc : (Stmt.declare "src" none (.unsigned 0)).trace? modulus
        ⟨(Known.ofNames (k.names block i)).set "rem" (some i.toNat), []⟩ = some ⟨known, []⟩ :=
      Trace.give?_of_index? (index?_literal (n := 0) (by decide))
    rfl
  -- the last place bounds all sums on the way, so none of them wraps around
  have hlast := sum_last_permuted h hstrides hpos (by unfold wordLimit; omega)
  have hrem : known "rem" = some i.toNat := rfl
  have hzero : known "src" = some 0 := rfl
  have hlimit : ((0 : Nat) : Int) + ((output.dims.zip strides).reverse.map fun a => (a.1 - 1) * a.2).sum ≤
      ((x.dims.prod - 1).toNat : Int) := by omega
  obtain ⟨known', n, haxes, hsrc, hn, hframe⟩ := exists_traceStmts?_transposeStmts (t := ⟨known, []⟩)
    (fun a ha => (hbounds a ha).1) (fun a ha => (hbounds a ha).2) hrem hzero hlimit hfits
  refine ⟨n, by omega, ?_⟩
  have hstore : (storeOut (.element "in0" (.var "src"))).trace? modulus ⟨known', []⟩ =
      some ⟨known', [.read "in0" n, .write "out" i.toNat]⟩ := by
    have hidx' : known' "idx" = some i.toNat := (hframe "idx" (by decide) (by decide)).trans hidx
    simp [storeOut, Stmt.trace?, Expr.reads?, Expr.index?, idx, hsrc, hidx']
  rw [Kernel.accesses?, hread, bind_some, hbody, append_assoc, traceStmts?_append, hdeclared,
    bind_some, traceStmts?_append, haxes, bind_some, traceStmts?_cons, hstore]
  rfl

end Kernel

/-- Every shape of the device with positive dimensions and fewer than `2 ^ 32` elements is transposed by any permutation
of its axes with the same source on the device and on the host. The cursor of the host, from wherever its range starts,
is at a source inside the operand when it comes to an element of the output. The statements of the kernel, in words as
in exact arithmetic, make the invocation of that element read the operand at this source and nothing else. -/
theorem transposition_reads_source (x output : Shape) (permutation : List Int)
    (hpermuted : x.Permuted permutation output) (hpos : ∀ d ∈ x.dims, 0 < d) (hsmall : x.dims.prod < 4294967296)
    (hdtype : x.dtype ∈ deviceTypes) (workgroupSize : Int) :
    ∃ (k : Kernel) (strides : List Int), transposeKernel x permutation workgroupSize = .ok k ∧
      k.text = String.join (k.storage.map Storage.text) ++ k.params.text ++ k.entry ++ k.bodyText ++ "\x7d\n" ∧
      HostM.permutedStrides permutation x = some strides ∧
      ∀ i : UInt32, (i.toNat : Int) < x.dims.prod → ∃ source : Nat, (source : Int) < x.dims.prod ∧
        (∀ start ≤ i.toNat, (Cursor.next^[i.toNat - start] (.start output.dims strides start)).source = source) ∧
        ∀ block, ∀ modulus ∈ [wordModulus, 0],
          k.accesses? modulus (k.names block i) = some [.read "in0" source, .write "out" i.toNat] := by
  obtain ⟨strides, hstrides, hreorders⟩ := HostM.exists_reordered_strides hpermuted.axes
  obtain ⟨k, hk, hbody⟩ := exists_transposeKernel hpermuted hreorders hdtype
  refine ⟨k, strides, hk, rfl, hstrides, fun i hi => ?_⟩
  have hbounds := bounds_of_mem_axes hpermuted hreorders hpos hsmall
  have hlast := sum_last_permuted hpermuted hreorders hpos (by unfold wordLimit; omega)
  obtain ⟨hlow, hhigh⟩ := Cursor.offset_bounds (fun a ha => (hbounds a ha).1.1) (fun a ha => (hbounds a ha).2.1)
    (Int.natCast_nonneg i.toNat)
  obtain ⟨source, hsource⟩ := Int.eq_ofNat_of_zero_le hlow
  refine ⟨source, by omega, fun start hstart => ?_, fun block modulus hmodulus => ?_⟩
  · -- the cursor is where the flat index is
    have houtput := pos_of_reorders hpos hpermuted.perm_axes hpermuted.reorders
    rw [Cursor.iterate_next_start houtput, Nat.add_sub_cancel' hstart, Cursor.source_start, hsource]
    exact wrap64_eq_self (by unfold wordLimit; omega) (by unfold wordLimit; omega)
  · have hfits : Fits modulus (x.dims.prod - 1).toNat := by
      simp only [List.mem_cons, List.not_mem_nil, or_false] at hmodulus
      rcases hmodulus with rfl | rfl
      · right
        unfold wordModulus
        omega
      · exact .inl rfl
    obtain ⟨n, hn, haccesses⟩ := exists_accesses?_transpose hpermuted hreorders hpos hsmall hbody block i hfits
    obtain rfl : n = source := by omega
    exact haccesses

/-- Three axes in the order third, first, second: the element of the output at `5` is that of the operand at `10`. -/
theorem transposition_reads_source_three :
    let x : Shape := ⟨.float32, [2, 3, 2]⟩
    ∃ k, transposeKernel x [2, 0, 1] 64 = .ok k ∧
      k.accesses? wordModulus (k.names [] 5) = some [.read "in0" 10, .write "out" 5] ∧
      (Cursor.next^[2] (.start [2, 2, 3] [1, 6, 2] 3)).source = 10 := by
  intro x
  obtain ⟨k, strides, hk, -, hstrides, hsource⟩ := transposition_reads_source x ⟨.float32, [2, 2, 3]⟩ [2, 0, 1]
    ⟨by decide, by decide, rfl⟩ (by decide) (by decide) (by decide) 64
  obtain rfl : [1, 6, 2] = strides := Option.some.inj hstrides
  obtain ⟨source, -, hcursor, haccesses⟩ := hsource 5 (by decide)
  have hstart : (Cursor.next^[2] (.start [2, 2, 3] [1, 6, 2] 3)).source = 10 := by decide
  obtain rfl : source = 10 := Int.ofNat.inj ((hcursor 3 (by decide)).symm.trans hstart)
  exact ⟨k, hk, haccesses [] wordModulus (by simp), hstart⟩

end Shader

end LazyTensor
