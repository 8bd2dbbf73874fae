import LazyTensor.Proofs.Invariant
import LazyTensor.Proofs.Shader.Signature
import LazyTensor.Proofs.Total
import LazyTensor.Shader.Launch
import Mathlib.Algebra.BigOperators.Group.List.Basic

/-!
# Nodes can be launched

What an operation accepts when a node is constructed or fused, its parameters and its kernel accept as well. So every
node of every graph has launch parameters, and it has a kernel exactly if its data type is one of the device's, and
for a conversion also the data type of its operand.
-/

namespace LazyTensor

open List Option

namespace Shader

variable {workgroupSize : Int} {permutation : List Int} {t : ScalarType} {dtype : DType} {x : Shape}

/-- The data types of elements on the device. -/
def deviceTypes : List DType := [.float32, .int32, .uint32]

theorem exists_scalarType_iff : (∃ t, scalarType dtype = .ok t) ↔ dtype ∈ deviceTypes := by
  constructor
  · rintro ⟨t, ht⟩
    rcases ofDType?_eq_some (scalarType_eq_ok_iff.mp ht) with ⟨rfl, -⟩ | ⟨rfl, -⟩ | ⟨rfl, -⟩ <;> decide
  · intro h
    simp only [deviceTypes, mem_cons, not_mem_nil, or_false] at h
    rcases h with rfl | rfl | rfl
    · exact ⟨.f32, rfl⟩
    · exact ⟨.i32, rfl⟩
    · exact ⟨.u32, rfl⟩

theorem exists_kernel_of_scalarType {make : ScalarType → Kernel} :
    (∃ k, (scalarType dtype >>= fun t => pure (make t)) = Except.ok k) ↔ dtype ∈ deviceTypes := by
  rw [← exists_scalarType_iff]
  constructor
  · rintro ⟨k, hk⟩
    obtain ⟨t, ht, -⟩ := bind_eq_ok hk
    exact ⟨t, ht⟩
  · rintro ⟨t, ht⟩
    exact ⟨make t, by rw [ht]; rfl⟩

theorem exists_castKernel_iff {source target : DType} :
    (∃ k, castKernel source target workgroupSize = .ok k) ↔ target ∈ deviceTypes ∧ source ∈ deviceTypes := by
  rw [← exists_scalarType_iff, ← exists_scalarType_iff]
  constructor
  · rintro ⟨k, hk⟩
    obtain ⟨s, hs, hk⟩ := bind_eq_ok hk
    obtain ⟨t, ht, -⟩ := bind_eq_ok hk
    exact ⟨⟨t, ht⟩, ⟨s, hs⟩⟩
  · rintro ⟨⟨t, ht⟩, ⟨s, hs⟩⟩
    rw [castKernel, hs, ht]
    exact ⟨_, rfl⟩

/-! ## Programs -/

theorem exists_elementwiseExpr {isFloat : Bool} {e : Elementwise} {args : List Expr} (h : args.length = e.arity) :
    ∃ expr, elementwiseExpr t isFloat e args = .ok expr := by
  cases e with
  | unary op =>
    obtain ⟨a, rfl⟩ := length_eq_one_iff.mp h
    exact ⟨_, rfl⟩
  | binary op =>
    obtain ⟨a, b, rfl⟩ := length_eq_two.mp h
    exact ⟨_, rfl⟩
  | fusedMulAdd =>
    obtain ⟨a, b, c, rfl⟩ := length_eq_three.mp h
    exact ⟨_, rfl⟩

/-- On the data types of the device, the steps of kernels and the operations of nodes are defined alike. -/
theorem stepExpr_eq {dtype : DType} {t : ScalarType} {e : Elementwise} {args : List Expr} (hdtype : dtype ∈ deviceTypes)
    (hdefined : e.DefinedFor dtype) :
    stepExpr (.elementwise e) dtype t args = elementwiseExpr t (dtype == .float32) e args := by
  simp only [deviceTypes, mem_cons, not_mem_nil, or_false] at hdtype
  have hfloat : e.floatOnly = true → dtype = .float32 := by
    intro he
    have hisFloat := hdefined.float he
    rcases hdtype with rfl | rfl | rfl
    · rfl
    · exact absurd hisFloat (by decide)
    · exact absurd hisFloat (by decide)
  have hsigned : e.signedOnly = true → dtype ≠ .uint32 := by
    rintro he rfl
    exact absurd (hdefined.signed he) (by decide)
  have hkind : (OpKind.elementwise e).floatOnly = e.floatOnly ∧ (OpKind.elementwise e).signedOnly = e.signedOnly :=
    ⟨rfl, rfl⟩
  rw [stepExpr, if_neg (by simpa [hkind.1] using hfloat), if_neg (by simpa [hkind.2] using hsigned)]

theorem exists_stepStmts {p : Program} {steps : List Step} {i : Nat}
    (h : ∀ s ∈ steps, ∃ e, stepExpr s.kind p.dtype t (s.operands.map operandExpr) = .ok e) :
    ∃ stmts, stepStmts p t i steps = .ok stmts := by
  induction steps generalizing i with
  | nil => exact ⟨[], rfl⟩
  | cons s steps ih =>
    obtain ⟨e, he⟩ := h s (by simp)
    obtain ⟨stmts, hstmts⟩ := ih (i := i + 1) fun s hs => h s (.tail _ hs)
    exact ⟨_, by rw [stepStmts, he, hstmts]; rfl⟩

theorem exists_programKernel_iff {p : Program} (hvalid : p.Valid) (hdefined : p.Defined) :
    (∃ k, programKernel p workgroupSize = .ok k) ↔ p.dtype ∈ deviceTypes := by
  constructor
  · rintro ⟨k, hk⟩
    obtain ⟨-, t, -, ht, -⟩ := programKernel_eq_ok hk
    exact exists_scalarType_iff.mp ⟨t, scalarType_eq_ok_iff.mpr ht⟩
  · intro hdtype
    obtain ⟨t, ht⟩ := exists_scalarType_iff.mpr hdtype
    have hsteps : ∀ s ∈ p.steps, ∃ e, stepExpr s.kind p.dtype t (s.operands.map operandExpr) = .ok e := by
      intro s hs
      obtain ⟨e, he, hfor⟩ := hdefined s hs
      obtain ⟨i, hi⟩ := getElem?_of_mem hs
      have harity := (hvalid.steps i s hi).arity
      rw [he] at harity ⊢
      rw [stepExpr_eq hdtype hfor]
      exact exists_elementwiseExpr (by rw [length_map, harity]; rfl)
    obtain ⟨stmts, hstmts⟩ := exists_stepStmts (i := 0) hsteps
    have hok : p.validate = .ok () := Program.validate_eq_ok_iff.mpr hvalid
    exact ⟨_, by rw [programKernel, hok, ht]; simp only [bind, Except.bind, hstmts]; rfl⟩

/-! ## Transpositions -/

theorem exists_permutedAxes (h : isPermutation x.rank permutation = true) :
    ∃ axes, permutedAxes? x permutation = some axes := by
  rw [isPermutation, Bool.and_eq_true, List.all_eq_true] at h
  refine ne_none_iff_exists'.mp fun hnone => ?_
  obtain ⟨axis, haxis, hfail⟩ := mapM_eq_none_iff.mp hnone
  have hbounds := h.1 axis (mem_reverse.mp haxis)
  simp only [Bool.and_eq_true, decide_eq_true_eq] at hbounds
  have hdims : axis.toNat < x.dims.length := by
    show axis.toNat < x.rank
    omega
  have hstrides : axis.toNat < x.strides.length := by
    rwa [Shape.strides, Shape.length_stridesOf]
  rw [if_neg (by omega), getElem?_eq_getElem hdims, getElem?_eq_getElem hstrides] at hfail
  cases hfail

theorem exists_transposeKernel_iff {x : Shape} {permutation : List Int} (hlength : permutation.length = x.rank)
    (h : isPermutation x.rank permutation = true) :
    (∃ k, transposeKernel x permutation workgroupSize = .ok k) ↔ x.dtype ∈ deviceTypes := by
  constructor
  · rintro ⟨k, hk⟩
    obtain ⟨t, ht, -⟩ := storage_transposeKernel hk
    exact exists_scalarType_iff.mp ⟨t, scalarType_eq_ok_iff.mpr ht⟩
  · intro hdtype
    obtain ⟨t, ht⟩ := exists_scalarType_iff.mpr hdtype
    obtain ⟨axes, haxes⟩ := exists_permutedAxes h
    exact ⟨_, by rw [transposeKernel, ht]; simp only [hlength, haxes, ne_eq]; rfl⟩

/-- A transposed shape has as many elements as the operand, also if their number does not fit in a word. -/
theorem size_transposed {s : Shape} (h : transposeShape x permutation = .ok s) : x.size = s.size := by
  obtain ⟨hlength, hperm, rfl⟩ := transposeShape_eq_ok h
  have hdims : x.dims = (range x.rank).map fun k => x.dims.getD k 0 := by
    refine ext_getElem (by simp [Shape.rank]) fun k hk hk' => ?_
    simp [getElem?_eq_getElem hk]
  have hpermuted : (permutation.map fun axis => x.dims.getD axis.toNat 0).Perm x.dims := by
    have hmap := (perm_range_of_isPermutation hlength hperm).map fun k => x.dims.getD k 0
    rwa [List.map_map, ← hdims] at hmap
  rw [Shape.size_eq_wrap64, Shape.size_eq_wrap64, hpermuted.prod_eq]

/-! ## Products -/

theorem exists_matMulSizes {l r s : Shape} (h : productShape l r = .ok s) :
    ∃ d, MatMulSizes.ofShapes? l r = some d := by
  rw [productShape_eq_ok_iff] at h
  cases h with
  | matrices | batches => exact ⟨_, if_pos rfl⟩

theorem otherShape?_replicate (count : Nat) (s : Shape) : otherShape? (replicate count s) s = none := by
  have hnone : (replicate count s).findIdx? (· != s) = none := by
    rw [findIdx?_eq_none_iff]
    intro t ht
    rw [eq_of_mem_replicate ht]
    simp
  rw [otherShape?, hnone]
  rfl

end Shader

/-! ## Operations -/

namespace Operation.Accepts

open Shader

variable {op : Operation} {inputs : List Shape} {output : Shape} {workgroupSize : Int}

theorem exists_launchParams (h : op.Accepts inputs output) (hsize : workgroupSize ≠ 0) :
    ∃ block, launchParams op inputs output workgroupSize = .ok block := by
  suffices hwords : ∃ words, launchWords op inputs output workgroupSize = .ok words by
    obtain ⟨words, hwords⟩ := hwords
    exact ⟨encode words, by rw [launchParams, hwords]; rfl⟩
  obtain ⟨grid, hgrid⟩ : ∃ grid, grid? output.size workgroupSize = some grid := by
    simp only [grid?, hsize, if_false]
    split <;> exact ⟨_, rfl⟩
  rw [launchWords, hgrid]
  cases h with
  | fill value => exact ⟨_, rfl⟩
  | arange start step _ hrank =>
    by_cases hintegral : isIntegral start step output.dtype = true
    · exact ⟨_, if_pos hintegral⟩
    · exact ⟨_, if_neg hintegral⟩
  | elementwise e _ hdefined | fused p count _ hdtype hvalid hdefined hcount hpos =>
    simp only [otherShape?_replicate]
    exact ⟨_, rfl⟩
  | matMul alpha beta l r _ hproduct =>
    obtain ⟨d, hd⟩ := exists_matMulSizes hproduct
    simp only [matMulWords, hd]
    exact ⟨_, rfl⟩
  | matMulBias alpha beta l r _ hproduct =>
    obtain ⟨d, hd⟩ := exists_matMulSizes hproduct
    simp only [matMulWords, hd]
    exact ⟨_, rfl⟩
  | transpose permutation x _ hshape => exact ⟨_, if_pos (size_transposed hshape)⟩
  | cast x _ hdims hdtype =>
    have hsame : x.size = output.size := by rw [Shape.size, Shape.size, hdims]
    exact ⟨_, if_pos hsame⟩

/-- Operations have a kernel for the shapes that they accept, exactly if their data types are the device's. -/
theorem exists_kernel_iff (h : op.Accepts inputs output) :
    (∃ k, kernel op inputs output workgroupSize = .ok k) ↔
      output.dtype ∈ deviceTypes ∧ ∀ source, op = .cast source → source ∈ deviceTypes := by
  -- only conversions have a second data type
  have hother : (∀ source, op ≠ .cast source) →
      (output.dtype ∈ deviceTypes ↔ output.dtype ∈ deviceTypes ∧ ∀ source, op = .cast source → source ∈ deviceTypes) := by
    intro hop
    exact ⟨fun hdtype => ⟨hdtype, fun source hsource => absurd hsource (hop source)⟩, fun hdtype => hdtype.1⟩
  cases h with
  | fill value | arange start step _ hrank => exact exists_kernel_of_scalarType.trans (hother nofun)
  | elementwise e _ hdefined =>
    exact (exists_programKernel_iff (Program.single_valid e _) (Program.single_defined hdefined)).trans (hother nofun)
  | fused p count _ hdtype hvalid hdefined hcount hpos =>
    rw [← hdtype] at hother ⊢
    exact (exists_programKernel_iff (Program.validate_eq_ok_iff.mp hvalid) hdefined).trans (hother nofun)
  | matMul alpha beta l r _ hproduct => exact exists_kernel_of_scalarType.trans (hother nofun)
  | matMulBias alpha beta l r _ hproduct => exact exists_kernel_of_scalarType.trans (hother nofun)
  | transpose permutation x _ hshape =>
    obtain ⟨hlength, hperm, rfl⟩ := transposeShape_eq_ok hshape
    exact (exists_transposeKernel_iff hlength hperm).trans (hother nofun)
  | cast x _ hdims hdtype =>
    simp only [Operation.cast.injEq, forall_eq']
    exact exists_castKernel_iff

end Operation.Accepts

/-! ## Nodes -/

/-- Every node of every graph has launch parameters, and a kernel exactly for the data types of the device. -/
theorem Session.node_launchable (environment : Option String) (calls : List Call) (gid id : Nat) (g : Graph)
    (n : Node) (hg : (run calls (start environment)).workspace.graph? gid = some g)
    (hn : g.node? id = some n ∨ g.constructed? id = some n) (workgroupSize : Int) (hsize : workgroupSize ≠ 0) :
    (∃ block, Shader.launchParams n.op (n.inputs.map g.shapeOf) n.shape workgroupSize = .ok block) ∧
      ((∃ k, Shader.kernel n.op (n.inputs.map g.shapeOf) n.shape workgroupSize = .ok k) ↔
        n.shape.dtype ∈ Shader.deviceTypes ∧ ∀ source, n.op = .cast source → source ∈ Shader.deviceTypes) := by
  have hwf : g.WellFormed := wellFormed_run calls (wellFormed_start environment) gid g hg
  have hfits : g.Fits id n := hn.elim (hwf.fits id n) (hwf.constructed_fits id n)
  exact ⟨hfits.accepts.exists_launchParams hsize, hfits.accepts.exists_kernel_iff⟩

/-- The negation of a sum of a product becomes one fused node on integers, which can be launched. -/
theorem Session.node_launchable_fused :
    let x : Shape := ⟨.int32, [2, 3]⟩
    let node (id : Int) : Handle := some ⟨0, id⟩
    let calls : List Call := [.newGraph "g", .construct (.fill (some 0) .cpu x .zero),
      .construct (.fill (some 0) .cpu x .zero),
      .construct (.elementwise (.binary .mul) [node 0, node 1]),
      .construct (.elementwise (.binary .add) [node 2, node 0]),
      .construct (.elementwise (.unary .neg) [node 3]),
      .markOutputs (some 0) [node 4], .optimize (some 0)]
    ∃ g n, (run calls (start none)).workspace.graph? 0 = some g ∧ g.node? 4 = some n ∧ n.op.kind = .fused ∧
      (∃ block, Shader.launchParams n.op (n.inputs.map g.shapeOf) n.shape 256 = .ok block) ∧
      ∃ k, Shader.kernel n.op (n.inputs.map g.shapeOf) n.shape 256 = .ok k := by
  intro x node calls
  have hrun : (((run calls (start none)).workspace.graph? 0).bind (·.node? 4)).any
      (fun n => n.op.kind == .fused && n.shape == x) = true := by decide +kernel
  obtain ⟨n, hn, hfused⟩ := (Option.any_eq_true _ _).mp hrun
  obtain ⟨g, hg, hn⟩ := Option.bind_eq_some_iff.mp hn
  rw [Bool.and_eq_true, beq_iff_eq, beq_iff_eq] at hfused
  obtain ⟨hparams, hkernel⟩ := node_launchable none calls 0 4 g n hg (.inl hn) 256 (by decide)
  refine ⟨g, n, hg, hn, hfused.1, hparams, hkernel.mpr ⟨?_, fun source hsource => ?_⟩⟩
  · rw [hfused.2]
    decide
  · rw [hsource] at hfused
    cases hfused.1

end LazyTensor
