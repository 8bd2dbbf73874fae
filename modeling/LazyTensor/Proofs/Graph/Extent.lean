import LazyTensor.Proofs.Evaluation.Balance
import LazyTensor.Proofs.Graph.Construction

/-!
# Sizes of constructed nodes

Construction checks each dimension alone. So the number of elements and the bytes of a node are the exact products
only as far as 64 bits go: the number of elements below `2 ^ 63`, and the bytes below `2 ^ 64`. Beyond, both are
what is left of the products in 64 bits, which may be zero.
-/

namespace LazyTensor

namespace Shape

variable {s : Shape}

theorem size_eq_prod_iff (hpos : 0 < s.dims.prod) : s.size = s.dims.prod ↔ s.dims.prod < 2 ^ 63 := by
  have hlimit : wordLimit = 2 ^ 63 := rfl
  constructor
  · intro h
    rw [← h, size_eq_wrap64]
    exact wrap64_lt_wordLimit _
  · intro h
    exact size_eq_prod (Int.le_of_lt hpos) (by omega)

theorem size_emod (s : Shape) : s.size % 2 ^ 64 = s.dims.prod % 2 ^ 64 := by
  rw [size_eq_wrap64]
  exact Int.bmod_emod

theorem Valid.toNat_footprint (h : s.Valid) : (s.footprint.toNat : Int) = s.exactBytes % 2 ^ 64 := by
  obtain ⟨t, ht⟩ := Option.isSome_iff_exists.mp h.supported
  obtain ⟨bytes, hbytes⟩ : ∃ bytes, s.dtype.bytes? = some bytes := by
    rw [DType.eq_dtype ht]
    cases t <;> exact ⟨_, rfl⟩
  have hfootprint : s.footprint = UInt64.ofNat bytes * UInt64.ofNat (s.size % 2 ^ 64).toNat := by
    rw [footprint, memory, DType.bytes, hbytes]
    rfl
  have hnonneg : 0 ≤ s.size % 2 ^ 64 := Int.emod_nonneg _ (by decide)
  rw [hfootprint, UInt64.toNat_mul, UInt64.toNat_ofNat', UInt64.toNat_ofNat', ← Nat.mul_mod, exactBytes, hbytes,
    Int.natCast_emod, Int.natCast_mul, Int.toNat_of_nonneg hnonneg]
  calc (bytes : Int) * (s.size % 2 ^ 64) % (2 ^ 64 : Nat)
      = bytes * (s.dims.prod % 2 ^ 64) % 2 ^ 64 := by rw [size_emod]; rfl
    _ = s.dims.prod * bytes % 2 ^ 64 := by rw [Int.mul_emod, Int.emod_emod, ← Int.mul_emod, Int.mul_comm]

theorem exactBytes_nonneg (h : s.Valid) : 0 ≤ s.exactBytes :=
  Int.mul_nonneg (Int.le_of_lt (prod_pos h.positive)) (Int.natCast_nonneg _)

theorem Valid.footprint_eq_iff (h : s.Valid) :
    (s.footprint.toNat : Int) = s.exactBytes ↔ s.exactBytes < 2 ^ 64 := by
  have hnonneg := exactBytes_nonneg h
  rw [h.toNat_footprint]
  constructor
  · intro heq
    rw [← heq]
    exact Int.emod_lt_of_pos _ (by decide)
  · intro hlt
    exact Int.emod_eq_of_lt hnonneg hlt

end Shape

namespace Workspace

variable {w w' : Workspace} {c : Construction} {gid : GraphId} {h : Handle} {n : Node}

theorem IsNode.node_eq_ok (hnode : w.IsNode gid h n) : ∃ id, w.node h = .ok (id, n) := by
  obtain ⟨g, id, hg, hn, rfl⟩ := hnode
  refine ⟨id, ?_⟩
  simp only [node, Option.bind_some, hg, Option.map_some, owned_of_node? hn]

theorem exists_isNode_of_construct (hw : w.WellFormed) (hc : w.construct c = .ok (h, w')) :
    ∃ gid n, w'.IsNode gid h n ∧ n.shape.Valid := by
  have hnode : ∃ gid n, w'.IsNode gid h n := by
    rcases (construct_eq_ok_iff hw).mp hc with ⟨gid, g, n, hallows, hpush⟩ | ⟨⟨gid, n, hnode, -⟩, rfl⟩
    · obtain ⟨-, nodes, hnodes, -, -⟩ := hallows
      cases hpush
      refine ⟨gid, n, (g.push n).2, g.size, ?_, ?_, rfl⟩
      · rw [graph?_setGraph hnodes.graph, if_pos rfl]
        rfl
      · rw [Graph.node?_push, if_pos rfl]
    · exact ⟨gid, n, hnode⟩
  obtain ⟨gid, n, g, id, hg, hn, rfl⟩ := hnode
  exact ⟨gid, n, ⟨g, id, hg, hn, rfl⟩, ((hw.construct hc gid g hg).fits id n hn).valid⟩

end Workspace

namespace Session

/-- Whatever calls were made before: an accepted call gives a node whose number of elements and bytes are the exact
products in 64 bits, so that they are exact if and only if the products fit. -/
theorem extent_of_construct (environment : Option String) (calls : List Call) {c : Construction} {h : Handle}
    {w : Workspace} (hc : (run calls (start environment)).workspace.construct c = .ok (h, w)) :
    ∃ id n, w.node h = .ok (id, n) ∧ (∀ d ∈ n.shape.dims, 0 < d) ∧
      n.shape.size % 2 ^ 64 = n.shape.dims.prod % 2 ^ 64 ∧
      (n.shape.size = n.shape.dims.prod ∧ 0 < n.shape.size ↔ n.shape.dims.prod < 2 ^ 63) ∧
      ∃ bytes, n.shape.memory = .ok bytes ∧ (bytes.toNat : Int) = n.shape.exactBytes % 2 ^ 64 ∧
        ((bytes.toNat : Int) = n.shape.exactBytes ↔ n.shape.exactBytes < 2 ^ 64) := by
  have hw := wellFormed_run calls (wellFormed_start environment)
  obtain ⟨gid, n, hnode, hvalid⟩ := Workspace.exists_isNode_of_construct hw hc
  obtain ⟨id, hid⟩ := hnode.node_eq_ok
  have hpos : 0 < n.shape.dims.prod := prod_pos hvalid.positive
  have hexact : n.shape.size = n.shape.dims.prod ∧ 0 < n.shape.size ↔ n.shape.dims.prod < 2 ^ 63 := by
    rw [← Shape.size_eq_prod_iff hpos]
    exact ⟨fun h => h.1, fun h => ⟨h, h ▸ hpos⟩⟩
  exact ⟨id, n, hid, hvalid.positive, n.shape.size_emod, hexact, n.shape.footprint, hvalid.memory_eq,
    hvalid.toNat_footprint, hvalid.footprint_eq_iff⟩

/-- A matrix of zeros has as many elements and bytes as it should. -/
theorem extent_of_construct_matrix :
    let x : Shape := ⟨.float32, [2, 3]⟩
    ∃ w, (run [.newGraph "g"] (start none)).workspace.construct (.fill (some 0) .cpu x .zero) =
        .ok (some ⟨0, 0⟩, w) ∧
      ∃ id n bytes, w.node (some ⟨0, 0⟩) = .ok (id, n) ∧ n.shape = x ∧ n.shape.size = x.dims.prod ∧
        n.shape.memory = .ok bytes ∧ (bytes.toNat : Int) = x.exactBytes := by
  intro x
  refine ⟨_, rfl, ?_⟩
  obtain ⟨id, n, hn, -, -, hsize, bytes, hbytes, -, hexact⟩ := extent_of_construct none [.newGraph "g"]
    (c := .fill (some 0) .cpu x .zero) rfl
  have hx : n.shape = x := by
    cases hn
    rfl
  rw [hx] at hsize hexact
  refine ⟨id, n, bytes, hn, hx, ?_, hbytes, hexact.mpr (by decide)⟩
  rw [hx]
  exact (hsize.mpr (by decide)).1

/-- A square matrix with `2 ^ 64` elements is accepted, but has no elements and no bytes. -/
theorem extent_of_square_wraps :
    let x : Shape := ⟨.int32, [4294967296, 4294967296]⟩
    let w := (run [.newGraph "g"] (start none)).workspace
    (∃ w' node, w.construct (.fill (some 0) .cpu x .zero) = .ok (some ⟨0, 0⟩, w') ∧
      w'.node (some ⟨0, 0⟩) = .ok (0, node) ∧ node.shape = x) ∧
    x.dims.prod = 2 ^ 64 ∧ x.size = 0 ∧ x.memory = .ok 0 := by
  refine ⟨⟨_, _, rfl, rfl, rfl⟩, by decide, by decide, rfl⟩

end Session

end LazyTensor
