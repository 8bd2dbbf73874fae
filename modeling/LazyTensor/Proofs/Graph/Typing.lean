import LazyTensor.Proofs.Graph.Arena
import LazyTensor.Graph.Construction

/-!
# Types of nodes

`Operation.Accepts` is the typing rule of operations: from which operand shapes an operation gives a
shape. A graph is well formed if every node, as it is and as it was constructed, fits at its number: its
inputs come before it on the same device, and its operation accepts their shapes. Absorbed nodes are
computed by later nodes that were not absorbed.
-/

namespace LazyTensor

open List Option

/-- The elementwise operation is defined for the data type. -/
structure Elementwise.DefinedFor (e : Elementwise) (t : DType) : Prop where
  float : e.floatOnly = true → t.isFloat = true
  signed : e.signedOnly = true → t.isUnsigned = false

/-- Every step is an elementwise operation that is defined for the data type of the program. -/
def Program.Defined (p : Program) : Prop :=
  ∀ s ∈ p.steps, ∃ e : Elementwise, s.kind = .elementwise e ∧ e.DefinedFor p.dtype

/-- The shape has elements that can be computed with, and positive dimensions. -/
structure Shape.Valid (s : Shape) : Prop where
  supported : s.dtype.isSupported = true
  positive : ∀ d ∈ s.dims, 0 < d

/-- The operation takes operands of these shapes to a result of the shape. -/
inductive Operation.Accepts : Operation → List Shape → Shape → Prop where
  | fill (value : Double) (s : Shape) : Accepts (.fill value) [] s
  | arange (start step : Double) (s : Shape) (rank : s.rank = 1) : Accepts (.arange start step) [] s
  | elementwise (e : Elementwise) (s : Shape) (defined : e.DefinedFor s.dtype) :
    Accepts (.elementwise e) (List.replicate e.arity s) s
  | fused (p : Program) (count : Nat) (s : Shape) (dtype : p.dtype = s.dtype)
    (valid : p.validate = .ok ()) (defined : p.Defined) (numInputs : p.numInputs = count)
    (nonempty : 0 < count) : Accepts (.fused (some p)) (List.replicate count s) s
  | matMul (alpha beta : Double) (l r s : Shape) (product : productShape l r = .ok s) :
    Accepts (.matMul alpha beta false) [l, r] s
  | matMulBias (alpha beta : Double) (l r s : Shape) (product : productShape l r = .ok s) :
    Accepts (.matMul alpha beta true) [l, r, s] s
  | transpose (permutation : List Int) (x s : Shape) (permuted : transposeShape x permutation = .ok s) :
    Accepts (.transpose permutation) [x] s
  | cast (x s : Shape) (dims : x.dims = s.dims) (dtype : x.dtype ≠ s.dtype) :
    Accepts (.cast x.dtype) [x] s

/-! ## Well-formed graphs -/

namespace Graph

/-- A node fits at a number: it can be computed from nodes that come before it on its device. -/
structure Fits (g : Graph) (id : Nat) (n : Node) : Prop where
  inputs_lt : ∀ i : Nat, i ∈ n.inputs → i < id
  accepts : n.op.Accepts (n.inputs.map g.shapeOf) n.shape
  valid : n.shape.Valid
  device_ok : n.device.ok = true
  same_device : ∀ i : Nat, i ∈ n.inputs → g.deviceOf i = n.device
  distinct : n.op.kind = .fused → n.inputs.Nodup

/-- The invariant of graphs. -/
structure WellFormed (g : Graph) : Prop where
  fits : ∀ (id : Nat) (n : Node), g.node? id = some n → g.Fits id n
  constructed_fits : ∀ (id : Nat) (n : Node), g.constructed? id = some n → g.Fits id n
  constructed_type : ∀ (id : Nat) (n : Node), g.constructed? id = some n →
    n.shape = g.shapeOf id ∧ n.device = g.deviceOf id
  into_live : ∀ id t : Nat, g.into? id = some t → id < t ∧ t < g.size ∧ g.into? t = none

variable {g g' : Graph} {id i : Nat} {n : Node} {e : Elementwise}

theorem Fits.congr (h : g.Fits id n) (hs : ∀ i : Nat, i < id → g'.shapeOf i = g.shapeOf i)
    (hd : ∀ i : Nat, i < id → g'.deviceOf i = g.deviceOf i) : g'.Fits id n where
  inputs_lt := h.inputs_lt
  accepts := by
    have hmap : n.inputs.map g'.shapeOf = n.inputs.map g.shapeOf :=
      map_congr_left fun i hi => hs i (h.inputs_lt i hi)
    rw [hmap]
    exact h.accepts
  valid := h.valid
  device_ok := h.device_ok
  same_device i hi := by rw [hd i (h.inputs_lt i hi), h.same_device i hi]
  distinct := h.distinct

theorem Fits.shapeOf_input (h : g.Fits id n) (hop : n.op = .elementwise e) (hi : i ∈ n.inputs) :
    g.shapeOf i = n.shape := by
  have hacc := h.accepts
  rw [hop] at hacc
  generalize hshapes : n.inputs.map g.shapeOf = shapes at hacc
  cases hacc
  have hmem : g.shapeOf i ∈ n.inputs.map g.shapeOf := List.mem_map_of_mem hi
  rw [hshapes] at hmem
  exact eq_of_mem_replicate hmem

theorem Fits.length_inputs (h : g.Fits id n) (hop : n.op = .elementwise e) :
    n.inputs.length = e.arity ∧ e.DefinedFor n.shape.dtype := by
  have hacc := h.accepts
  rw [hop] at hacc
  generalize hshapes : n.inputs.map g.shapeOf = shapes at hacc
  cases hacc
  have hlen := congrArg length hshapes
  simp only [length_map, length_replicate] at hlen
  exact ⟨hlen, by assumption⟩

theorem WellFormed.inputs_lt (h : g.WellFormed) (hi : i ∈ g.inputs id) : i < id := by
  obtain ⟨n, hn⟩ := exists_node?_of_lt (lt_size_of_mem_inputs hi)
  rw [inputs_eq_of_node? hn] at hi
  exact (h.fits id n hn).inputs_lt i hi

theorem wellFormed_empty (name : String) : ({ name } : Graph).WellFormed where
  fits id n h := by simp [node?] at h
  constructed_fits id n h := by simp [constructed?] at h
  constructed_type id n h := by simp [constructed?] at h
  into_live id t h := by simp [into?] at h

theorem WellFormed.pin (h : g.WellFormed) (outputs : List NodeId) : (g.pin outputs).WellFormed where
  fits id n hn := (h.fits id n (by simpa using hn)).congr (by simp) (by simp)
  constructed_fits id n hn := (h.constructed_fits id n (by simpa using hn)).congr (by simp) (by simp)
  constructed_type id n hn := by simpa using h.constructed_type id n (by simpa using hn)
  into_live id t hid := by simpa using h.into_live id t (by simpa using hid)

theorem Fits.push {m : Node} (h : g.Fits id n) (hid : id ≤ g.size) : (g.push m).2.Fits id n :=
  h.congr (fun _ hi => shapeOf_push (Nat.lt_of_lt_of_le hi hid)) (fun _ hi => deviceOf_push (Nat.lt_of_lt_of_le hi hid))

/-- A node that fits at the end can be added. -/
theorem WellFormed.push (h : g.WellFormed) (hn : g.Fits g.size n) : (g.push n).2.WellFormed where
  fits id m hm := by
    rw [node?_push] at hm
    split at hm
    · rename_i hid
      obtain rfl := Option.some.inj hm
      exact hid ▸ hn.push (Nat.le_refl _)
    · exact (h.fits id m hm).push (Nat.le_of_lt (lt_size_of_node? hm))
  constructed_fits id m hm := by
    rw [constructed?_push] at hm
    split at hm
    · rename_i hid
      obtain rfl := Option.some.inj hm
      exact hid ▸ hn.push (Nat.le_refl _)
    · exact (h.constructed_fits id m hm).push (Nat.le_of_lt (lt_size_of_constructed? hm))
  constructed_type id m hm := by
    rw [constructed?_push] at hm
    split at hm
    · rename_i hid
      obtain rfl := Option.some.inj hm
      simp [shapeOf, deviceOf, node?_push, hid]
    · have hlt := lt_size_of_constructed? hm
      rw [shapeOf_push hlt, deviceOf_push hlt]
      exact h.constructed_type id m hm
  into_live id t hid := by
    rw [into?_push] at hid ⊢
    have := h.into_live id t hid
    simp only [size_push]
    exact ⟨this.1, by omega, this.2.2⟩

/-- What optimisation changes keeps graphs well formed, as long as new nodes fit and absorbed nodes are
computed by later live ones. -/
theorem WellFormed.rewrite (h : g.WellFormed) (hs : g'.shapeOf = g.shapeOf)
    (hd : g'.deviceOf = g.deviceOf)
    (hnode : ∀ (id : Nat) (n : Node), g'.node? id = some n → g.node? id = some n ∨ g.Fits id n)
    (hconstructed : ∀ id : Nat, g'.constructed? id = g.constructed? id)
    (hinto : ∀ id t : Nat, g'.into? id = some t → id < t ∧ t < g'.size ∧ g'.into? t = none) :
    g'.WellFormed where
  fits id n hn := by
    have hfit : g.Fits id n := (hnode id n hn).elim (h.fits id n) (fun hf => hf)
    exact hfit.congr (by simp [hs]) (by simp [hd])
  constructed_fits id n hn := by
    rw [hconstructed] at hn
    exact (h.constructed_fits id n hn).congr (by simp [hs]) (by simp [hd])
  constructed_type id n hn := by
    rw [hconstructed] at hn
    rw [hs, hd]
    exact h.constructed_type id n hn
  into_live := hinto

end Graph

end LazyTensor
