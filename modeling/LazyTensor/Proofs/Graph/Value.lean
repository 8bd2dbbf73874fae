import LazyTensor.Proofs.Graph.Compute
import LazyTensor.Proofs.Value

/-!
# Values of nodes

`Graph.value?` is the value of a node as a function of the graph alone: that of its operation, applied to
the values of its inputs. It has one if its operation and all that it depends on have one. `Graph.skips` says
which nodes leave their output as it was allocated, and so have no value that the graph determines.
-/

namespace LazyTensor.Graph

open List Option

/-- The value of a node that is computed along at most `depth - 1` inputs. -/
def valueWithin (g : Graph) : (depth : Nat) → (id : Nat) → Option Value
  | 0, _ => none
  | depth + 1, id =>
    (g.node? id).bind fun n => (n.inputs.mapM (g.valueWithin depth)).bind fun values =>
      (n.op.value? values n.shape).map (Value.mk n.shape)

/-- The value of a node. -/
def value? (g : Graph) (id : Nat) : Option Value := g.valueWithin (id + 1) id

/-- Whether the node leaves an output that has elements as it is. -/
def skips (g : Graph) (id : Nat) : Bool :=
  (g.node? id).any fun n => n.op.skipsOutput (n.inputs.map g.shapeOf) n.shape

/-- The graph determines the value of the node: neither it nor what it depends on leaves its output as it is. -/
def Determined (g : Graph) (id : Nat) : Prop := ∀ j : Nat, id = j ∨ g.DependsOn id j → g.skips j = false

variable {g : Graph} {id j : Nat} {n : Node}

theorem skips_eq_false_of_le (h : g.size ≤ id) : g.skips id = false := by
  cases hn : g.node? id with
  | none => rw [skips, hn, any_none]
  | some n => exact absurd (lt_size_of_node? hn) (Nat.not_lt.mpr h)

theorem Determined.of_reaches (h : g.Determined id) (hj : id = j ∨ g.DependsOn id j) : g.Determined j := by
  rcases hj with rfl | hj
  · exact h
  · rintro i (rfl | hi)
    · exact h _ (.inr hj)
    · exact h _ (.inr (hj.trans hi))

theorem Determined.input (h : g.Determined id) (hj : j ∈ g.inputs id) : g.Determined j :=
  h.of_reaches (.inr (.input hj))

/-- What a node makes of the values of its inputs. -/
private def valueOf (n : Node) (values : List Value) : Option Value :=
  (n.op.value? values n.shape).map (Value.mk n.shape)

private theorem value?_eq_compute? : g.value? = g.compute? valueOf := by
  have hwithin : ∀ depth : Nat, g.valueWithin depth = g.computeWithin valueOf depth := by
    intro depth
    induction depth with
    | zero => rfl
    | succ depth ih =>
      funext id
      rw [valueWithin, ih]
      rfl
  funext id
  rw [value?, compute?, hwithin]

theorem value?_eq_none (hn : g.node? id = none) : g.value? id = none := by
  rw [value?_eq_compute?, compute?_eq_none hn]

theorem value?_congr {g' : Graph} (h : ∀ j : Nat, g'.node? j = g.node? j) : g'.value? = g.value? := by
  rw [value?_eq_compute?, value?_eq_compute?, compute?_congr h]

theorem WellFormed.value?_eq (h : g.WellFormed) (hn : g.node? id = some n) :
    g.value? id = (n.inputs.mapM g.value?).bind fun values =>
      (n.op.value? values n.shape).map (Value.mk n.shape) := by
  rw [value?_eq_compute?, h.compute?_eq hn]
  rfl

theorem WellFormed.value?_eq_some_iff (h : g.WellFormed) (hn : g.node? id = some n) {v : Value} :
    g.value? id = some v ↔ v.shape = n.shape ∧
      ∃ values, n.inputs.mapM g.value? = some values ∧ n.op.value? values n.shape = some v.flat := by
  rw [h.value?_eq hn, bind_eq_some_iff]
  constructor
  · rintro ⟨values, hvalues, hv⟩
    obtain ⟨flat, hflat, rfl⟩ := map_eq_some_iff.mp hv
    exact ⟨rfl, values, hvalues, hflat⟩
  · rintro ⟨hshape, values, hvalues, hflat⟩
    refine ⟨values, hvalues, ?_⟩
    rw [hflat, map_some, ← hshape]

theorem WellFormed.shape_eq_of_value? (h : g.WellFormed) {v : Value} (hv : g.value? id = some v) :
    v.shape = g.shapeOf id := by
  cases hn : g.node? id with
  | none => exact nomatch (value?_eq_none hn).symm.trans hv
  | some n =>
    rw [shapeOf_eq_of_node? hn]
    exact ((h.value?_eq_some_iff hn).mp hv).1

theorem WellFormed.shapes_eq_of_values (h : g.WellFormed) {nodes : List NodeId} {values : List Value}
    (hvalues : nodes.mapM g.value? = some values) : values.map (·.shape) = nodes.map g.shapeOf := by
  rw [mapM_eq_some_iff] at hvalues
  induction nodes generalizing values with
  | nil =>
    obtain rfl := map_eq_nil_iff.mp hvalues.symm
    rfl
  | cons i nodes ih =>
    obtain ⟨v, values, rfl, hv, hrest⟩ := map_eq_cons_iff.mp hvalues.symm
    rw [map_cons, map_cons, h.shape_eq_of_value? hv.symm, ih hrest.symm]

theorem WellFormed.value?_eq_none_of_layout (h : g.WellFormed) (hn : g.node? id = some n) {e : Layout.Error}
    (he : Layout.make n.shape.dtype n.shape.size = .error e) : g.value? id = none := by
  rw [h.value?_eq hn]
  cases n.inputs.mapM g.value? with
  | none => rfl
  | some values => rw [bind_some, Operation.value?, he, map_none]

theorem WellFormed.value?_isSome_of_dependsOn (h : g.WellFormed) (hid : (g.value? id).isSome = true)
    (hj : g.DependsOn id j) : (g.value? j).isSome = true := by
  have hinput : ∀ id i : Nat, (g.value? id).isSome = true → i ∈ g.inputs id → (g.value? i).isSome = true := by
    intro id i hid hi
    obtain ⟨n, hn⟩ := exists_node?_of_lt (lt_size_of_mem_inputs hi)
    rw [inputs_eq_of_node? hn] at hi
    obtain ⟨v, hv⟩ := isSome_iff_exists.mp hid
    obtain ⟨-, values, hvalues, -⟩ := (h.value?_eq_some_iff hn).mp hv
    rw [mapM_eq_some_iff] at hvalues
    have hmem : g.value? i ∈ values.map some := hvalues ▸ List.mem_map_of_mem hi
    obtain ⟨w, -, hw⟩ := List.mem_map.mp hmem
    rw [← hw]
    rfl
  induction hj with
  | input hi => exact hinput _ _ hid hi
  | step hi _ ih => exact ih (hinput _ _ hid hi)

theorem WellFormed.value?_eq_none_of_dependsOn (h : g.WellFormed) (hj : g.value? j = none) (hreach : g.DependsOn id j) :
    g.value? id = none := by
  rw [← not_isSome_iff_eq_none] at hj ⊢
  exact fun hsome => hj (h.value?_isSome_of_dependsOn hsome hreach)

/-! ## Marks of outputs -/

section Pin

variable (outputs : List NodeId)

@[simp] theorem value?_pin : (g.pin outputs).value? = g.value? := value?_congr fun _ => node?_pin outputs

theorem dependsOn_pin : (g.pin outputs).DependsOn id j ↔ g.DependsOn id j := by
  constructor
  · intro h
    induction h with
    | input hi => exact .input (by rwa [inputs_pin] at hi)
    | step hi _ ih => exact .step (by rwa [inputs_pin] at hi) ih
  · intro h
    induction h with
    | input hi => exact .input (by rwa [inputs_pin])
    | step hi _ ih => exact .step (by rwa [inputs_pin]) ih

theorem WellFormed.needs_pin (h : g.WellFormed) {roots : List Nat} : (g.pin outputs).needs roots j = g.needs roots j := by
  rw [Bool.eq_iff_iff, (h.pin outputs).needs_iff, h.needs_iff]
  simp only [dependsOn_pin]

theorem determined_pin : (g.pin outputs).Determined id ↔ g.Determined id := by
  have hskips : ∀ j : Nat, (g.pin outputs).skips j = g.skips j := by
    intro j
    rw [skips, skips, node?_pin, shapeOf_pin]
  simp only [Determined, dependsOn_pin, hskips]

end Pin

end LazyTensor.Graph
