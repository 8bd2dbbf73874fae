import LazyTensor.Proofs.Graph.Typing

/-!
# Dependencies of nodes

A node depends on its inputs and on what they depend on, which are all nodes before it. `Graph.needs` computes
which nodes must be evaluated for some outputs, by following inputs.
-/

namespace LazyTensor.Graph

/-- The value of the first node is computed from that of the second, directly or not. -/
inductive DependsOn (g : Graph) : Nat → Nat → Prop where
  | input {id i : Nat} (h : i ∈ g.inputs id) : DependsOn g id i
  | step {id i j : Nat} (h : i ∈ g.inputs id) (hj : DependsOn g i j) : DependsOn g id j

variable {g : Graph} {id i j : Nat} {n : Node} {outputs : List Nat}

theorem DependsOn.trans (h : g.DependsOn id i) (hj : g.DependsOn i j) : g.DependsOn id j := by
  induction h with
  | input hi => exact .step hi hj
  | step hi _ ih => exact .step hi (ih hj)

theorem WellFormed.lt_of_dependsOn (h : g.WellFormed) (hj : g.DependsOn id j) : j < id := by
  induction hj with
  | input hi => exact h.inputs_lt hi
  | step hi _ ih => exact Nat.lt_trans ih (h.inputs_lt hi)

theorem WellFormed.deviceOf_eq (h : g.WellFormed) (hj : g.DependsOn id j) :
    g.deviceOf j = g.deviceOf id := by
  have hinput : ∀ id i : Nat, i ∈ g.inputs id → g.deviceOf i = g.deviceOf id := by
    intro id i hi
    obtain ⟨n, hn⟩ := exists_node?_of_lt (lt_size_of_mem_inputs hi)
    rw [inputs_eq_of_node? hn] at hi
    rw [(h.fits id n hn).same_device i hi, deviceOf_eq_of_node? hn]
  induction hj with
  | input hi => exact hinput _ _ hi
  | step hi _ ih => rw [ih, hinput _ _ hi]

/-! ## Needed nodes -/

/-- Whether a node is reached from another along at most `depth - 1` inputs. -/
def reaches (g : Graph) : (depth : Nat) → (id j : Nat) → Bool
  | 0, _, _ => false
  | depth + 1, id, j => id == j || (g.inputs id).any fun i => g.reaches depth i j

/-- Whether a node is an output or an output depends on it. -/
def needs (g : Graph) (outputs : List Nat) (j : Nat) : Bool := outputs.any fun o => g.reaches (o + 1) o j

theorem WellFormed.reaches_iff (h : g.WellFormed) {depth : Nat} (hdepth : id < depth) :
    g.reaches depth id j = true ↔ id = j ∨ g.DependsOn id j := by
  induction depth generalizing id with
  | zero => omega
  | succ depth ih =>
    rw [reaches, Bool.or_eq_true, beq_iff_eq, List.any_eq_true]
    constructor
    · rintro (heq | ⟨i, hi, hreach⟩)
      · exact .inl heq
      · have hlt := h.inputs_lt hi
        rcases (ih (by omega)).mp hreach with rfl | hj
        · exact .inr (.input hi)
        · exact .inr (.step hi hj)
    · rintro (heq | hj)
      · exact .inl heq
      · cases hj with
        | input hi =>
          have hlt := h.inputs_lt hi
          exact .inr ⟨j, hi, (ih (by omega)).mpr (.inl rfl)⟩
        | @step _ i _ hi hj =>
          have hlt := h.inputs_lt hi
          exact .inr ⟨i, hi, (ih (by omega)).mpr (.inr hj)⟩

theorem WellFormed.needs_iff (h : g.WellFormed) :
    g.needs outputs j = true ↔ ∃ o ∈ outputs, o = j ∨ g.DependsOn o j := by
  rw [needs, List.any_eq_true]
  constructor
  · rintro ⟨o, ho, hreach⟩
    exact ⟨o, ho, (h.reaches_iff (Nat.lt_succ_self o)).mp hreach⟩
  · rintro ⟨o, ho, hreach⟩
    exact ⟨o, ho, (h.reaches_iff (Nat.lt_succ_self o)).mpr hreach⟩

theorem DependsOn.exists_consumer (h : g.DependsOn id j) :
    ∃ i, (i = id ∨ g.DependsOn id i) ∧ j ∈ g.inputs i := by
  induction h with
  | @input id i hi => exact ⟨id, .inl rfl, hi⟩
  | @step id i j hi _ ih =>
    obtain ⟨k, hk, hj⟩ := ih
    refine ⟨k, .inr ?_, hj⟩
    rcases hk with rfl | hk
    · exact .input hi
    · exact .step hi hk

theorem WellFormed.needs_iff_consumer (h : g.WellFormed) :
    g.needs outputs j = true ↔ j ∈ outputs ∨ ∃ i, g.needs outputs i = true ∧ j ∈ g.inputs i := by
  rw [h.needs_iff]
  constructor
  · rintro ⟨o, ho, rfl | hj⟩
    · exact .inl ho
    · obtain ⟨i, hi, hji⟩ := hj.exists_consumer
      refine .inr ⟨i, h.needs_iff.mpr ⟨o, ho, ?_⟩, hji⟩
      rcases hi with rfl | hi
      · exact .inl rfl
      · exact .inr hi
  · rintro (ho | ⟨i, hi, hj⟩)
    · exact ⟨j, ho, .inl rfl⟩
    · obtain ⟨o, ho, hoi⟩ := h.needs_iff.mp hi
      refine ⟨o, ho, .inr ?_⟩
      rcases hoi with rfl | hoi
      · exact .input hj
      · exact hoi.trans (.input hj)

theorem WellFormed.needs_of_input (h : g.WellFormed) (hid : g.needs outputs id = true) (hi : i ∈ g.inputs id) :
    g.needs outputs i = true :=
  h.needs_iff_consumer.mpr (.inr ⟨id, hid, hi⟩)

theorem WellFormed.lt_size_of_needs (h : g.WellFormed) (houtputs : ∀ o ∈ outputs, o < g.size)
    (hneeds : g.needs outputs j = true) : j < g.size := by
  obtain ⟨o, ho, rfl | hj⟩ := h.needs_iff.mp hneeds
  · exact houtputs o ho
  · exact Nat.lt_trans (h.lt_of_dependsOn hj) (houtputs o ho)

end LazyTensor.Graph
