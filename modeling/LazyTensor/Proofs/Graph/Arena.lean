import LazyTensor.Graph.Fusion

/-!
# Views of the arena

What each change of a graph does to the node, the constructed node, the absorption and the pin of every
number. The changes of optimisation keep the constructed nodes, and none of them changes a shape or a
device, so that `Graph.shapeOf` and `Graph.deviceOf` only grow.
-/

namespace LazyTensor.Graph

/-- The shape of the node with a number. -/
def shapeOf (g : Graph) (id : NodeId) : Shape := (g.node? id).elim .invalid (·.shape)

/-- The device of the node with a number. -/
def deviceOf (g : Graph) (id : NodeId) : Device := (g.node? id).elim .cpu (·.device)

variable {g : Graph} {id j : Nat} {n m : Node}

/-! ## Lookups -/

theorem node?_eq_none_iff : g.node? id = none ↔ g.size ≤ id := by
  simp [node?, size]

theorem lt_size_of_node? (h : g.node? id = some n) : id < g.size := by
  rcases Nat.lt_or_ge id g.size with hlt | hge
  · exact hlt
  · rw [node?_eq_none_iff.mpr hge] at h
    cases h

theorem exists_node?_of_lt (h : id < g.size) : ∃ n, g.node? id = some n := by
  cases hn : g.node? id with
  | none => exact absurd (node?_eq_none_iff.mp hn) (by omega)
  | some n => exact ⟨n, rfl⟩

theorem lt_size_of_constructed? (h : g.constructed? id = some n) : id < g.size := by
  rcases Nat.lt_or_ge id g.slots.size with hlt | hge
  · exact hlt
  · rw [constructed?, Array.getElem?_eq_none hge] at h
    cases h

theorem inputs_eq_of_node? (h : g.node? id = some n) : g.inputs id = n.inputs := by
  simp [inputs, h]

theorem shapeOf_eq_of_node? (h : g.node? id = some n) : g.shapeOf id = n.shape := by
  simp [shapeOf, h]

theorem deviceOf_eq_of_node? (h : g.node? id = some n) : g.deviceOf id = n.device := by
  simp [deviceOf, h]

theorem lt_size_of_mem_inputs (h : j ∈ g.inputs id) : id < g.size := by
  cases hn : g.node? id with
  | none => simp [inputs, hn] at h
  | some n => exact lt_size_of_node? hn

theorem isLive_iff : g.isLive id = true ↔ g.into? id = none := by
  simp [isLive]

theorem mem_ids : id ∈ g.ids ↔ id < g.size := by
  simp [ids]

theorem mem_liveIds : id ∈ g.liveIds ↔ id < g.size ∧ g.isLive id = true := by
  simp [liveIds, mem_ids]

/-! ## Changes of one place -/

theorem getElem?_modifySlot (f : Slot → Slot) :
    (g.modifySlot id f).slots[j]? = if id = j then g.slots[j]?.map f else g.slots[j]? := by
  simp only [modifySlot, Array.getElem?_modify]

@[simp] theorem size_modifySlot (f : Slot → Slot) : (g.modifySlot id f).size = g.size := by
  simp [modifySlot, size]

/-! ## Replacement -/

@[simp] theorem size_replace : (g.replace id n).size = g.size := size_modifySlot _

theorem node?_replace (h : id < g.size) :
    (g.replace id n).node? j = if j = id then some n else g.node? j := by
  have hs : id < g.slots.size := h
  simp only [node?, replace, getElem?_modifySlot]
  by_cases hj : j = id
  · subst hj
    simp [Array.getElem?_eq_getElem hs]
  · simp [hj, Ne.symm hj]

@[simp] theorem into?_replace : (g.replace id n).into? j = g.into? j := by
  simp only [into?, replace, getElem?_modifySlot]
  split
  · cases g.slots[j]? <;> rfl
  · rfl

@[simp] theorem isLive_replace : (g.replace id n).isLive j = g.isLive j := by
  simp [isLive]

@[simp] theorem isPinned_replace : (g.replace id n).isPinned j = g.isPinned j := by
  simp only [isPinned, replace, getElem?_modifySlot]
  split
  · cases g.slots[j]? <;> rfl
  · rfl

@[simp] theorem constructed?_replace : (g.replace id n).constructed? j = g.constructed? j := by
  simp only [constructed?, replace, getElem?_modifySlot]
  split
  · cases g.slots[j]? <;> rfl
  · rfl

theorem shapeOf_replace (hm : g.node? id = some m) (hs : n.shape = m.shape) :
    (g.replace id n).shapeOf = g.shapeOf := by
  funext j
  simp only [shapeOf, node?_replace (lt_size_of_node? hm)]
  by_cases hj : j = id
  · subst hj
    simp [hm, hs]
  · simp [hj]

theorem deviceOf_replace (hm : g.node? id = some m) (hd : n.device = m.device) :
    (g.replace id n).deviceOf = g.deviceOf := by
  funext j
  simp only [deviceOf, node?_replace (lt_size_of_node? hm)]
  by_cases hj : j = id
  · subst hj
    simp [hm, hd]
  · simp [hj]

/-! ## Absorption -/

private theorem getElem?_absorb (t : Nat) :
    (g.absorb id t).slots[j]? = g.slots[j]?.map fun s =>
      if id = j ∨ s.into = some id then { s with into := some t } else s := by
  simp only [absorb, getElem?_modifySlot, Array.getElem?_map]
  by_cases hj : id = j
  · subst hj
    rw [if_pos rfl]
    cases g.slots[id]? with
    | none => rfl
    | some s =>
      by_cases hs : s.into = some id <;> simp [hs]
  · rw [if_neg hj]
    cases g.slots[j]? with
    | none => rfl
    | some s => simp [hj]

@[simp] theorem size_absorb (t : Nat) : (g.absorb id t).size = g.size := by
  simp [absorb, modifySlot, size]

@[simp] theorem node?_absorb (t : Nat) : (g.absorb id t).node? j = g.node? j := by
  simp only [node?, getElem?_absorb]
  cases g.slots[j]? with
  | none => rfl
  | some s => simp only [Option.map_some]; split <;> rfl

@[simp] theorem isPinned_absorb (t : Nat) : (g.absorb id t).isPinned j = g.isPinned j := by
  simp only [isPinned, getElem?_absorb]
  cases g.slots[j]? with
  | none => rfl
  | some s => simp only [Option.map_some]; split <;> rfl

@[simp] theorem constructed?_absorb (t : Nat) :
    (g.absorb id t).constructed? j = g.constructed? j := by
  simp only [constructed?, getElem?_absorb]
  cases g.slots[j]? with
  | none => rfl
  | some s => simp only [Option.map_some]; split <;> rfl

theorem into?_absorb (t : Nat) (h : id < g.size) :
    (g.absorb id t).into? j = if j = id ∨ g.into? j = some id then some t else g.into? j := by
  have hs : id < g.slots.size := h
  simp only [into?, getElem?_absorb]
  by_cases hid : j = id
  · subst hid
    simp [Array.getElem?_eq_getElem hs]
  · have hid' : ¬ id = j := fun h => hid h.symm
    rcases Option.eq_none_or_eq_some g.slots[j]? with hj | ⟨s, hj⟩
    · simp [hj, hid]
    · by_cases hinto : s.into = some id <;> simp [hj, hid, hid', hinto]

theorem isLive_absorb (t : Nat) (h : id < g.size) :
    (g.absorb id t).isLive j = (g.isLive j && j != id) := by
  rw [Bool.eq_iff_iff, Bool.and_eq_true, isLive_iff, isLive_iff, into?_absorb t h]
  by_cases hid : j = id
  · simp [hid]
  · by_cases hinto : g.into? j = some id <;> simp [hid, hinto]

@[simp] theorem shapeOf_absorb (t : Nat) : (g.absorb id t).shapeOf = g.shapeOf := by
  funext j
  simp [shapeOf]

@[simp] theorem deviceOf_absorb (t : Nat) : (g.absorb id t).deviceOf = g.deviceOf := by
  funext j
  simp [deviceOf]

/-! ## Pins -/

section

variable (outputs : List NodeId)

private theorem getElem?_pin : (g.pin outputs).slots[j]? =
      g.slots[j]?.map fun s => { s with pinned := s.pinned || outputs.contains j } := by
  induction outputs generalizing g with
  | nil => simp [pin]
  | cons o outputs ih =>
    have hpin : g.pin (o :: outputs) = (g.modifySlot o ({ · with pinned := true })).pin outputs := rfl
    rw [hpin, ih, getElem?_modifySlot]
    cases g.slots[j]? with
    | none => simp
    | some s =>
      by_cases ho : o = j
      · simp [ho]
      · have ho' : ¬ j = o := fun h => ho h.symm
        simp [ho, ho']

@[simp] theorem size_pin : (g.pin outputs).size = g.size := by
  induction outputs generalizing g with
  | nil => rfl
  | cons o outputs ih => exact (ih (g := g.modifySlot o _)).trans (size_modifySlot _)

@[simp] theorem name_pin : (g.pin outputs).name = g.name := by
  induction outputs generalizing g with
  | nil => rfl
  | cons o outputs ih => exact ih (g := g.modifySlot o _)

@[simp] theorem node?_pin : (g.pin outputs).node? j = g.node? j := by
  simp only [node?, getElem?_pin]
  cases g.slots[j]? <;> rfl

@[simp] theorem into?_pin : (g.pin outputs).into? j = g.into? j := by
  simp only [into?, getElem?_pin]
  cases g.slots[j]? <;> rfl

@[simp] theorem constructed?_pin : (g.pin outputs).constructed? j = g.constructed? j := by
  simp only [constructed?, getElem?_pin]
  cases g.slots[j]? <;> rfl

@[simp] theorem isLive_pin : (g.pin outputs).isLive j = g.isLive j := by
  simp [isLive]

@[simp] theorem inputs_pin : (g.pin outputs).inputs j = g.inputs j := by
  simp [inputs]

@[simp] theorem shapeOf_pin : (g.pin outputs).shapeOf = g.shapeOf := by
  funext j
  simp [shapeOf]

@[simp] theorem deviceOf_pin : (g.pin outputs).deviceOf = g.deviceOf := by
  funext j
  simp [deviceOf]

end

/-! ## New nodes -/

private theorem getElem?_push :
    (g.push n).2.slots[j]? = if j = g.size then some { node := n } else g.slots[j]? := by
  rw [push, Array.getElem?_push]
  rfl

@[simp] theorem size_push : (g.push n).2.size = g.size + 1 := by
  simp [push, size]

theorem node?_push : (g.push n).2.node? j = if j = g.size then some n else g.node? j := by
  simp only [node?, getElem?_push]
  split <;> rfl

theorem into?_push : (g.push n).2.into? j = g.into? j := by
  simp only [into?, getElem?_push]
  split
  · rename_i h
    have hle : g.slots.size ≤ j := Nat.le_of_eq h.symm
    rw [Array.getElem?_eq_none hle]
    rfl
  · rfl

theorem constructed?_push :
    (g.push n).2.constructed? j = if j = g.size then some n else g.constructed? j := by
  simp only [constructed?, getElem?_push]
  split <;> rfl

theorem isLive_push : (g.push n).2.isLive j = g.isLive j := by
  simp only [isLive, into?_push]

theorem shapeOf_push (h : j < g.size) : (g.push n).2.shapeOf j = g.shapeOf j := by
  simp only [shapeOf, node?_push, if_neg (Nat.ne_of_lt h)]

theorem deviceOf_push (h : j < g.size) : (g.push n).2.deviceOf j = g.deviceOf j := by
  simp only [deviceOf, node?_push, if_neg (Nat.ne_of_lt h)]

end LazyTensor.Graph
