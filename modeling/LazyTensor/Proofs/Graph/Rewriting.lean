import LazyTensor.Proofs.Graph.Consumers

/-!
# Passes of optimisation

A pass goes over nodes, and each of its steps may change the graph and its table. What a step keeps, a
pass keeps (`pass_induction`). `Rewritten` collects what both kinds of steps keep of the graph they start
from, and `Sound` is the invariant of the state of a pass.
-/

namespace LazyTensor.Graph

/-- The inputs of live nodes are live. -/
def InputsLive (g : Graph) : Prop := ∀ k i : Nat, g.isLive k = true → i ∈ g.inputs k → g.isLive i = true

/-- What optimisation keeps of a graph. -/
structure Rewritten (g g' : Graph) : Prop where
  size_eq : g'.size = g.size
  shapeOf_eq : g'.shapeOf = g.shapeOf
  deviceOf_eq : g'.deviceOf = g.deviceOf
  constructed?_eq : ∀ id : Nat, g'.constructed? id = g.constructed? id
  isPinned_eq : ∀ id : Nat, g'.isPinned id = g.isPinned id
  live_of_live : ∀ id : Nat, g'.isLive id = true → g.isLive id = true
  live_of_pinned : ∀ id : Nat, g.isLive id = true → g.isPinned id = true → g'.isLive id = true
  inputsLive : g.InputsLive → g'.InputsLive

theorem Rewritten.refl (g : Graph) : g.Rewritten g where
  size_eq := rfl
  shapeOf_eq := rfl
  deviceOf_eq := rfl
  constructed?_eq _ := rfl
  isPinned_eq _ := rfl
  live_of_live _ h := h
  live_of_pinned _ h _ := h
  inputsLive h := h

theorem Rewritten.trans {g g' g'' : Graph} (h : g.Rewritten g') (h' : g'.Rewritten g'') :
    g.Rewritten g'' where
  size_eq := h'.size_eq.trans h.size_eq
  shapeOf_eq := h'.shapeOf_eq.trans h.shapeOf_eq
  deviceOf_eq := h'.deviceOf_eq.trans h.deviceOf_eq
  constructed?_eq id := (h'.constructed?_eq id).trans (h.constructed?_eq id)
  isPinned_eq id := (h'.isPinned_eq id).trans (h.isPinned_eq id)
  live_of_live id hl := h.live_of_live id (h'.live_of_live id hl)
  live_of_pinned id hl hp := by
    refine h'.live_of_pinned id (h.live_of_pinned id hl hp) ?_
    rwa [h.isPinned_eq id]
  inputsLive hg := h'.inputsLive (h.inputsLive hg)

/-- The state of a pass: the graph is well formed, and the table tracks it. -/
structure Sound (g : Graph) (c : Consumers) : Prop where
  wellFormed : g.WellFormed
  tracks : c.Tracks g

theorem Sound.single_observer {g : Graph} {c : Consumers} {id k : Nat} (h : g.Sound c)
    (hobs : g.hasSingleObserver c id = true) (hk : g.Consumes k id) :
    c.get id = [k] ∧ (∀ j : Nat, g.Consumes j id → j = k) ∧ g.isPinned id = false := by
  simp only [hasSingleObserver, Bool.and_eq_true, beq_iff_eq, Bool.not_eq_true'] at hobs
  obtain ⟨x, hx⟩ := List.length_eq_one_iff.mp hobs.1
  have hkx : k = x := by
    have := (h.tracks.mem id k).mpr hk
    rw [hx] at this
    exact List.mem_singleton.mp this
  subst hkx
  refine ⟨hx, fun j hj => ?_, hobs.2⟩
  have := (h.tracks.mem id j).mpr hj
  rw [hx] at this
  exact List.mem_singleton.mp this

/-! ## Passes -/

/-- One step of a pass, which counts the steps that change something. -/
def passStep (step? : Graph → Consumers → NodeId → Option (Graph × Consumers))
    (s : Graph × Consumers × Nat) (id : NodeId) : Graph × Consumers × Nat :=
  match step? s.1 s.2.1 id with
  | some (g, c) => (g, c, s.2.2 + 1)
  | none => s

/-- A pass over nodes. -/
def pass (step? : Graph → Consumers → NodeId → Option (Graph × Consumers)) (ids : List NodeId)
    (s : Graph × Consumers × Nat) : Graph × Consumers × Nat :=
  ids.foldl (passStep step?) s

theorem pass_induction (step? : Graph → Consumers → NodeId → Option (Graph × Consumers))
    {motive : Graph → Consumers → Nat → Prop}
    (hstep : ∀ g c count id g' c', motive g c count → step? g c id = some (g', c') →
      motive g' c' (count + 1))
    (ids : List NodeId) {s : Graph × Consumers × Nat} (hs : motive s.1 s.2.1 s.2.2) :
    motive (pass step? ids s).1 (pass step? ids s).2.1 (pass step? ids s).2.2 := by
  induction ids generalizing s with
  | nil => exact hs
  | cons id ids ih =>
    refine ih (s := passStep step? s id) ?_
    simp only [passStep]
    split
    · rename_i g' c' heq
      exact hstep s.1 s.2.1 s.2.2 id g' c' hs heq
    · exact hs

theorem mulAddFold_eq_pass (g : Graph) (c : Consumers) (ids : List NodeId) :
    g.mulAddFold c ids = pass mulAddStep? ids (g, c, 0) := by
  refine congrArg (fun f => ids.foldl f (g, c, 0)) ?_
  funext s id
  obtain ⟨g, c, count⟩ := s
  rcases hstep : g.mulAddStep? c id with _ | ⟨g', c'⟩
  · simp only [passStep, hstep]
  · simp only [passStep, hstep]

theorem fuseFold_eq_pass (g : Graph) (c : Consumers) (ids : List NodeId) :
    g.fuseFold c ids = pass fuseStep? ids (g, c, 0) := by
  refine congrArg (fun f => ids.foldl f (g, c, 0)) ?_
  funext s id
  obtain ⟨g, c, count⟩ := s
  rcases hstep : g.fuseStep? c id with _ | ⟨g', c'⟩
  · simp only [passStep, hstep]
  · simp only [passStep, hstep]

end LazyTensor.Graph
