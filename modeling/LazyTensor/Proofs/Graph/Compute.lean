import LazyTensor.Proofs.Graph.Dependency
import LazyTensor.Proofs.Kernel.Range

/-!
# Computing along inputs

Given what each node makes of what its inputs make, `Graph.compute?` is what the whole graph makes of a
node. It follows the inputs, which come before the node, so in a well-formed graph the depth that bounds
the recursion does not matter (`WellFormed.compute?_eq`). Replacing a node by one that makes the same of
its own inputs changes nothing for any node (`WellFormed.compute?_replaced`).
-/

namespace LazyTensor.Graph

variable {V : Type}

/-- What is computed for a node along at most `depth - 1` inputs. -/
def computeWithin (g : Graph) (f : Node → List V → Option V) : (depth : Nat) → (id : Nat) → Option V
  | 0, _ => none
  | depth + 1, id => (g.node? id).bind fun n => (n.inputs.mapM (g.computeWithin f depth)).bind (f n)

def compute? (g : Graph) (f : Node → List V → Option V) (id : Nat) : Option V := g.computeWithin f (id + 1) id

variable {g g' : Graph} {f : Node → List V → Option V} {id : Nat} {n : Node}

theorem compute?_eq_none (hn : g.node? id = none) : g.compute? f id = none := by
  simp [compute?, computeWithin, hn]

theorem compute?_congr (h : ∀ j : Nat, g'.node? j = g.node? j) : g'.compute? f = g.compute? f := by
  have hwithin : ∀ depth : Nat, g'.computeWithin f depth = g.computeWithin f depth := by
    intro depth
    induction depth with
    | zero => rfl
    | succ depth ih =>
      simp only [computeWithin, h, ih]
  funext id
  simp only [compute?, hwithin]

/-- Inputs come before a node, so its number bounds the depth of the computation. -/
theorem WellFormed.computeWithin_eq (h : g.WellFormed) {depth : Nat} (hdepth : id < depth) :
    g.computeWithin f depth id = g.compute? f id := by
  suffices hsame : ∀ d d' id : Nat, id < d → id < d' → g.computeWithin f d id = g.computeWithin f d' id by
    exact hsame depth (id + 1) id hdepth (Nat.lt_succ_self id)
  intro d
  induction d with
  | zero => intro d' id hd; omega
  | succ d ih =>
    intro d' id hd hd'
    cases d' with
    | zero => omega
    | succ d' =>
      cases hn : g.node? id with
      | none => simp [computeWithin, hn]
      | some n =>
        -- the inputs have smaller numbers than the node, so what is left of both depths is enough
        have hinputs : n.inputs.mapM (g.computeWithin f d) = n.inputs.mapM (g.computeWithin f d') := by
          apply mapM_congr
          intro i hi
          have hlt := (h.fits id n hn).inputs_lt i hi
          exact ih d' i (by omega) (by omega)
        simp [computeWithin, hn, hinputs]

theorem WellFormed.compute?_eq (h : g.WellFormed) (hn : g.node? id = some n) :
    g.compute? f id = (n.inputs.mapM (g.compute? f)).bind (f n) := by
  have hinputs : n.inputs.mapM (g.computeWithin f id) = n.inputs.mapM (g.compute? f) := by
    apply mapM_congr
    intro i hi
    exact h.computeWithin_eq ((h.fits id n hn).inputs_lt i hi)
  simp only [compute?, computeWithin, hn, Option.bind_some] at hinputs ⊢
  rw [hinputs]

/-- If every node makes something of what its inputs make, something is computed for every node. -/
theorem WellFormed.compute?_isSome (h : g.WellFormed)
    (hf : ∀ (id : Nat) (n : Node) (args : List V), g.node? id = some n → args.length = n.inputs.length →
      (f n args).isSome = true) (hid : id < g.size) : (g.compute? f id).isSome = true := by
  induction id using Nat.strongRecOn with
  | ind id ih =>
    obtain ⟨n, hn⟩ := exists_node?_of_lt hid
    rw [h.compute?_eq hn]
    cases hargs : n.inputs.mapM (g.compute? f) with
    | none =>
      obtain ⟨i, hi, hnone⟩ := mapM_eq_none_iff.mp hargs
      have hlt := (h.fits id n hn).inputs_lt i hi
      have hsome := ih i hlt (by omega)
      simp [hnone] at hsome
    | some args =>
      have hlength := congrArg List.length (mapM_eq_some_iff.mp hargs)
      simp only [List.length_map] at hlength
      exact hf id n args hn hlength.symm

/-- A node that is replaced by one with the same result changes no result. -/
theorem WellFormed.compute?_replaced (h : g.WellFormed) (h' : g'.WellFormed) {terminal : Nat}
    (hnode : ∀ j : Nat, j ≠ terminal → g'.node? j = g.node? j) (hn : g'.node? terminal = some n)
    (hsame : (n.inputs.mapM (g.compute? f)).bind (f n) = g.compute? f terminal) :
    g'.compute? f = g.compute? f := by
  funext id
  -- on the number of the node, as inputs have smaller ones
  induction id using Nat.strongRecOn with
  | ind id ih =>
    have hinputs : ∀ m : Node, g'.node? id = some m →
        m.inputs.mapM (g'.compute? f) = m.inputs.mapM (g.compute? f) := by
      intro m hm
      apply mapM_congr
      intro i hi
      exact ih i ((h'.fits id m hm).inputs_lt i hi)
    by_cases hid : id = terminal
    · subst hid
      rw [h'.compute?_eq hn, hinputs n hn, hsame]
    · cases hm : g.node? id with
      | none => rw [compute?_eq_none hm, compute?_eq_none ((hnode id hid).trans hm)]
      | some m =>
        have hm' := (hnode id hid).trans hm
        rw [h.compute?_eq hm, h'.compute?_eq hm', hinputs m hm']

end LazyTensor.Graph
