import LazyTensor.Graph.Consumers

/-!
# Fused multiply-add

A sum of floating point values, of which one is a product that nothing else takes, becomes a fused
multiply-add. The product is absorbed into it.
-/

namespace LazyTensor.Graph

/-- Whether exactly one node takes the value, and the node is no output. -/
def hasSingleObserver (g : Graph) (c : Consumers) (id : NodeId) : Bool :=
  (c.get id).length == 1 && !g.isPinned id

/-- Replaces a node. The node that was constructed is kept. -/
def replace (g : Graph) (id : NodeId) (n : Node) : Graph :=
  g.modifySlot id fun s => { s with node := n, constructed := some (s.constructed.getD s.node) }

/-- Marks a node as computed by another one, and so the nodes that were absorbed into it. -/
def absorb (g : Graph) (id into : NodeId) : Graph :=
  let g : Graph := { g with
    slots := g.slots.map fun s => if s.into = some id then { s with into := some into } else s }
  g.modifySlot id ({ · with into := some into })

/-- The factors, if the node is a product that can be absorbed into a sum. -/
def absorbableProduct? (g : Graph) (c : Consumers) (sum : Node) (id other : NodeId) :
    Option (NodeId × NodeId) :=
  match g.node? id with
  | some product =>
    match product.op, product.inputs with
    | .elementwise (.binary .mul), [a, b] =>
      if id ≠ other ∧ g.isLive id ∧ g.hasSingleObserver c id ∧ product.compatible sum then some (a, b)
      else none
    | _, _ => none
  | none => none

/-- Replaces the sum with number `id` by the multiply-add of the factors of a product and another
operand. -/
def substitute (g : Graph) (c : Consumers) (id : NodeId) (sum : Node) (product a b other : NodeId) :
    Graph × Consumers :=
  let g := g.replace id { sum with op := .elementwise .fusedMulAdd, inputs := [a, b, other] }
  let g := g.absorb product id
  let c := [a, b].foldl (fun c input => (c.remove input product).add input id) (c.clear product)
  (g, c)

/-- One step: the node with number `id`, if it is a sum of a product. The left operand is tried
first. -/
def mulAddStep? (g : Graph) (c : Consumers) (id : NodeId) : Option (Graph × Consumers) :=
  match g.node? id with
  | some sum =>
    match sum.op, sum.inputs with
    | .elementwise (.binary .add), [l, r] =>
      if !g.isLive id || !sum.shape.dtype.isFloat then none
      else match g.absorbableProduct? c sum l r with
        | some (a, b) => some (g.substitute c id sum l a b r)
        | none =>
          match g.absorbableProduct? c sum r l with
          | some (a, b) => some (g.substitute c id sum r a b l)
          | none => none
    | _, _ => none
  | none => none

/-- The graph, its table and the number of substitutions, after the nodes of a list. -/
def mulAddFold (g : Graph) (c : Consumers) (ids : List NodeId) : Graph × Consumers × Nat :=
  ids.foldl (fun (g, c, count) id =>
    match g.mulAddStep? c id with
    | some (g, c) => (g, c, count + 1)
    | none => (g, c, count)) (g, c, 0)

/-- Substitutes fused multiply-adds in the order of the nodes. Gives their number too. -/
def substituteMulAdds (g : Graph) : Graph × Nat :=
  let (g', _, count) := g.mulAddFold (Consumers.ofGraph g) g.ids
  (g', count)

end LazyTensor.Graph
