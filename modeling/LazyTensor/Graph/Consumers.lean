import LazyTensor.Graph.Basic

/-!
# Consumer tables

The table of a graph has, for each node, the nodes that take its value and were not absorbed, in
increasing order. Optimisation keeps a table up to date while it changes the graph.
-/

namespace LazyTensor

/-- For each node, the nodes that take its value. -/
structure Consumers where
  table : Array (List NodeId)

namespace Consumers

def get (c : Consumers) (id : NodeId) : List NodeId := c.table.getD id []

/-- Removes a consumer from a list. -/
def without (consumer : NodeId) (list : List NodeId) : List NodeId := list.filter (· != consumer)

/-- Puts a consumer into an increasing list, if it is not there. -/
def including (consumer : NodeId) : List NodeId → List NodeId
  | [] => [consumer]
  | c :: cs =>
    if consumer < c then consumer :: c :: cs
    else if consumer = c then c :: cs
    else c :: including consumer cs

def remove (c : Consumers) (id consumer : NodeId) : Consumers :=
  ⟨c.table.modify id (without consumer)⟩

def add (c : Consumers) (id consumer : NodeId) : Consumers :=
  ⟨c.table.modify id (including consumer)⟩

/-- Removes all consumers of a node. -/
def clear (c : Consumers) (id : NodeId) : Consumers := ⟨c.table.modify id fun _ => []⟩

/-- Adds a consumer at the end of the list of a node. -/
def append (c : Consumers) (id consumer : NodeId) : Consumers :=
  ⟨c.table.modify id (· ++ [consumer])⟩

/-- The table of a graph, made in one pass: each node that was not absorbed comes to the end of the
lists of its inputs. -/
def ofGraph (g : Graph) : Consumers :=
  g.liveIds.foldl
    (fun c id => (g.inputs id).eraseDups.foldl (fun c input => c.append input id) c)
    ⟨Array.replicate g.size []⟩

end Consumers

end LazyTensor
