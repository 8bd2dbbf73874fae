import LazyTensor.Device
import LazyTensor.Operation.Basic
import LazyTensor.Shape

/-!
# Graphs

A graph is an arena of nodes that only grows: a node is known by its number and takes the values of
nodes with smaller numbers. Optimisation replaces nodes in place and marks nodes as absorbed, but it
keeps the node that was constructed.
-/

namespace LazyTensor

/-- The number of a node in its graph. -/
abbrev NodeId := Nat

/-- An operation on the values of other nodes, with the shape and the device of its own value. -/
structure Node where
  op : Operation
  shape : Shape
  device : Device
  inputs : List NodeId

namespace Node

/-- Whether the node is a single elementwise operation. -/
def isElementwise (n : Node) : Bool := n.op.kind.isElementwise

/-- Whether two nodes can be computed by one kernel. -/
def compatible (a b : Node) : Bool := a.device == b.device && a.shape == b.shape

/-- The text of the node with a number. -/
def text (n : Node) (id : NodeId) : String :=
  let inputs := ", ".intercalate (n.inputs.map fun i => s!"#{i}")
  s!"#{id}: {n.op.text}({inputs}) -> {n.shape.text} @{n.device.text}"

end Node

/-- A place of the arena. -/
structure Slot where
  node : Node
  /-- The node that was constructed here, if it was replaced. -/
  constructed : Option Node := none
  /-- The node whose kernel computes this one, if it was absorbed. -/
  into : Option NodeId := none
  /-- Whether the node is an output, which is never absorbed. -/
  pinned : Bool := false

/-- An arena of nodes. -/
structure Graph where
  name : String
  slots : Array Slot := #[]
  /-- How many nodes were made by optimisation. -/
  replacements : Nat := 0

namespace Graph

/-- The number of nodes that were constructed. -/
def size (g : Graph) : Nat := g.slots.size

/-- The node with a number, as it is now. -/
def node? (g : Graph) (id : NodeId) : Option Node := g.slots[id]?.map (·.node)

/-- The node with a number, as it was constructed. -/
def constructed? (g : Graph) (id : NodeId) : Option Node :=
  g.slots[id]?.map fun s => s.constructed.getD s.node

/-- The node whose kernel computes a node that was absorbed. -/
def into? (g : Graph) (id : NodeId) : Option NodeId := g.slots[id]?.bind (·.into)

/-- Whether the node is computed by a kernel of its own. -/
def isLive (g : Graph) (id : NodeId) : Bool := (g.into? id).isNone

def isPinned (g : Graph) (id : NodeId) : Bool := g.slots[id]?.any (·.pinned)

def inputs (g : Graph) (id : NodeId) : List NodeId := (g.node? id).elim [] (·.inputs)

/-- The numbers of all nodes. -/
def ids (g : Graph) : List NodeId := List.range g.size

/-- The numbers of the nodes that were not absorbed. -/
def liveIds (g : Graph) : List NodeId := g.ids.filter g.isLive

/-- How many nodes were absorbed. -/
def numAbsorbed (g : Graph) : Nat := g.ids.countP fun id => !g.isLive id

/-- How many nodes were not absorbed. -/
def numNodes (g : Graph) : Nat := g.size - g.numAbsorbed

/-- The nodes that take the value of a node and were not absorbed. -/
def consumers (g : Graph) (id : NodeId) : List NodeId :=
  g.ids.filter fun c => id < c && g.isLive c && (g.inputs c).contains id

/-- Adds a node, and gives its number. -/
def push (g : Graph) (n : Node) : NodeId × Graph :=
  (g.size, { g with slots := g.slots.push { node := n } })

/-- Changes the place with a number. -/
def modifySlot (g : Graph) (id : NodeId) (f : Slot → Slot) : Graph :=
  { g with slots := g.slots.modify id f }

/-- Marks nodes as outputs. -/
def pin (g : Graph) (outputs : List NodeId) : Graph :=
  outputs.foldl (fun g id => g.modifySlot id ({ · with pinned := true })) g

/-- The nodes that were not absorbed, one on a line. -/
def text (g : Graph) : String :=
  let absorbed :=
    if g.numAbsorbed = 0 then "" else s!" ({g.numAbsorbed} absorbed by {g.replacements} rewrites)"
  let line (id : NodeId) : String :=
    "\t" ++ (g.node? id).elim "" (·.text id) ++ (if g.isPinned id then " [output]" else "") ++ "\n"
  s!"Graph {Text.quote g.name}: {g.numNodes} nodes{absorbed}\n" ++ String.join (g.liveIds.map line)

end Graph

end LazyTensor
