import LazyTensor.Graph.MulAdd

/-!
# Fusion of chains

Elementwise nodes of one shape and device are merged into one fused node, as long as each merged node
but the last is taken by merged nodes only and is no output, and as the fused node has at most seven
inputs. The fused node has the number of the last one, into which the others are absorbed.
-/

namespace LazyTensor.Graph

/-- Whether the node is elementwise and was not absorbed. -/
def isFusable (g : Graph) (id : NodeId) : Bool := g.isLive id && (g.node? id).any (·.isElementwise)

/-- Whether two nodes of the graph can be computed by one kernel. -/
def areCompatible (g : Graph) (a b : NodeId) : Bool :=
  match g.node? a, g.node? b with
  | some a, some b => a.compatible b
  | _, _ => false

/-- The end of the chain from a node: as long as one fusable node alone takes the value, go on there.
The fuel bounds the steps, each of which goes to a larger number. -/
def chainEnd (g : Graph) (c : Consumers) : (fuel : Nat) → NodeId → NodeId
  | 0, id => id
  | fuel + 1, id =>
    if !g.hasSingleObserver c id then id
    else match c.get id with
      | next :: _ =>
        if g.isFusable next && g.areCompatible next id then g.chainEnd c fuel next else id
      | [] => id

/-- The inputs of the members of a group that are no members, in the order of first use. -/
def externals (g : Graph) (group : List NodeId) : List NodeId :=
  ((group.flatMap g.inputs).filter (!group.contains ·)).eraseDups

/-- Whether an input of a member can join the group of a terminal node. -/
def canJoin (g : Graph) (c : Consumers) (terminal : NodeId) (group : List NodeId) (id : NodeId) :
    Bool :=
  !group.contains id && g.isFusable id && g.hasSingleObserver c id && g.areCompatible id terminal

/-- Grows a group, an increasing list, backwards from a member through its inputs in order. A node joins
if the group then has at most seven inputs. The fuel bounds the depth: inputs have smaller numbers. -/
def growGroup (g : Graph) (c : Consumers) (terminal : NodeId) :
    (fuel : Nat) → NodeId → List NodeId → List NodeId
  | 0, _, group => group
  | fuel + 1, id, group =>
    (g.inputs id).foldl (fun group input =>
      if !g.canJoin c terminal group input then group
      else
        let larger := Consumers.including input group
        if Program.maxInputs < (g.externals larger).length then group
        else g.growGroup c terminal fuel input larger) group

/-- The group of a terminal node, in increasing order. -/
def group (g : Graph) (c : Consumers) (terminal : NodeId) : List NodeId :=
  g.growGroup c terminal (terminal + 1) terminal [terminal]

/-- An operand of a step: the result of an earlier member, or an input of the group. -/
def stepOperand (members externals : List NodeId) (id : NodeId) : Operand :=
  match members.findIdx? (· == id) with
  | some i => .step i
  | none => .input (externals.findIdx (· == id))

/-- The program that computes the members of a group from its inputs. -/
def groupProgram (g : Graph) (dtype : DType) (members externals : List NodeId) : Program :=
  { dtype
    numInputs := externals.length
    steps := members.map fun id =>
      ⟨((g.node? id).map (·.op.kind)).getD .invalid, (g.inputs id).map (stepOperand members externals)⟩ }

/-- The table after the members of a group were merged into the terminal node. -/
def fuseConsumers (g : Graph) (c : Consumers) (terminal : NodeId) (members externals : List NodeId) :
    Consumers :=
  let c := members.foldl (fun c member =>
    let c := (g.inputs member).foldl (fun c input => c.remove input member) c
    if member = terminal then c else c.clear member) c
  externals.foldl (fun c input => c.add input terminal) c

/-- Merges the members of a group into its terminal node, which is the last of them. -/
def fuseGroup (g : Graph) (c : Consumers) (terminal : NodeId) (last : Node)
    (members externals : List NodeId) : Graph × Consumers :=
  let program := g.groupProgram last.shape.dtype members externals
  let c := g.fuseConsumers c terminal members externals
  let g := g.replace terminal { last with op := .fused (some program), inputs := externals }
  ((members.dropLast).foldl (fun g member => g.absorb member terminal) g, c)

/-- One step: the chain that starts at a node, if its group has more than one member. -/
def fuseStep? (g : Graph) (c : Consumers) (id : NodeId) : Option (Graph × Consumers) :=
  if !g.isFusable id then none
  else
    let terminal := g.chainEnd c g.size id
    let members := g.group c terminal
    if members.length < 2 then none
    else (g.node? terminal).map fun last =>
      g.fuseGroup c terminal last members (g.externals members)

/-- The graph, its table and the number of fused nodes, after the chains from the nodes of a list. -/
def fuseFold (g : Graph) (c : Consumers) (ids : List NodeId) : Graph × Consumers × Nat :=
  ids.foldl (fun (g, c, count) id =>
    match g.fuseStep? c id with
    | some (g, c) => (g, c, count + 1)
    | none => (g, c, count)) (g, c, 0)

/-- One pass over all nodes. Gives the number of fused nodes too. -/
def fuseChains (g : Graph) : Graph × Nat :=
  let (g', _, count) := g.fuseFold (Consumers.ofGraph g) g.ids
  (g', count)

/-- Passes until one changes nothing. A pass that changes something absorbs a node, which bounds their
number by the fuel. -/
def fuseAll : (fuel : Nat) → Graph → Graph × Nat
  | 0, g => (g, 0)
  | fuel + 1, g =>
    let (g, count) := g.fuseChains
    if count = 0 then (g, 0)
    else
      let (g, more) := fuseAll fuel g
      (g, count + more)

/-- Merges nodes so that the graph has fewer kernels: first multiply-adds, then chains. -/
def optimize (g : Graph) : Graph :=
  let (g, mulAdds) := g.substituteMulAdds
  let (g, fused) := fuseAll g.size g
  { g with replacements := g.replacements + mulAdds + fused }

end LazyTensor.Graph
