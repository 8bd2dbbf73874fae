import LazyTensor.Graph.Basic

/-!
# Construction of graphs

Nodes are built from handles of other nodes. All operands of a node must be nodes of one graph on one
device, and each operation has its rule, which gives the shape of the result. A rejected call changes
nothing.
-/

namespace LazyTensor

/-- The number of a graph. -/
abbrev GraphId := Nat

/-- A node of a graph, which may not exist. -/
structure NodeRef where
  graph : GraphId
  id : Int
deriving DecidableEq

/-- What operands are given by: a node, or nothing. -/
abbrev Handle := Option NodeRef

/-- All graphs, by number. -/
structure Workspace where
  graphs : Array Graph := #[]

/-- Why a node cannot be built or used. -/
inductive Reason where
  | noGraph
  | noGraphOfHandle
  | emptyHandle (graph : String)
  | emptyOperand
  | otherGraph (id : Int) (source target : String)
  | dangling (id : Int) (graph : String) (size : Nat)
  | unsupported (dtype : DType)
  | notPositive (shape : Shape) (dim : Int) (axis : Nat)
  | invalidDevice (device : Device)
  | otherDevice (operand : Nat) (device first : Device)
  | notRankOne (shape : Shape)
  | operandCount (takes got : Nat)
  | operandDType (operand : Nat) (dtype first : DType)
  | operandShape (operand : Nat) (shape first : Shape)
  | floatOnly (dtype : DType)
  | signedOnly (dtype : DType)
  | productDTypes (lhs rhs : DType)
  | productRanks (lhs rhs : Shape)
  | productBatches (lhs rhs : Shape)
  | productContracting (lhs rhs : Shape)
  | biasShape (bias lhs rhs product : Shape)
  | permutationLength (permutation : List Int) (rank : Nat)
  | notPermutation (permutation : List Int) (rank : Nat)
  | noOutputs
  | invalidHandle

def Reason.text : Reason → String
  | .noGraph => "nil Graph"
  | .noGraphOfHandle => "nil Graph, maybe a zero GraphTensor was used"
  | .emptyHandle graph => s!"invalid GraphTensor (zero value) used in graph {Text.quote graph}"
  | .emptyOperand => "invalid GraphTensor (zero value) given as operand #0"
  | .otherGraph id source target =>
    s!"operand #{id} is from graph {Text.quote source}, not from graph {Text.quote target}"
  | .dangling id graph size =>
    s!"dangling node reference #{id}, graph {Text.quote graph} has {size} nodes"
  | .unsupported dtype =>
    let supported := Text.listing (ElementType.all.map (·.dtype.name))
    s!"dtype {dtype.name} not supported, must be one of {supported}"
  | .notPositive shape dim axis =>
    s!"shape {shape.text} has non-positive dimension {dim} on axis {axis}"
  | .invalidDevice device => s!"invalid device {device.text}"
  | .otherDevice operand device first =>
    s!"operand #{operand} is on device {device.text}, operand #0 is on device {first.text}"
  | .notRankOne shape => s!"requires a rank-1 shape, got {shape.text}"
  | .operandCount takes got => s!"takes {takes} operands, got {got}"
  | .operandDType operand dtype first =>
    s!"operand #{operand} has dtype {dtype.name}, operand #0 has dtype {first.name}"
  | .operandShape operand shape first =>
    s!"operand #{operand} has shape {shape.text}, operand #0 has shape {first.text}"
  | .floatOnly dtype => s!"only defined for floating point dtypes, got {dtype.name}"
  | .signedOnly dtype => s!"not defined for unsigned dtype {dtype.name}"
  | .productDTypes lhs rhs => s!"lhs has dtype {lhs.name}, rhs has dtype {rhs.name}"
  | .productRanks lhs rhs =>
    "lhs and rhs must both be rank 2 ([M, K] x [K, N]) or rank 3 ([B, M, K] x [B, K, N]), " ++
      s!"got lhs {lhs.text} and rhs {rhs.text}"
  | .productBatches lhs rhs => s!"batch dimensions don't match: lhs {lhs.text} and rhs {rhs.text}"
  | .productContracting lhs rhs =>
    s!"contracting dimensions don't match: lhs {lhs.text} and rhs {rhs.text}"
  | .biasShape bias lhs rhs product =>
    s!"bias has shape {bias.text}, the product of lhs {lhs.text} and rhs {rhs.text} " ++
      s!"has shape {product.text}"
  | .permutationLength permutation rank =>
    s!"permutation {Text.integers permutation} has {permutation.length} axes, operand has rank {rank}"
  | .notPermutation permutation rank =>
    s!"invalid permutation {Text.integers permutation} for rank {rank}"
  | .noOutputs => "no outputs given"
  | .invalidHandle => "invalid GraphTensor (zero value or not from a graph)"

/-- A rejected call. -/
structure ConstructionError where
  call : String
  reason : Reason

instance : Failure ConstructionError where
  kind _ := .construction
  message e := context e.call e.reason.text

inductive GraphError where
  | construction (cause : ConstructionError)
  | invalidNode (graph : String) (id : Int) (size : Nat)
  | noGraph

instance : Failure GraphError where
  kind
    | .construction cause => Failure.kind cause
    | .invalidNode .. => .plain
    | .noGraph => .fault
  message
    | .construction cause => Failure.message cause
    | .invalidNode graph id size =>
      s!"Graph {Text.quote graph}: invalid node id {id}, graph has {size} nodes"
    | .noGraph => FailureKind.fault.cause

/-! ## Rules -/

/-- The shape has a supported data type and positive dimensions. -/
def checkShape (shape : Shape) : Except Reason Unit :=
  if !shape.dtype.isSupported then .error (.unsupported shape.dtype)
  else match Shape.notPositive? shape.dims with
    | some (axis, dim) => .error (.notPositive shape dim axis)
    | none => .ok ()

def checkDevice (device : Device) : Except Reason Unit :=
  if device.ok then .ok () else .error (.invalidDevice device)

def checkRankOne (shape : Shape) : Except Reason Unit :=
  if shape.rank = 1 then .ok () else .error (.notRankOne shape)

/-- The operands from number `i` on have the shape of the first operand. -/
def checkSameShape (first : Shape) : (i : Nat) → List Shape → Except Reason Unit
  | _, [] => .ok ()
  | i, s :: shapes =>
    if s.dtype ≠ first.dtype then .error (.operandDType i s.dtype first.dtype)
    else if s.dims ≠ first.dims then .error (.operandShape i s first)
    else checkSameShape first (i + 1) shapes

/-- The elementwise operation is defined for the data type. -/
def checkDefined (e : Elementwise) (dtype : DType) : Except Reason Unit :=
  if e.floatOnly && !dtype.isFloat then .error (.floatOnly dtype)
  else if e.signedOnly && dtype.isUnsigned then .error (.signedOnly dtype)
  else .ok ()

/-- Elementwise operations take operands of one shape, which is that of the result. -/
def elementwiseShape (e : Elementwise) (operands : List Shape) : Except Reason Shape := do
  if operands.length ≠ e.arity then throw (.operandCount e.arity operands.length)
  match operands with
  | [] => throw (.operandCount e.arity 0)
  | first :: rest =>
    checkSameShape first 1 rest
    checkDefined e first.dtype
    return first

/-- The product of matrices, or of as many matrices in two batches. -/
def productShape (lhs rhs : Shape) : Except Reason Shape :=
  if lhs.dtype ≠ rhs.dtype then .error (.productDTypes lhs.dtype rhs.dtype)
  else match lhs.dims, rhs.dims with
    | [m, k], [k', n] =>
      if k ≠ k' then .error (.productContracting lhs rhs) else .ok ⟨lhs.dtype, [m, n]⟩
    | [b, m, k], [b', k', n] =>
      if b ≠ b' then .error (.productBatches lhs rhs)
      else if k ≠ k' then .error (.productContracting lhs rhs)
      else .ok ⟨lhs.dtype, [b, m, n]⟩
    | _, _ => .error (.productRanks lhs rhs)

/-- Every axis stands once in the permutation. -/
def isPermutation (rank : Nat) (permutation : List Int) : Bool :=
  permutation.all (fun axis => 0 ≤ axis && axis < rank) && permutation.Nodup

/-- The operand's dimensions in the order of the permutation. -/
def transposeShape (operand : Shape) (permutation : List Int) : Except Reason Shape :=
  if permutation.length ≠ operand.rank then .error (.permutationLength permutation operand.rank)
  else if !isPermutation operand.rank permutation then .error (.notPermutation permutation operand.rank)
  else .ok ⟨operand.dtype, permutation.map fun axis => operand.dims.getD axis.toNat 0⟩

/-! ## Handles -/

namespace Workspace

/-- Adds a graph. Without a name it gets one from the number of graphs there are. -/
def newGraph (w : Workspace) (name : String) : GraphId × Workspace :=
  let id := w.graphs.size
  (id, ⟨w.graphs.push { name := if name = "" then s!"graph_#{id}" else name }⟩)

def graph? (w : Workspace) (id : GraphId) : Option Graph := w.graphs[id]?

/-- The graph with a number, if a number is given. -/
def graph (w : Workspace) (id : Option GraphId) : Except GraphError (GraphId × Graph) :=
  match id.bind fun id => (w.graph? id).map (id, ·) with
  | some found => .ok found
  | none => .error .noGraph

def setGraph (w : Workspace) (id : GraphId) (g : Graph) : Workspace :=
  ⟨w.graphs.setIfInBounds id g⟩

def graphName (w : Workspace) (id : GraphId) : String := (w.graph? id).elim "" (·.name)

/-- The node of a handle, which must be one of the graph. -/
def owned (w : Workspace) (graph : GraphId) (g : Graph) : Handle → Except Reason (NodeId × Node)
  | none => .error (.emptyHandle g.name)
  | some ref =>
    if ref.graph ≠ graph then .error (.otherGraph ref.id (w.graphName ref.graph) g.name)
    else if ref.id < 0 then .error (.dangling ref.id g.name g.size)
    else match g.node? ref.id.toNat with
      | some n => .ok (ref.id.toNat, n)
      | none => .error (.dangling ref.id g.name g.size)

/-- The nodes of handles, which must be ones of the graph, if there is a graph. -/
def ownedAll (w : Workspace) (graph : Option GraphId) (handles : List Handle) :
    Except Reason (List NodeId) :=
  match handles with
  | [] => .ok []
  | handle :: rest =>
    match graph.bind fun id => (w.graph? id).map (id, ·) with
    | none => .error .noGraphOfHandle
    | some (id, g) => (handle :: rest).mapM fun h => (·.1) <$> w.owned id g h

/-- The nodes of operands from number `i` on, all on the device of the first. -/
def operandsFrom (w : Workspace) (graph : GraphId) (g : Graph) (first : Option Device) :
    (i : Nat) → List Handle → Except Reason (List (NodeId × Node))
  | _, [] => .ok []
  | i, h :: handles => do
    let (id, n) ← w.owned graph g h
    let first := first.getD n.device
    if n.device ≠ first then throw (.otherDevice i n.device first)
    return (id, n) :: (← w.operandsFrom graph g (some first) (i + 1) handles)

/-- The graph of the first operand, and the nodes of all operands. -/
def operands (w : Workspace) (handles : List Handle) :
    Except Reason (GraphId × Graph × List (NodeId × Node)) :=
  match handles with
  | some ref :: _ =>
    match w.graph? ref.graph with
    | none => .error .emptyOperand
    | some g => do return (ref.graph, g, ← w.operandsFrom ref.graph g none 0 handles)
  | _ => .error .emptyOperand

def node (w : Workspace) (h : Handle) : Except ConstructionError (NodeId × Node) :=
  match h.bind fun ref => (w.graph? ref.graph).map (ref.graph, ·) with
  | none => .error ⟨"GraphTensor.Node", .noGraphOfHandle⟩
  | some (graph, g) =>
    match w.owned graph g h with
    | .ok n => .ok n
    | .error reason => .error ⟨"GraphTensor.Node", reason⟩

/-- Whether a handle is one of a node. -/
def isOk (w : Workspace) (h : Handle) : Bool :=
  match w.node h with
  | .ok _ => true
  | .error _ => false

def handleText (w : Workspace) (h : Handle) : String :=
  match w.node h with
  | .ok (id, n) => s!"GraphTensor(#{id}, {n.op.kind.name}, {n.shape.text} @{n.device.text})"
  | .error _ => "GraphTensor(invalid)"

end Workspace

/-- The number in a handle, -1 if there is none. -/
def Handle.id (h : Handle) : Int := h.elim (-1) (·.id)

/-! ## Calls -/

/-- A call that builds a node. -/
inductive Construction where
  | fill (graph : Option GraphId) (device : Device) (shape : Shape) (value : Double)
  | arange (graph : Option GraphId) (device : Device) (shape : Shape) (start step : Double)
  /-- As many values as the shape has, from `start` to before `stop`. -/
  | arangeFromTo (graph : Option GraphId) (device : Device) (shape : Shape) (start stop : Double)
  | elementwise (e : Elementwise) (operands : List Handle)
  | matMul (lhs rhs : Handle)
  /-- `alpha * bias + beta * lhs * rhs`. -/
  | matMulAxpby (lhs rhs bias : Handle) (alpha beta : Double)
  | transpose (x : Handle) (permutation : List Int)
  | cast (x : Handle) (dtype : DType)

/-- The name of a call. -/
def Construction.name : Construction → String
  | .fill .. => "Fill"
  | .arange .. => "Arange"
  | .arangeFromTo .. => "ArangeFromTo"
  | .elementwise e _ => e.name
  | .matMul .. => "MatMul"
  | .matMulAxpby .. => "MatMulAxpby"
  | .transpose .. => "Transpose"
  | .cast .. => "Cast"

namespace Workspace

/-- Adds a node to a graph. -/
def push (w : Workspace) (graph : GraphId) (g : Graph) (n : Node) : Handle × Workspace :=
  let (id, g) := g.push n
  (some ⟨graph, id⟩, w.setGraph graph g)

/-- Adds a node without inputs, on a device. -/
def pushSource (w : Workspace) (graph : Option GraphId) (device : Device) (shape : Shape)
    (checkRule : Except Reason Unit) (op : Operation) : Except Reason (Handle × Workspace) := do
  let some (id, g) := graph.bind fun id => (w.graph? id).map (id, ·) | throw .noGraph
  checkDevice device
  checkShape shape
  checkRule
  return w.push id g { op, shape, device, inputs := [] }

/-- Adds a node with operands, whose shape follows from theirs by the rule of the operation. -/
def pushOperation (w : Workspace) (handles : List Handle) (rule : List Shape → Except Reason Shape)
    (op : List Shape → Operation) : Except Reason (Handle × Workspace) := do
  let (id, g, nodes) ← w.operands handles
  let shapes := nodes.map (·.2.shape)
  let shape ← rule shapes
  let device := (nodes.head?.map (·.2.device)).getD .cpu
  return w.push id g { op := op shapes, shape, device, inputs := nodes.map (·.1) }

/-- The step between values of which `count` lead from `start` to before `stop`. -/
def stepBetween (start stop : Double) (count : Int) : Double := (stop.sub start).div (.ofInt count)

/-- Builds a node, or gives the reason why the call is rejected. The name is the one of the call whose
rule is broken. -/
def construct (w : Workspace) (c : Construction) : Except ConstructionError (Handle × Workspace) :=
  let named {α : Type} (call : String) (x : Except Reason α) : Except ConstructionError α :=
    x.mapError (⟨call, ·⟩)
  let arange (graph : Option GraphId) (device : Device) (shape : Shape) (start step : Double) :=
    named "Arange" (w.pushSource graph device shape (checkRankOne shape) (.arange start step))
  match c with
  | .fill graph device shape value =>
    named c.name (w.pushSource graph device shape (.ok ()) (.fill value))
  | .arange graph device shape start step => arange graph device shape start step
  | .arangeFromTo graph device shape start stop => do
    named c.name (checkShape shape)
    named c.name (checkRankOne shape)
    arange graph device shape start (stepBetween start stop (shape.dims.headD 1))
  | .elementwise e operands =>
    named c.name (w.pushOperation operands (elementwiseShape e) fun _ => .elementwise e)
  | .matMul lhs rhs =>
    let rule
      | [l, r] => productShape l r
      | shapes => .error (.operandCount 2 shapes.length)
    named c.name (w.pushOperation [lhs, rhs] rule fun _ => .matMul .zero .zero false)
  | .matMulAxpby lhs rhs bias alpha beta =>
    let rule
      | [l, r, b] => do
        let product ← productShape l r
        if b ≠ product then throw (.biasShape b l r product)
        return product
      | shapes => .error (.operandCount 3 shapes.length)
    named c.name (w.pushOperation [lhs, rhs, bias] rule fun _ => .matMul alpha beta true)
  | .transpose x permutation =>
    let rule
      | [operand] => transposeShape operand permutation
      | shapes => .error (.operandCount 1 shapes.length)
    named c.name (w.pushOperation [x] rule fun _ => .transpose permutation)
  | .cast x dtype => do
    let (_, _, nodes) ← named c.name (w.operands [x])
    if nodes.any (·.2.shape.dtype == dtype) then return (x, w)
    let rule
      | [operand] => do
        checkShape (operand.withDType dtype)
        return operand.withDType dtype
      | shapes => .error (.operandCount 1 shapes.length)
    named c.name (w.pushOperation [x] rule fun shapes =>
      .cast ((shapes.head?.map (·.dtype)).getD .invalid))

/-- Marks nodes as outputs. -/
def markOutputs (w : Workspace) (graph : Option GraphId) (outputs : List Handle) :
    Except GraphError Workspace :=
  match w.ownedAll graph outputs with
  | .error reason => .error (.construction ⟨"MarkOutputs", reason⟩)
  | .ok ids => do
    let (id, g) ← w.graph graph
    return w.setGraph id (g.pin ids)

end Workspace

namespace Graph

/-- The number of a node that exists. -/
def validId (g : Graph) (id : Int) : Except GraphError NodeId :=
  if 0 ≤ id ∧ id < g.size then .ok id.toNat else .error (.invalidNode g.name id g.size)

end Graph

end LazyTensor
