import LazyTensor.Graph.Construction
import LazyTensor.Tensor.Basic

/-!
# Evaluation of graphs

The nodes that the outputs depend on are executed in the order of their numbers, each on the backend
of its device. A buffer is given back, or given away to be overwritten, at its last use, so that only
the values that are still needed are held.
-/

namespace LazyTensor

/-- Why an evaluation fails, with the node at which it does. -/
inductive EvaluationError where
  | rejected (cause : ConstructionError)
  | device (graph : String) (id : NodeId) (node : Node) (cause : RegistryError)
  | declared (graph : String) (id : NodeId) (node : Node) (cause : Capabilities.Error)
  | execution (graph : String) (id : NodeId) (node : Node) (cause : HostError)
  | materialization (graph : String) (id : NodeId) (node : Node) (cause : HostError)

/-- The text of an error, with the graph and the node before it. -/
def evaluationText (doing graph : String) (id : NodeId) (node : Node) (kind : FailureKind)
    (cause : String) : String :=
  if kind = .abort then cause
  else context s!"Graph {Text.quote graph} {doing} {node.text id}" cause

instance : Failure EvaluationError where
  kind
    | .rejected cause => Failure.kind cause
    | .device _ _ _ cause => Failure.kind cause
    | .declared _ _ _ cause => Failure.kind cause
    | .execution _ _ _ cause => Failure.kind cause
    | .materialization _ _ _ cause => Failure.kind cause
  message
    | .rejected cause => Failure.message cause
    | .device graph id node cause =>
      evaluationText "evaluating" graph id node (Failure.kind cause) (Failure.message cause)
    | .declared graph id node cause =>
      evaluationText "evaluating" graph id node (Failure.kind cause) (Failure.message cause)
    | .execution graph id node cause =>
      evaluationText "evaluating" graph id node (Failure.kind cause) (Failure.message cause)
    | .materialization graph id node cause =>
      evaluationText "materializing" graph id node (Failure.kind cause) (Failure.message cause)

/-- The state of an evaluation. -/
structure Evaluation where
  /-- Whether an output depends on the node. -/
  needed : Array Bool
  isOutput : Array Bool
  /-- The operands of needed nodes, not executed yet, that are this node. -/
  uses : Array Nat
  /-- The buffers of nodes. -/
  held : Array (Option Held)
  /-- How many nodes hold a buffer. -/
  live : Int := 0
  /-- The most nodes that ever held a buffer. -/
  maxLive : Int := 0

namespace Evaluation

/-- Marks the inputs of a needed node as needed, once for each operand. -/
def need (g : Graph) (e : Evaluation) (id : NodeId) : Evaluation :=
  if e.needed.getD id false then
    (g.inputs id).foldl (fun e input => { e with
      needed := e.needed.setIfInBounds input true
      uses := e.uses.modify input (· + 1) }) e
  else e

/-- The evaluation of outputs, before anything is executed. -/
def plan (g : Graph) (outputs : List NodeId) : Evaluation :=
  let marked := outputs.foldl (fun marks id => marks.setIfInBounds id true) (Array.replicate g.size false)
  g.ids.reverse.foldl (need g)
    { needed := marked
      isOutput := marked
      uses := Array.replicate g.size 0
      held := Array.replicate g.size none }

def held? (e : Evaluation) (id : NodeId) : Option Held := (e.held.getD id none)

def isNeeded (e : Evaluation) (id : NodeId) : Bool := e.needed.getD id false

/-- The buffer of a node, as an operand. -/
def ref (e : Evaluation) (id : NodeId) : BufferRef := (e.held? id).elim .absent fun h => .host h.buffer

/-- Which operands are given away: each is at its last use in this node, no output, and does not stand
earlier among the operands. -/
def owned (e : Evaluation) (inputs : List NodeId) : List Bool :=
  inputs.mapIdx fun i input =>
    !e.isOutput.getD input false && e.uses.getD input 0 == inputs.count input && inputs.idxOf input == i

/-- A node gets a buffer. -/
def hold (e : Evaluation) (id : NodeId) (held : Held) : Evaluation :=
  { e with
    held := e.held.setIfInBounds id (some held)
    live := e.live + 1
    maxLive := max e.maxLive (e.live + 1) }

/-- Forgets the buffer of a node. -/
def drop (e : Evaluation) (id : NodeId) : Evaluation :=
  { e with held := e.held.setIfInBounds id none, live := e.live - 1 }

/-- Gives the buffer of a node back. -/
def release (e : Evaluation) (id : NodeId) : StateM Platform Evaluation := do
  match e.held? id with
  | none => return e
  | some held =>
    let _ ← (PlatformM.onHost held.backend (HostM.finalizeBuffer (.host held.buffer))).run
    return e.drop id

/-- Counts one use of an operand of a node whose value is in `output`. At the last use the buffer is given
back, unless it is the output itself. -/
def use (output : BufferId) (e : Evaluation) (input : NodeId) : StateM Platform Evaluation := do
  let e := { e with uses := e.uses.modify input (· - 1) }
  if 0 < e.uses.getD input 0 || e.isOutput.getD input false then return e
  match e.held? input with
  | none => return e
  | some held => if held.buffer = output then return e.drop input else e.release input

/-- The backend of the device of a node. If the device is not available, an operation that its backend
could never execute is reported as such. -/
def backendFor (g : Graph) (id : NodeId) (node : Node) : PlatformM EvaluationError BackendId := do
  match ← (PlatformM.forDevice node.device).run with
  | .ok backend => return backend
  | .error e =>
    if Failure.kind e = .unavailable then
      let p ← get
      let (result, registry) := p.registry.checkDeclared node.device node.op node.shape.dtype
      set { p with registry }
      if let .error e := result then throw (.declared g.name id node e)
    throw (.device g.name id node e)

/-- Executes a node. -/
def step (g : Graph) (id : NodeId) (node : Node) (e : Evaluation) : PlatformM EvaluationError Evaluation := do
  let backend ← backendFor g id node
  let output ← ExceptT.adapt (.execution g.name id node) (PlatformM.onHost backend
    (HostM.execute node.op (node.inputs.map e.ref) (e.owned node.inputs) node.shape))
  ExceptT.lift (node.inputs.foldlM (use output) (e.hold id ⟨backend, output⟩))

/-- Executes the needed nodes of a list, up to one that fails. -/
def run (g : Graph) : List NodeId → Evaluation → StateM Platform (Except EvaluationError Unit × Evaluation)
  | [], e => return (.ok (), e)
  | id :: ids, e => do
    match if e.isNeeded id then g.node? id else none with
    | none => run g ids e
    | some node =>
      match ← (step g id node e).run with
      | .ok e => run g ids e
      | .error err => return (.error err, e)

/-- Gives all buffers back. -/
def releaseAll (g : Graph) (e : Evaluation) : StateM Platform Unit := do
  let _ ← g.ids.foldlM release e

/-- The tensor of an output. -/
def materialize (g : Graph) (e : Evaluation) (id : NodeId) : PlatformM EvaluationError (NodeId × Tensor) := do
  match e.held? id, g.node? id with
  | some held, some node =>
    let tensor ← ExceptT.adapt (.materialization g.name id node)
      (Tensor.ofBuffer held.backend (.host held.buffer))
    return (id, tensor)
  | _, _ => return (id, .empty)

end Evaluation

namespace Graph

/-- The values of outputs, each once. After a failure nothing is held, unless the call could not go on. -/
def evaluate (g : Graph) (outputs : List NodeId) : PlatformM EvaluationError (List (NodeId × Tensor)) := do
  let (result, e) ← Evaluation.run g g.ids (Evaluation.plan g outputs)
  match result with
  | .ok _ => outputs.eraseDups.mapM (Evaluation.materialize g e)
  | .error err =>
    if Failure.kind err ≠ .abort then Evaluation.releaseAll g e
    throw err

end Graph

namespace Workspace

/-- The numbers of the outputs of an evaluation, which must be nodes of the graph. -/
def outputs (w : Workspace) (graph : Option GraphId) (handles : List Handle) :
    Except ConstructionError (List NodeId) :=
  if handles.isEmpty then .error ⟨"Evaluate", .noOutputs⟩
  else (w.ownedAll graph handles).mapError (⟨"Evaluate", ·⟩)

/-- Evaluates outputs, which are pinned first. Gives the tensor of each distinct output, and the number of
each output in order. -/
def evaluate (w : Workspace) (graph : Option GraphId) (handles : List Handle) :
    StateM Platform (Except EvaluationError (List (NodeId × Tensor) × List NodeId) × Workspace) := do
  match w.outputs graph handles with
  | .error e => return (.error (.rejected e), w)
  | .ok ids =>
    match graph.bind fun id => (w.graph? id).map (id, ·) with
    | none => return (.ok ([], []), w)
    | some (id, g) =>
      let g := g.pin ids
      let result ← (g.evaluate ids).run
      return (result.map (·, ids), w.setGraph id g)

end Workspace

end LazyTensor
