import LazyTensor.Session
import LazyTensor.Proofs.Exec
import LazyTensor.Proofs.Graph.Construction
import LazyTensor.Proofs.Graph.Fusion

/-!
# Runs of a session

A run is a list of calls, in any order: of construction, of optimisation, of evaluation and so on. A call
that fails leaves the session as it was when it failed. What a call does to the graphs is said once
(`Workspace.after_cases`): it may add a graph, and it may make one `Change` to one graph. What each of
these changes keeps, every run keeps.
-/

namespace LazyTensor

/-- A call on a session. -/
inductive Call where
  | newGraph (name : String)
  | construct (c : Construction)
  | markOutputs (graph : Option GraphId) (outputs : List Handle)
  | evaluate (graph : Option GraphId) (outputs : List Handle)
  | optimize (graph : Option GraphId)
  | finalizeTensor (id : Option TensorId)

def Call.steps : Call → SessionM Unit
  | .newGraph name => modify fun s => { s with workspace := (s.workspace.newGraph name).2 }
  | .construct c => do let _ ← SessionM.construct c
  | .markOutputs graph outputs => SessionM.markOutputs graph outputs
  | .evaluate graph outputs => do let _ ← SessionM.evaluate graph outputs
  | .optimize graph => do let _ ← SessionM.optimize graph
  | .finalizeTensor id => do let _ ← SessionM.finalizeTensor id

namespace Session

/-- A session before any call, with the configuration of all backends that the environment gives. -/
def start (environment : Option String) : Session :=
  { platform := { registry := { Registry.standard with environment } } }

/-- The session after a call, which may have failed. -/
def after (s : Session) (c : Call) : Session := (exec c.steps s).2

/-- The session after calls. -/
def run (calls : List Call) (s : Session) : Session := calls.foldl after s

theorem run_append (calls calls' : List Call) (s : Session) :
    run (calls ++ calls') s = run calls' (run calls s) := List.foldl_append

end Session

/-! ## Steps of a session -/

namespace SessionM

theorem exec_check {ε α : Type} [Failure ε] (x : Except ε α) (s : Session) :
    exec (check x) s = (x.mapError .of, s) := by
  cases x <;> rfl

theorem exec_onPlatform {α : Type} (x : StateM Platform α) (s : Session) :
    exec (onPlatform x) s =
      (.ok (x.run s.platform).1, { s with platform := (x.run s.platform).2 }) := rfl

theorem exec_addTensors (tensors : List (NodeId × Tensor)) (s : Session) :
    exec (tensors.mapM fun (id, t) => return (id, ← addTensor t)) s =
      (.ok (tensors.mapIdx fun i p => (p.1, s.tensors.size + i)),
        { s with tensors := s.tensors ++ (tensors.map (·.2)).toArray }) := by
  induction tensors generalizing s with
  | nil => simp
  | cons p tensors ih =>
    rw [List.mapM_cons]
    have hadd : exec (do return (p.1, ← addTensor p.2)) s =
        (.ok (p.1, s.tensors.size), { s with tensors := s.tensors.push p.2 }) := rfl
    rw [exec_bind_ok hadd, exec_bind_ok (ih _)]
    have hnext : ∀ i : Nat, s.tensors.size + 1 + i = s.tensors.size + (i + 1) := by
      omega
    simp [hnext]

theorem exec_evaluate (graph : Option GraphId) (outputs : List Handle) (s : Session) :
    exec (evaluate graph outputs) s =
      let r := (s.workspace.evaluate graph outputs).run s.platform
      let s' := { s with platform := r.2, workspace := r.1.2 }
      match r.1.1 with
      | .error e => (.error (.of e), s')
      | .ok (tensors, ids) =>
        (.ok (ids.filterMap ((tensors.mapIdx fun i p => (p.1, s.tensors.size + i)).lookup ·)),
          { s' with tensors := s.tensors ++ (tensors.map (·.2)).toArray }) := by
  rw [evaluate, exec_bind_ok (exec_get s), exec_bind_ok (exec_onPlatform _ s)]
  rcases (s.workspace.evaluate graph outputs).run s.platform with ⟨⟨result, w⟩, p⟩
  rw [exec_bind_ok (exec_modify _ _)]
  cases result with
  | error e => rw [exec_bind_error (exec_check _ _)]
  | ok r =>
    rw [exec_bind_ok (exec_check _ _), exec_bind_ok (exec_addTensors _ _)]
    rfl

theorem exec_finalizeTensor (id : Option TensorId) (s : Session) :
    exec (finalizeTensor id) s =
      match id.bind fun id => s.tensors[id]?.map (id, ·) with
      | none => (.ok false, s)
      | some (id, t) =>
        let r := t.finalize.run s.platform
        (.ok r.1.ok, { s with platform := r.2, tensors := s.tensors.setIfInBounds id r.1 }) := by
  have htensor : exec (tensor? id) s = (.ok (id.bind fun id => s.tensors[id]?.map (id, ·)), s) := rfl
  rw [finalizeTensor, exec_bind_ok htensor]
  cases id.bind fun id => s.tensors[id]?.map (id, ·) with
  | none => rfl
  | some found => rfl

end SessionM

/-! ## The graphs after a call -/

variable {g' : Graph}

namespace Workspace

variable {w : Workspace} {gid id : Nat} {g : Graph}

/-- The graphs after a call. -/
def after (w : Workspace) : Call → Workspace
  | .newGraph name => (w.newGraph name).2
  | .construct c => ((w.construct c).toOption.map (·.2)).getD w
  | .markOutputs graph outputs => (w.markOutputs graph outputs).toOption.getD w
  | .evaluate graph outputs =>
    match w.outputs graph outputs, graph.bind fun id => (w.graph? id).map (id, ·) with
    | .ok ids, some (id, g) => w.setGraph id (g.pin ids)
    | _, _ => w
  | .optimize graph => ((w.graph graph).toOption.map fun (id, g) => w.setGraph id g.optimize).getD w
  | .finalizeTensor _ => w

theorem evaluate_workspace (graph : Option GraphId) (outputs : List Handle) (p : Platform) :
    ((w.evaluate graph outputs).run p).1.2 = w.after (.evaluate graph outputs) := by
  simp only [evaluate, after]
  cases w.outputs graph outputs with
  | error e => rfl
  | ok ids =>
    cases graph.bind fun id => (w.graph? id).map (id, ·) with
    | none => rfl
    | some found => rfl

/-- What a call can do to a graph with a number. -/
inductive Change (gid : Nat) (c : Call) (g : Graph) : Graph → Prop where
  | same : Change gid c g g
  | push (k : Construction) (n : Node) (call : c = .construct k) (fits : g.Fits g.size n)
    (kind : n.op.kind ≠ .fused) (operands : ∀ i : Nat, i ∈ n.inputs → some ⟨gid, i⟩ ∈ k.operands) :
    Change gid c g (g.push n).2
  | pin (ids : List NodeId) : Change gid c g (g.pin ids)
  | optimize : Change gid c g g.optimize

private theorem bind_graph?_eq_some {graph : Option GraphId}
    (h : (graph.bind fun id => (w.graph? id).map (id, ·)) = some (gid, g)) : w.graph? gid = some g := by
  obtain ⟨id, -, hid⟩ := Option.bind_eq_some_iff.mp h
  obtain ⟨g', hg', heq⟩ := Option.map_eq_some_iff.mp hid
  obtain ⟨rfl, rfl⟩ := Prod.mk.inj heq
  exact hg'

private theorem graph_eq_ok {graph : Option GraphId} (h : w.graph graph = .ok (gid, g)) :
    w.graph? gid = some g := by
  simp only [Workspace.graph] at h
  split at h
  · rename_i found hfound
    obtain rfl := Except.ok.inj h
    exact bind_graph?_eq_some hfound
  · cases h

/-- All that a call can do to the graphs. -/
theorem after_cases (hw : w.WellFormed) (c : Call) :
    w.after c = w ∨ (∃ name, w.after c = ⟨w.graphs.push { name }⟩) ∨
      ∃ gid g g', w.graph? gid = some g ∧ w.after c = w.setGraph gid g' ∧ Change gid c g g' := by
  cases c with
  | newGraph name => exact .inr (.inl ⟨_, rfl⟩)
  | construct k =>
    simp only [after]
    cases hk : w.construct k with
    | error e => exact .inl rfl
    | ok r =>
      rcases construct_cases hw hk with ⟨gid, g, n, hg, hfits, hkind, hops, -, hw'⟩ | ⟨hw', -⟩
      · exact .inr (.inr ⟨gid, g, _, hg, hw', .push k n rfl hfits hkind hops⟩)
      · exact .inl hw'
  | markOutputs graph outputs =>
    simp only [after, markOutputs]
    cases w.ownedAll graph outputs with
    | error e => exact .inl rfl
    | ok ids =>
      cases hgraph : w.graph graph with
      | error e => exact .inl rfl
      | ok r => exact .inr (.inr ⟨r.1, r.2, _, graph_eq_ok hgraph, rfl, .pin ids⟩)
  | evaluate graph outputs =>
    simp only [after]
    split
    · rename_i ids id g _ hfound
      exact .inr (.inr ⟨id, g, _, bind_graph?_eq_some hfound, rfl, .pin ids⟩)
    · exact .inl rfl
  | optimize graph =>
    simp only [after]
    cases hgraph : w.graph graph with
    | error e => exact .inl rfl
    | ok r => exact .inr (.inr ⟨r.1, r.2, _, graph_eq_ok hgraph, rfl, .optimize⟩)
  | finalizeTensor id => exact .inl rfl

theorem graph?_after (hw : w.WellFormed) (c : Call) (hg' : (w.after c).graph? gid = some g') :
    (∃ name, g' = { name }) ∨ ∃ g, w.graph? gid = some g ∧ Change gid c g g' := by
  rcases after_cases hw c with hsame | ⟨name, hnew⟩ | ⟨id, g₀, g₁, hg₀, hset, hchange⟩
  · rw [hsame] at hg'
    exact .inr ⟨g', hg', .same⟩
  · rw [hnew, graph?, Array.getElem?_push] at hg'
    split at hg'
    · exact .inl ⟨name, (Option.some.inj hg').symm⟩
    · exact .inr ⟨g', hg', .same⟩
  · rw [hset, graph?_setGraph hg₀] at hg'
    split at hg'
    · rename_i heq
      subst heq
      obtain rfl := Option.some.inj hg'
      exact .inr ⟨g₀, hg₀, hchange⟩
    · exact .inr ⟨g', hg', .same⟩

theorem Change.wellFormed {c : Call} (hchange : Change gid c g g') (h : g.WellFormed) : g'.WellFormed := by
  cases hchange with
  | same => exact h
  | push k n _ hfits => exact h.push hfits
  | pin ids => exact h.pin ids
  | optimize => exact h.optimize.1

theorem WellFormed.after (hw : w.WellFormed) (c : Call) : (w.after c).WellFormed := by
  intro gid g' hg'
  rcases graph?_after hw c hg' with ⟨name, rfl⟩ | ⟨g, hg, hchange⟩
  · exact Graph.wellFormed_empty name
  · exact hchange.wellFormed (hw gid g hg)

theorem Change.constructed? {c : Call} (hchange : Change gid c g g') (h : g.WellFormed) (hid : id < g.size) :
    id < g'.size ∧ g'.constructed? id = g.constructed? id := by
  cases hchange with
  | same => exact ⟨hid, rfl⟩
  | push k n =>
    rw [Graph.size_push, Graph.constructed?_push, if_neg (by omega)]
    exact ⟨by omega, rfl⟩
  | pin ids =>
    rw [Graph.size_pin, Graph.constructed?_pin]
    exact ⟨hid, rfl⟩
  | optimize =>
    rw [h.optimize.2.size_eq, h.optimize.2.constructed?_eq]
    exact ⟨hid, rfl⟩

end Workspace

namespace Session

/-- The graphs of a session follow its calls, whatever the platform does. -/
theorem workspace_after (s : Session) (c : Call) : (s.after c).workspace = s.workspace.after c := by
  cases c with
  | newGraph name => rfl
  | construct c =>
    simp only [after, Call.steps, SessionM.construct, Workspace.after]
    rw [bind_assoc, exec_bind_ok (exec_get s)]
    cases s.workspace.construct c <;> rfl
  | markOutputs graph outputs =>
    simp only [after, Call.steps, SessionM.markOutputs, Workspace.after]
    rw [exec_bind_ok (exec_get s)]
    cases s.workspace.markOutputs graph outputs <;> rfl
  | evaluate graph outputs =>
    rw [← Workspace.evaluate_workspace graph outputs s.platform]
    have h := SessionM.exec_evaluate graph outputs s
    simp only [after, Call.steps]
    cases hr : ((s.workspace.evaluate graph outputs).run s.platform).1.1 with
    | error e =>
      simp only [hr] at h
      rw [exec_bind_error h]
    | ok r =>
      simp only [hr] at h
      rw [exec_bind_ok h]
      rfl
  | optimize graph =>
    simp only [after, Call.steps, SessionM.optimize, Workspace.after]
    rw [bind_assoc, exec_bind_ok (exec_get s)]
    cases s.workspace.graph graph <;> rfl
  | finalizeTensor id =>
    have h := SessionM.exec_finalizeTensor id s
    simp only [after, Call.steps]
    cases hid : id.bind fun id => s.tensors[id]?.map (id, ·) with
    | none | some found =>
      simp only [hid] at h
      rw [exec_bind_ok h]
      rfl

theorem wellFormed_start (environment : Option String) : (start environment).workspace.WellFormed := by
  intro gid g hg
  simp [start, Workspace.graph?] at hg

theorem wellFormed_run (calls : List Call) {s : Session} (hs : s.workspace.WellFormed) :
    (run calls s).workspace.WellFormed := by
  induction calls generalizing s with
  | nil => exact hs
  | cons c calls ih =>
    refine ih (s := s.after c) ?_
    rw [workspace_after]
    exact hs.after c

end Session

/-! ## Absorbed operands -/

/-- Whether the handle is one of a node that was absorbed. -/
def Workspace.isAbsorbed (w : Workspace) : Handle → Bool
  | none => false
  | some ref => 0 ≤ ref.id && (w.graph? ref.graph).any fun g => !g.isLive ref.id.toNat

/-- Whether the call constructs a node from an operand that was absorbed. -/
def Call.takesAbsorbed (w : Workspace) : Call → Bool
  | .construct k => k.operands.any w.isAbsorbed
  | _ => false

/-- Whether no call takes an operand that was absorbed before. -/
def Session.takesLive : Session → List Call → Bool
  | _, [] => true
  | s, c :: calls => !c.takesAbsorbed s.workspace && takesLive (s.after c) calls

theorem Workspace.Change.inputsLive {w : Workspace} {c : Call} {gid : Nat} {g : Graph}
    (hchange : Workspace.Change gid c g g') (h : g.WellFormed) (hg : w.graph? gid = some g)
    (hc : c.takesAbsorbed w = false) (hlive : g.InputsLive) : g'.InputsLive := by
  cases hchange with
  | same => exact hlive
  | push k n hcall hfits _ hoperands =>
    intro j i hj hi
    rw [Graph.isLive_push] at hj ⊢
    simp only [Graph.inputs, Graph.node?_push] at hi
    split at hi
    · -- an input of the new node is an operand of the call
      rw [hcall, Call.takesAbsorbed, List.any_eq_false] at hc
      simpa [Workspace.isAbsorbed, hg] using hc _ (hoperands i hi)
    · exact hlive j i hj hi
  | pin ids =>
    intro j i hj hi
    rw [Graph.isLive_pin] at hj ⊢
    rw [Graph.inputs_pin] at hi
    exact hlive j i hj hi
  | optimize => exact h.optimize.2.inputsLive hlive

theorem Session.inputsLive_run (calls : List Call) {s : Session} (hs : s.workspace.WellFormed)
    (hlive : ∀ gid g, s.workspace.graph? gid = some g → g.InputsLive) (hcalls : s.takesLive calls = true) :
    ∀ gid g, (run calls s).workspace.graph? gid = some g → g.InputsLive := by
  induction calls generalizing s with
  | nil => exact hlive
  | cons c calls ih =>
    rw [takesLive, Bool.and_eq_true, Bool.not_eq_true'] at hcalls
    obtain ⟨hc, hcalls⟩ := hcalls
    refine ih (s := s.after c) ?_ ?_ hcalls
    · rw [workspace_after]
      exact hs.after c
    · intro gid g' hg'
      rw [workspace_after] at hg'
      rcases Workspace.graph?_after hs c hg' with ⟨name, rfl⟩ | ⟨g, hg, hchange⟩
      · intro j i _ hi
        simp [Graph.inputs, Graph.node?] at hi
      · exact hchange.inputsLive (hs gid g hg) hg hc (hlive gid g hg)

end LazyTensor
