import LazyTensor.Proofs.Evaluation.Values

/-!
# Plain evaluation

In a plain evaluation every node that the outputs depend on is computed, in the order of numbers, into a buffer
of its own on a new host. No buffer is given away to be overwritten and none is given back. Evaluation in a
session gives what plain evaluation gives: the schedule, which does give buffers away, never destroys a value
that is read later.
-/

namespace LazyTensor

open List

def HostM.valueAt (ref : BufferRef) : HostM HostError Value := do
  match (← get).heap.live ref with
  | .error e => throw (.buffer e)
  | .ok (_, b) => return ⟨b.shape, b.flat⟩

namespace Graph

/-- The buffer in which a node was computed, as an operand. -/
def plainRef (places : List (NodeId × BufferId)) (id : NodeId) : BufferRef :=
  (places.lookup id).elim .absent .host

/-- Computes a node into a buffer of its own, given where the nodes before it are. -/
def plainStep (g : Graph) (places : List (NodeId × BufferId)) (id : NodeId) :
    HostM HostError (List (NodeId × BufferId)) := do
  match g.node? id with
  | none => return places
  | some n =>
    let buffer ← HostM.execute n.op (n.inputs.map (plainRef places)) (n.inputs.map fun _ => false) n.shape
    return (id, buffer) :: places

/-- The values of outputs by plain evaluation. -/
def plainValues (g : Graph) (outputs : List NodeId) : HostM HostError (List Value) := do
  let places ← (g.ids.filter (g.needs outputs)).foldlM g.plainStep []
  outputs.mapM fun id => HostM.valueAt (plainRef places id)

end Graph

namespace Evaluation

open Graph HostState

variable {g : Graph} {outputs : List Nat} {host : Host} {s : HostState} {k : Nat}
  {places : List (NodeId × BufferId)}

/-! ## Steps -/

/-- The needed nodes below `k` are stored in the buffers of `places`. -/
def Placed (g : Graph) (outputs : List Nat) (k : Nat) (places : List (NodeId × BufferId)) (s : HostState) : Prop :=
  ∀ j : Nat, j < k → g.needs outputs j = true → ∃ buffer, places.lookup j = some buffer ∧ Stored g s j buffer

theorem plainRef_eq {j buffer : Nat} (h : places.lookup j = some buffer) : plainRef places j = .host buffer := by
  rw [plainRef, h]
  rfl

/-- One step without any reuse puts the value of its node in a place of its own, or fails at the node. -/
theorem Placed.step {n : Node} (h : Placed g outputs k places s) (hwf : g.WellFormed) (hn : g.node? k = some n)
    (hneeds : g.needs outputs k = true) (hserves : s.Serves host) :
    (∃ places' s', exec (g.plainStep places k) s = (.ok places', s') ∧ s'.Serves host ∧
      Placed g outputs (k + 1) places' s') ∨
    (∃ err s' cause, exec (g.plainStep places k) s = (.error err, s') ∧ FailedAt g host k n cause) := by
  have hfound : ∀ i : Nat, i ∈ n.inputs → ∃ buffer, places.lookup i = some buffer ∧ Stored g s i buffer := by
    intro i hi
    rw [← inputs_eq_of_node? hn] at hi
    exact h i (hwf.inputs_lt hi) (hwf.needs_of_input hneeds hi)
  -- the operands are where `places` says
  let place (i : Nat) : Nat := (places.lookup i).getD 0
  have hstored : ∀ i : Nat, i ∈ n.inputs → Stored g s i (place i) := by
    intro i hi
    obtain ⟨buffer, hbuffer, hi⟩ := hfound i hi
    simp only [place]
    rwa [hbuffer]
  have hrefs : n.inputs.map (plainRef places) = (n.inputs.map place).map .host := by
    rw [List.map_map]
    refine map_congr_left fun i hi => ?_
    obtain ⟨buffer, hbuffer, -⟩ := hfound i hi
    rw [plainRef_eq hbuffer, Function.comp_apply]
    simp only [place]
    rw [hbuffer]
    rfl
  have hnot : ∀ i : Nat, (n.inputs.map fun _ => false).getD i false ≠ true := by
    intro i
    rw [getD_eq_getElem?_getD, getElem?_map]
    cases n.inputs[i]? <;> exact Bool.false_ne_true
  have hown : HostM.FirstOnly (n.inputs.map place) (n.inputs.map fun _ => false) :=
    fun i id hi => absurd hi (hnot i)
  have hstep : g.plainStep places k = do
      let buffer ← HostM.execute n.op ((n.inputs.map place).map .host) (n.inputs.map fun _ => false) n.shape
      return (k, buffer) :: places := by
    rw [plainStep, hn]
    simp only [hrefs]
  rw [hstep]
  rcases exec_node hwf hn hserves hstored hown (length_map _) with
    ⟨buffer, s', flat, hexec, hmade, hvalue⟩ | ⟨cause, s', hexec, -, -, hfailed⟩
  · refine .inl ⟨(k, buffer) :: places, s', exec_bind_ok hexec, hserves.frame hmade.sound hmade.frame, ?_⟩
    -- nothing was given away, so what was stored stays
    have hframe : Frame s s' [] := by
      refine hmade.frame.of_place (hmade.place.mono fun id hgiven => ?_)
      obtain ⟨i, -, hi⟩ := HostM.exists_of_mem_given hgiven
      exact absurd hi (hnot i)
    intro j hj hneeds
    rw [lookup_cons]
    by_cases hjk : j = k
    · subst hjk
      rw [beq_self_eq_true]
      exact ⟨buffer, rfl, ⟨n.shape, flat⟩, hmade.live, (shapeOf_eq_of_node? hn).symm, hvalue⟩
    · have hbeq : (j == k) = false := by simpa using hjk
      rw [hbeq]
      obtain ⟨buffer', hbuffer', hstored'⟩ := h j (by omega) hneeds
      exact ⟨buffer', hbuffer', hstored'.frame hframe not_mem_nil⟩
  · exact .inr ⟨_, s', cause, exec_bind_error hexec, hfailed⟩

/-! ## Runs -/

/-- How a plain evaluation ends from the node `k` on: all needed nodes are stored, or one fails. -/
theorem Placed.run (h : Placed g outputs k places s) (hwf : g.WellFormed) (hk : k ≤ g.size) (hserves : s.Serves host) :
    (∃ places' s', exec (((g.ids.drop k).filter (g.needs outputs)).foldlM g.plainStep places) s = (.ok places', s') ∧
      Placed g outputs g.size places' s') ∨
    (∃ err s' j n cause, exec (((g.ids.drop k).filter (g.needs outputs)).foldlM g.plainStep places) s = (.error err, s') ∧
      g.node? j = some n ∧ g.needs outputs j = true ∧ FailedAt g host j n cause) := by
  -- on the number of nodes that are left
  induction hleft : g.size - k generalizing k places s with
  | zero =>
    obtain rfl : k = g.size := by omega
    have hnil : g.ids.drop g.size = [] := by simp [ids]
    rw [hnil]
    exact .inl ⟨places, s, rfl, h⟩
  | succ left ih =>
    have hlt : k < g.size := by omega
    obtain ⟨n, hn⟩ := exists_node?_of_lt hlt
    rw [ids_drop hlt, filter_cons]
    cases hneeds : g.needs outputs k with
    | false =>
      refine ih (fun j hj hj' => ?_) hlt hserves (by omega)
      by_cases hjk : j = k
      · rw [hjk, hneeds] at hj'
        cases hj'
      · exact h j (by omega) hj'
    | true =>
      rcases h.step hwf hn hneeds hserves with
        ⟨places', s', hexec, hserves', h'⟩ | ⟨err, s', cause, hexec, hfailed⟩
      · rw [if_pos rfl, foldlM_cons, exec_bind_ok hexec]
        exact ih h' hlt hserves' (by omega)
      · rw [if_pos rfl, foldlM_cons, exec_bind_error hexec]
        exact .inr ⟨err, s', k, n, cause, rfl, hn, hneeds, hfailed⟩

theorem exec_valuesAt {ids : List Nat} (h : ∀ id ∈ ids, ∃ buffer, places.lookup id = some buffer ∧ Stored g s id buffer)
    (hdetermined : ∀ id ∈ ids, g.Determined id) :
    ∃ values, ids.mapM g.value? = some values ∧
      exec (ids.mapM fun id => HostM.valueAt (plainRef places id)) s = (.ok values, s) := by
  induction ids with
  | nil => exact ⟨[], rfl, rfl⟩
  | cons id ids ih =>
    obtain ⟨values, hvalues, hexec⟩ := ih (fun id hid => h id (.tail _ hid))
      fun id hid => hdetermined id (.tail _ hid)
    obtain ⟨buffer, hbuffer, v, hlive, -, hv⟩ := h id (.head _)
    have hread : exec (HostM.valueAt (plainRef places id)) s = (.ok v, s) := by
      rw [HostM.valueAt, exec_bind_ok (exec_get s), plainRef_eq hbuffer, hlive.live_eq]
      rfl
    refine ⟨v :: values, ?_, ?_⟩
    · rw [mapM_cons, hv (hdetermined id (.head _)), hvalues]
      rfl
    · rw [mapM_cons, exec_bind_ok hread, exec_bind_ok hexec]
      rfl

/-- Plain evaluation gives the values of outputs that the graph determines, and fails if one has no value. -/
theorem plainValues_eq (hwf : g.WellFormed) (houtputs : ∀ id ∈ outputs, id < g.size) (hserves : s.Serves host)
    (hlimit : host.account.limit = 0) (hdetermined : ∀ id ∈ outputs, g.Determined id) :
    (exec (g.plainValues outputs) s).1.toOption = outputs.mapM g.value? := by
  have hstart : Placed g outputs 0 [] s := fun j hj => absurd hj (Nat.not_lt_zero j)
  have hrun := hstart.run hwf (Nat.zero_le _) hserves
  rw [drop_zero] at hrun
  rcases hrun with ⟨places, s', hexec, hplaced⟩ | ⟨err, s', j, n, cause, hexec, hn, hneeds, hfailed⟩
  · obtain ⟨values, hvalues, hread⟩ := exec_valuesAt
      (fun id hid => hplaced id (houtputs id hid) (hwf.needs_iff.mpr ⟨id, hid, .inl rfl⟩)) hdetermined
    rw [plainValues, exec_bind_ok hexec, hread, hvalues]
    rfl
  · have hnone := exists_value?_eq_none hwf hn hneeds hfailed hlimit hdetermined
    rw [plainValues, exec_bind_error hexec, mapM_eq_none_iff.mpr hnone]
    rfl

end Evaluation

/-! ## Evaluation in a session is plain evaluation -/

namespace Session

/-- Whatever calls were made before: evaluation on a host without a limit of memory succeeds if plain evaluation
on a new host does, and then gives its values and shapes, unless a needed node leaves its output as it is. -/
theorem evaluation_eq_plain (environment : Option String) (calls : List Call) (host : Host)
    (hhost : Host.ofConfiguration ((start environment).platform.registry.configuration Host.name) = .ok host)
    (hlimit : host.account.limit = 0) (gid : GraphId) (g : Graph)
    (hg : (run calls (start environment)).workspace.graph? gid = some g) (outputs : List Handle) (ids : List NodeId)
    (hids : (run calls (start environment)).workspace.outputs (some gid) outputs = .ok ids)
    (hcpu : ∀ id ∈ ids, g.deviceOf id = .cpu) (hskips : ∀ j, g.needs ids j = true → g.skips j = false) :
    (run calls (start environment)).outcome (some gid) outputs =
      ((exec (g.plainValues ids) ⟨host, {}⟩).1.isOk, (exec (g.plainValues ids) ⟨host, {}⟩).1.toOption) := by
  have hwf := wellFormed_run calls (wellFormed_start environment) gid g hg
  obtain ⟨s, hserves⟩ := (serves_start hhost).run (wellFormed_start environment) calls
  have hdetermined : ∀ id ∈ ids, g.Determined id := by
    intro id hid j hj
    exact hskips j (hwf.needs_iff.mpr ⟨id, hid, hj⟩)
  obtain ⟨-, hlt⟩ := Workspace.outputs_of_graph? hg hids
  rw [outcome_eq hserves hwf hg hids hcpu hlimit hdetermined, isOk_eq,
    Evaluation.plainValues_eq hwf hlt (serves_start hhost).serves hlimit hdetermined]

/-- An output that is an operand of another one and an output that stands twice, in a graph that was optimised: the
operand that is used twice is not overwritten. -/
theorem evaluation_eq_plain_shared :
    let x : Shape := ⟨.int32, [2]⟩
    let node (id : Int) : Handle := some ⟨0, id⟩
    let outputs := [node 4, node 2, node 4]
    let calls : List Call := [.newGraph "g", .construct (.fill (some 0) .cpu x (.ofInt 3)),
      .construct (.fill (some 0) .cpu x (.ofInt 4)),
      .construct (.elementwise (.binary .add) [node 0, node 0]),
      .construct (.elementwise (.binary .mul) [node 2, node 1]),
      .construct (.elementwise (.binary .sub) [node 3, node 2]),
      .markOutputs (some 0) outputs, .optimize (some 0)]
    let integers (values : List Value) : List (Option (List Int)) :=
      values.map fun v => (v.flat.as? .int32).map fun data => data.toList.map IntWord.value
    ∃ host g, Host.ofConfiguration ((start none).platform.registry.configuration Host.name) = .ok host ∧
      host.account.limit = 0 ∧ (run calls (start none)).workspace.graph? 0 = some g ∧
      (run calls (start none)).workspace.outputs (some 0) outputs = .ok [4, 2, 4] ∧
      (∀ id ∈ [4, 2, 4], g.deviceOf id = .cpu) ∧ (∀ j, g.needs [4, 2, 4] j = true → g.skips j = false) ∧
      (run calls (start none)).outcome (some 0) outputs =
        ((exec (g.plainValues [4, 2, 4]) ⟨host, {}⟩).1.isOk, (exec (g.plainValues [4, 2, 4]) ⟨host, {}⟩).1.toOption) ∧
      ((run calls (start none)).outcome (some 0) outputs).2.map integers =
        some [some [18, 18], some [6, 6], some [18, 18]] := by
  intro x node outputs calls integers
  have hhost : Host.ofConfiguration ((start none).platform.registry.configuration Host.name) = .ok .plain := rfl
  have hchecks : ((run calls (start none)).workspace.graph? 0).any (fun g =>
      [4, 2, 4].all (g.deviceOf · == .cpu) && (List.range g.size).all (g.skips · == false)) = true := by
    decide +kernel
  have hids : (run calls (start none)).workspace.outputs (some 0) outputs = .ok [4, 2, 4] :=
    eq_ok_of_toOption (by decide +kernel)
  obtain ⟨g, hg, hchecks⟩ := (Option.any_eq_true _ _).mp hchecks
  rw [Bool.and_eq_true, List.all_eq_true, List.all_eq_true] at hchecks
  have hcpu : ∀ id ∈ [4, 2, 4], g.deviceOf id = .cpu := fun id hid => beq_iff_eq.mp (hchecks.1 id hid)
  have hskips : ∀ j, g.needs [4, 2, 4] j = true → g.skips j = false := by
    intro j _
    by_cases hj : j < g.size
    · exact beq_iff_eq.mp (hchecks.2 j (List.mem_range.mpr hj))
    · exact Graph.skips_eq_false_of_le (Nat.le_of_not_lt hj)
  refine ⟨_, g, hhost, rfl, hg, hids, hcpu, hskips, ?_, by decide +kernel⟩
  exact evaluation_eq_plain none calls _ hhost rfl 0 g hg outputs [4, 2, 4] hids hcpu hskips

/-- The product of integers has a negative number of rows in 64 bits, so it leaves its output as it is. In a
plain evaluation the output is new and zero, in a session it is the buffer that was given back last. -/
theorem evaluation_ne_plain_of_skipped :
    let node (id : Int) : Handle := some ⟨0, id⟩
    let outputs := [node 3, node 4]
    let calls : List Call := [.newGraph "g",
      .construct (.fill (some 0) .cpu ⟨.int32, [2, 4611686018427387905, 2]⟩ (.ofInt 1)),
      .construct (.fill (some 0) .cpu ⟨.int32, [2, 2, 2]⟩ (.ofInt 1)),
      .construct (.fill (some 0) .cpu ⟨.int32, [2, 2]⟩ (.ofInt 7)),
      .construct (.transpose (node 2) [1, 0]),
      .construct (.matMul (node 0) (node 1))]
    ∃ host g, Host.ofConfiguration ((start none).platform.registry.configuration Host.name) = .ok host ∧
      host.account.limit = 0 ∧ (run calls (start none)).workspace.graph? 0 = some g ∧
      (run calls (start none)).workspace.outputs (some 0) outputs = .ok [3, 4] ∧
      (∀ id ∈ [3, 4], g.deviceOf id = .cpu) ∧ g.skips 4 = true ∧
      ((run calls (start none)).outcome (some 0) outputs).1 = true ∧
      (exec (g.plainValues [3, 4]) ⟨host, {}⟩).1.isOk = true ∧
      ((run calls (start none)).outcome (some 0) outputs).2 ≠ (exec (g.plainValues [3, 4]) ⟨host, {}⟩).1.toOption := by
  intro node outputs calls
  let host := Host.plain
  let integers (values : List Value) : List (Option (List Int)) :=
    values.map fun v => (v.flat.as? .int32).map fun data => data.toList.map IntWord.value
  have hhost : Host.ofConfiguration ((start none).platform.registry.configuration Host.name) = .ok host := rfl
  have hvalues : ((run calls (start none)).outcome (some 0) outputs).2.map integers =
      some [some [7, 7, 7, 7], some [7, 7, 7, 7]] := by decide +kernel
  have hchecks : ((run calls (start none)).workspace.graph? 0).any (fun g =>
      [3, 4].all (g.deviceOf · == .cpu) && g.skips 4 && ((exec (g.plainValues [3, 4]) ⟨host, {}⟩).1.toOption.map integers ==
        some [some [7, 7, 7, 7], some [0, 0, 0, 0]])) = true := by
    decide +kernel
  obtain ⟨g, hg, hchecks⟩ := (Option.any_eq_true _ _).mp hchecks
  rw [Bool.and_eq_true, Bool.and_eq_true, List.all_eq_true, beq_iff_eq] at hchecks
  obtain ⟨⟨hcpu, hskips⟩, hplain⟩ := hchecks
  refine ⟨host, g, hhost, rfl, hg, eq_ok_of_toOption (by decide +kernel), fun id hid => beq_iff_eq.mp (hcpu id hid),
    hskips, by decide +kernel, ?_, fun heq => ?_⟩
  · rw [isOk_eq, ← Option.isSome_map (f := integers), hplain]
    rfl
  · rw [heq, hplain] at hvalues
    exact absurd hvalues (by decide)

end Session

end LazyTensor
