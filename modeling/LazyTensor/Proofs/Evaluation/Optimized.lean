import LazyTensor.Proofs.Evaluation.Values
import LazyTensor.Proofs.Graph.Optimized

/-!
# Evaluation after optimisation

What an evaluation gives does not change when chains of the graph are fused, whether an output stays, is
absorbed or becomes a fused node. If the outputs are computed from no floating point values, it does not
change when the graph is optimised as a whole.
-/

namespace LazyTensor.Session

variable {σ : Session} {s : HostState} {host : Host} {gid : Nat} {g g' : Graph} {handles : List Handle}
  {ids : List NodeId}

/-- The session in which a graph is replaced. -/
def withGraph (σ : Session) (gid : GraphId) (g : Graph) : Session :=
  { σ with workspace := σ.workspace.setGraph gid g }

theorem after_optimize (hg : σ.workspace.graph? gid = some g) :
    σ.after (.optimize (some gid)) = σ.withGraph gid g.optimize := by
  have hgraph : σ.workspace.graph (some gid) = .ok (gid, g) := by
    rw [Workspace.graph, Option.bind_some, hg]
    rfl
  simp only [after, Call.steps, SessionM.optimize]
  rw [bind_assoc, exec_bind_ok (exec_get σ), hgraph]
  rfl

/-- The outcome with a graph that was rewritten: the values of the outputs in that graph. -/
theorem outcome_withGraph (hσ : σ.Serves host s) (hg : σ.workspace.graph? gid = some g) (hwf : g'.WellFormed)
    (hrewritten : g.Rewritten g') (hnarrows : g.Narrows g')
    (hids : σ.workspace.outputs (some gid) handles = .ok ids) (hcpu : ∀ id ∈ ids, g.deviceOf id = .cpu)
    (hlimit : host.account.limit = 0) (hdetermined : ∀ id ∈ ids, g.Determined id) :
    (σ.withGraph gid g').outcome (some gid) handles = ((ids.mapM g'.value?).isSome, ids.mapM g'.value?) := by
  have hg' : (σ.withGraph gid g').workspace.graph? gid = some g' := by
    rw [withGraph, Workspace.graph?_setGraph hg, if_pos rfl]
  have hcpu' : ∀ id ∈ ids, g'.deviceOf id = .cpu := by
    intro id hid
    rw [hrewritten.deviceOf_eq]
    exact hcpu id hid
  have hstands : (σ.withGraph gid g').Stands host s := hσ.stands.congr rfl rfl
  have hσ' := hstands.serves hσ.serves.finalized_eq
  exact outcome_eq hσ' hwf hg' (Workspace.outputs_setGraph hg hrewritten.size_eq hids) hcpu' hlimit
    fun id hid => hnarrows.determined (hdetermined id hid)

/-- Whatever calls were made before: fusion keeps the outcome of an evaluation on a host without a limit of memory, if
no needed node has elements of 16 bits, and none leaves its output as it is. If the outputs are computed from no
floating point values, optimisation as a whole keeps it. -/
theorem fusion_keeps_outcome (environment : Option String) (calls : List Call) (host : Host)
    (hhost : Host.ofConfiguration ((start environment).platform.registry.configuration Host.name) = .ok host)
    (hlimit : host.account.limit = 0) (gid : GraphId) (g : Graph)
    (hg : (run calls (start environment)).workspace.graph? gid = some g) (outputs : List Handle) (ids : List NodeId)
    (hids : (run calls (start environment)).workspace.outputs (some gid) outputs = .ok ids)
    (hcpu : ∀ id ∈ ids, g.deviceOf id = .cpu)
    (hhalf : ∀ j, g.needs ids j = true → (g.shapeOf j).dtype.isHalf = false)
    (hskips : ∀ j, g.needs ids j = true → g.skips j = false) :
    let σ := run calls (start environment)
    let unfused := g.substituteMulAdds.1
    (σ.withGraph gid (Graph.fuseAll unfused.size unfused).1).outcome (some gid) outputs =
      (σ.withGraph gid unfused).outcome (some gid) outputs ∧
    ((∀ id ∈ ids, ∀ j, g.DependsOn id j → (g.shapeOf j).dtype.isFloat = false) →
      (σ.after (.optimize (some gid))).outcome (some gid) outputs = σ.outcome (some gid) outputs) := by
  intro σ unfused
  have hwf := wellFormed_run calls (wellFormed_start environment) gid g hg
  obtain ⟨s, hserves⟩ := (serves_start hhost).run (wellFormed_start environment) calls
  have hdetermined : ∀ id ∈ ids, g.Determined id := by
    intro id hid j hj
    exact hskips j (hwf.needs_iff.mpr ⟨id, hid, hj⟩)
  have hhalfFree : ∀ id ∈ ids, g.HalfFree id := by
    intro id hid j hj
    exact hhalf j (hwf.needs_iff.mpr ⟨id, hid, hj⟩)
  obtain ⟨hwf₁, hrewritten₁⟩ := hwf.substituteMulAdds
  have hnarrows₁ := hwf.narrows_substituteMulAdds
  -- an outcome is read off the values of the graph, so only these are compared
  constructor
  · obtain ⟨hwf₂, hrewritten₂⟩ := hwf₁.fuseAll unfused.size
    have hnarrows₂ := hnarrows₁.trans (hwf₁.narrows_fuseAll unfused.size)
    have hvalues : ids.mapM (Graph.fuseAll unfused.size unfused).1.value? = ids.mapM unfused.value? :=
      mapM_congr fun id hid => hwf₁.value?_fuseAll unfused.size (hnarrows₁.halfFree (hhalfFree id hid))
    rw [outcome_withGraph hserves hg hwf₂ (hrewritten₁.trans hrewritten₂) hnarrows₂ hids hcpu hlimit hdetermined,
      outcome_withGraph hserves hg hwf₁ hrewritten₁ hnarrows₁ hids hcpu hlimit hdetermined, hvalues]
  · intro hfloat
    obtain ⟨hwf₂, hrewritten₂⟩ := hwf.optimize
    have hvalues : ids.mapM g.optimize.value? = ids.mapM g.value? :=
      mapM_congr fun id hid => hwf.value?_optimize (hhalfFree id hid) (hfloat id hid)
    rw [after_optimize hg, outcome_eq hserves hwf hg hids hcpu hlimit hdetermined,
      outcome_withGraph hserves hg hwf₂ hrewritten₂ hwf.narrows_optimize hids hcpu hlimit hdetermined, hvalues]

/-- A chain of integers becomes one fused node. The outputs are this node and one that was absorbed into it. -/
theorem fusion_keeps_outcome_absorbed :
    let x : Shape := ⟨.int32, [2]⟩
    let node (id : Int) : Handle := some ⟨0, id⟩
    let outputs := [node 4, node 3]
    let calls : List Call := [.newGraph "g", .construct (.fill (some 0) .cpu x (.ofInt 3)),
      .construct (.fill (some 0) .cpu x (.ofInt 4)),
      .construct (.elementwise (.binary .mul) [node 0, node 1]),
      .construct (.elementwise (.binary .add) [node 2, node 0]),
      .construct (.elementwise (.unary .neg) [node 3]),
      .markOutputs (some 0) [node 4]]
    let σ := run calls (start none)
    let integers (values : List Value) : List (Option (List Int)) :=
      values.map fun v => (v.flat.as? .int32).map fun data => data.toList.map IntWord.value
    ∃ host g, Host.ofConfiguration ((start none).platform.registry.configuration Host.name) = .ok host ∧
      host.account.limit = 0 ∧ σ.workspace.graph? 0 = some g ∧ σ.workspace.outputs (some 0) outputs = .ok [4, 3] ∧
      (∀ id ∈ [4, 3], g.deviceOf id = .cpu) ∧
      (∀ j, g.needs [4, 3] j = true → (g.shapeOf j).dtype.isHalf = false) ∧
      (∀ j, g.needs [4, 3] j = true → g.skips j = false) ∧
      (∀ id ∈ [4, 3], ∀ j, g.DependsOn id j → (g.shapeOf j).dtype.isFloat = false) ∧
      g.optimize.isLive 3 = false ∧ (g.optimize.node? 4).map (·.op.kind) = some .fused ∧
      (σ.after (.optimize (some 0))).outcome (some 0) outputs = σ.outcome (some 0) outputs ∧
      (σ.outcome (some 0) outputs).2.map integers = some [some [-15, -15], some [15, 15]] := by
  intro x node outputs calls σ integers
  have hhost : Host.ofConfiguration ((start none).platform.registry.configuration Host.name) = .ok .plain := rfl
  have hids : σ.workspace.outputs (some 0) outputs = .ok [4, 3] := eq_ok_of_toOption (by decide +kernel)
  have hchecks : (σ.workspace.graph? 0).any (fun g => [4, 3].all (g.deviceOf · == .cpu) &&
      (List.range g.size).all (fun j => !(g.shapeOf j).dtype.isFloat && !(g.shapeOf j).dtype.isHalf && !g.skips j) &&
      !g.optimize.isLive 3 && (g.optimize.node? 4).map (·.op.kind) == some .fused) = true := by decide +kernel
  obtain ⟨g, hg, hchecks⟩ := (Option.any_eq_true _ _).mp hchecks
  simp only [Bool.and_eq_true, List.all_eq_true, Bool.not_eq_true', beq_iff_eq, List.mem_range] at hchecks
  obtain ⟨⟨⟨hcpu, hnodes⟩, hlive⟩, hfused⟩ := hchecks
  have hwf := wellFormed_run calls (wellFormed_start none) 0 g hg
  obtain ⟨-, houtputs⟩ := Workspace.outputs_of_graph? hg hids
  have hneeds : ∀ j, g.needs [4, 3] j = true →
      ((g.shapeOf j).dtype.isFloat = false ∧ (g.shapeOf j).dtype.isHalf = false) ∧ g.skips j = false :=
    fun j hj => hnodes j (hwf.lt_size_of_needs houtputs hj)
  have hfloat : ∀ id ∈ [4, 3], ∀ j, g.DependsOn id j → (g.shapeOf j).dtype.isFloat = false :=
    fun id hid j hj => (hneeds j (hwf.needs_iff.mpr ⟨id, hid, .inr hj⟩)).1.1
  have hhalf : ∀ j, g.needs [4, 3] j = true → (g.shapeOf j).dtype.isHalf = false := fun j hj => (hneeds j hj).1.2
  have hskips : ∀ j, g.needs [4, 3] j = true → g.skips j = false := fun j hj => (hneeds j hj).2
  refine ⟨_, g, hhost, rfl, hg, hids, hcpu, hhalf, hskips, hfloat, hlive, hfused, ?_, by decide +kernel⟩
  exact (fusion_keeps_outcome none calls _ hhost rfl 0 g hg outputs [4, 3] hids hcpu hhalf hskips).2 hfloat

/-- The product of integers has a negative number of rows in 64 bits, so it leaves its output as it is: the buffer that
was given back last. That is another one after fusion, as fewer nodes are computed before. -/
theorem fusion_changes_outcome_of_skipped :
    let x : Shape := ⟨.int32, [2, 4611686018427387905, 2]⟩
    let node (id : Int) : Handle := some ⟨0, id⟩
    let calls : List Call := [.newGraph "g", .construct (.fill (some 0) .cpu x (.ofInt 1)),
      .construct (.fill (some 0) .cpu x (.ofInt 2)),
      .construct (.elementwise (.binary .add) [node 1, node 1]),
      .construct (.elementwise (.binary .add) [node 0, node 2]),
      .construct (.fill (some 0) .cpu ⟨.int32, [2, 2, 2]⟩ (.ofInt 3)),
      .construct (.matMul (node 3) (node 4)), .markOutputs (some 0) [node 5]]
    let σ := run calls (start none)
    ∃ host g, Host.ofConfiguration ((start none).platform.registry.configuration Host.name) = .ok host ∧
      host.account.limit = 0 ∧ σ.workspace.graph? 0 = some g ∧ σ.workspace.outputs (some 0) [node 5] = .ok [5] ∧
      g.deviceOf 5 = .cpu ∧ (∀ j, g.needs [5] j = true → (g.shapeOf j).dtype.isFloat = false) ∧ g.skips 5 = true ∧
      (σ.withGraph 0 (Graph.fuseAll g.substituteMulAdds.1.size g.substituteMulAdds.1).1).outcome (some 0) [node 5] ≠
        (σ.withGraph 0 g.substituteMulAdds.1).outcome (some 0) [node 5] ∧
      (σ.after (.optimize (some 0))).outcome (some 0) [node 5] ≠ σ.outcome (some 0) [node 5] := by
  intro x node calls σ
  let integers (values : List Value) : List (Option (List Int)) :=
    values.map fun v => (v.flat.as? .int32).map fun data => data.toList.map IntWord.value
  have hhost : Host.ofConfiguration ((start none).platform.registry.configuration Host.name) = .ok .plain := rfl
  have hids : σ.workspace.outputs (some 0) [node 5] = .ok [5] := eq_ok_of_toOption (by decide +kernel)
  have hbefore : (σ.outcome (some 0) [node 5]).2.map integers = some [some [4, 4, 4, 4]] := by decide +kernel
  have hafter : ((σ.after (.optimize (some 0))).outcome (some 0) [node 5]).2.map integers =
      some [some [1, 1, 1, 1]] := by decide +kernel
  have hchecks : (σ.workspace.graph? 0).any (fun g => g.deviceOf 5 == .cpu && g.skips 5 &&
      (List.range g.size).all (fun j => !(g.shapeOf j).dtype.isFloat) &&
      (((σ.withGraph 0 (Graph.fuseAll g.substituteMulAdds.1.size g.substituteMulAdds.1).1).outcome
        (some 0) [node 5]).2.map integers == some [some [1, 1, 1, 1]]) &&
      (((σ.withGraph 0 g.substituteMulAdds.1).outcome (some 0) [node 5]).2.map integers ==
        some [some [4, 4, 4, 4]])) = true := by decide +kernel
  obtain ⟨g, hg, hchecks⟩ := (Option.any_eq_true _ _).mp hchecks
  simp only [Bool.and_eq_true, List.all_eq_true, Bool.not_eq_true', beq_iff_eq, List.mem_range] at hchecks
  obtain ⟨⟨⟨⟨hcpu, hskips⟩, hnodes⟩, hfused⟩, hunfused⟩ := hchecks
  have hwf := wellFormed_run calls (wellFormed_start none) 0 g hg
  obtain ⟨-, houtputs⟩ := Workspace.outputs_of_graph? hg hids
  refine ⟨_, g, hhost, rfl, hg, hids, hcpu, fun j hj => hnodes j (hwf.lt_size_of_needs houtputs hj), hskips,
    fun heq => ?_, fun heq => ?_⟩
  · rw [heq, hunfused] at hfused
    exact absurd hfused (by decide)
  · rw [heq, hbefore] at hafter
    exact absurd hafter (by decide)

end LazyTensor.Session
