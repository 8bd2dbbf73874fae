import LazyTensor.Proofs.Graph.Dependency
import LazyTensor.Proofs.Run

/-!
# The invariant of graphs over whole runs

Every graph of every run is well formed. Read out, this says where inputs, absorbed nodes and fused nodes
lie and what they have in common, and that the node which was constructed at a number is kept.
-/

namespace LazyTensor

namespace Graph

variable {g : Graph} {id : Nat} {n : Node}

theorem Fits.fused (h : g.Fits id n) (hkind : n.op.kind = .fused) :
    ∃ p, n.op = .fused (some p) ∧ p.Valid ∧ p.numInputs = n.inputs.length ∧ 1 ≤ n.inputs.length ∧
      n.inputs.Nodup ∧ ∀ i : Nat, i ∈ n.inputs → g.shapeOf i = n.shape := by
  have hnodup := h.distinct hkind
  have hacc := h.accepts
  generalize hshapes : n.inputs.map g.shapeOf = shapes at hacc
  generalize hop : n.op = op at hacc hkind
  cases hacc with
  | fused p count s hdtype hvalid hdefined hcount hpos =>
    have hlen : n.inputs.length = count := by
      have := congrArg List.length hshapes
      simpa using this
    refine ⟨p, rfl, Program.validate_eq_ok_iff.mp hvalid, by rw [hcount, hlen], by omega, hnodup, ?_⟩
    intro i hi
    have hmem : g.shapeOf i ∈ n.inputs.map g.shapeOf := List.mem_map_of_mem hi
    rw [hshapes] at hmem
    exact List.eq_of_mem_replicate hmem
  | _ => cases hkind

end Graph

/-! ## Where nodes come from -/

/-- Every node of a run was constructed by one of its calls, and the graph keeps it as it was then. -/
theorem Session.constructed_by (environment : Option String) (calls : List Call) {gid id : Nat} {g : Graph}
    (hg : (run calls (start environment)).workspace.graph? gid = some g) (hid : id < g.size) :
    ∃ before k after g₀ n, calls = before ++ .construct k :: after ∧
      (run before (start environment)).workspace.graph? gid = some g₀ ∧ g₀.size = id ∧
      (run (before ++ [.construct k]) (start environment)).workspace.graph? gid = some (g₀.push n).2 ∧
      g.constructed? id = some n := by
  -- the induction is on the calls from the last one back
  induction hlen : calls.length generalizing calls g with
  | zero =>
    rw [List.length_eq_zero_iff.mp hlen] at hg
    simp [run, start, Workspace.graph?] at hg
  | succ len ih =>
    have hne : calls ≠ [] := by
      rintro rfl
      cases hlen
    have hsplit := (List.dropLast_concat_getLast hne).symm
    generalize calls.dropLast = calls₀ at hsplit
    generalize calls.getLast hne = c at hsplit
    subst hsplit
    have hlen₀ : calls₀.length = len := by simpa using hlen
    have hwf := wellFormed_run calls₀ (wellFormed_start environment)
    have hlast : (run (calls₀ ++ [c]) (start environment)).workspace =
        (run calls₀ (start environment)).workspace.after c := by
      rw [run_append]
      exact workspace_after _ c
    rw [hlast] at hg
    rcases Workspace.graph?_after hwf c hg with ⟨name, rfl⟩ | ⟨g₁, hg₁, hchange⟩
    · simp [Graph.size] at hid
    · by_cases hid₁ : id < g₁.size
      · obtain ⟨before, k, after, g₀, n, rfl, hbefore, hsize, hpush, hn⟩ := ih calls₀ hg₁ hid₁ hlen₀
        refine ⟨before, k, after ++ [c], g₀, n, by simp, hbefore, hsize, hpush, ?_⟩
        rw [(hchange.constructed? (hwf gid g₁ hg₁) hid₁).2, hn]
      · cases hchange with
        | same => exact absurd hid hid₁
        | pin ids =>
          rw [Graph.size_pin] at hid
          exact absurd hid hid₁
        | optimize =>
          rw [(hwf gid g₁ hg₁).optimize.2.size_eq] at hid
          exact absurd hid hid₁
        | push k n hcall =>
          subst hcall
          rw [Graph.size_push] at hid
          have hsize : g₁.size = id := by omega
          refine ⟨calls₀, k, [], g₁, n, rfl, hg₁, hsize, ?_, ?_⟩
          · rw [hlast, hg]
          · rw [Graph.constructed?_push, if_pos hsize.symm]

/-! ## The invariant -/

/-- The invariant of every graph of every run. -/
theorem Session.graph_invariant_run (environment : Option String) (calls : List Call) (gid : Nat)
    (g : Graph) (hg : (run calls (start environment)).workspace.graph? gid = some g) :
    -- nodes, as they are and as they were constructed, only take values of nodes before them
    (∀ (id : Nat) (n : Node), g.node? id = some n ∨ g.constructed? id = some n →
      id < g.size ∧ ∀ i : Nat, i ∈ n.inputs → i < id) ∧
    -- a node keeps the shape and the device of the node that a call constructed at its number, and is on
    -- one device with what it is computed from
    (∀ id : Nat, id < g.size → ∃ n o, g.node? id = some n ∧ g.constructed? id = some o ∧
      n.shape = o.shape ∧ n.device = o.device ∧
      (∃ before k after g₀, calls = before ++ .construct k :: after ∧
        (run before (start environment)).workspace.graph? gid = some g₀ ∧ g₀.size = id ∧
        (run (before ++ [.construct k]) (start environment)).workspace.graph? gid =
          some (g₀.push o).2) ∧
      ∀ (j : Nat) (m : Node), g.DependsOn id j → g.node? j = some m → m.device = n.device) ∧
    -- absorbed nodes are computed by later nodes that are live
    (∀ id t : Nat, g.into? id = some t → id < t ∧ t < g.size ∧ g.isLive t = true) ∧
    -- fused nodes have valid programs on distinct inputs of their shape
    (∀ (id : Nat) (n : Node), g.node? id = some n → n.op.kind = .fused →
      ∃ p, n.op = .fused (some p) ∧ p.validate = .ok () ∧ 1 ≤ n.inputs.length ∧ n.inputs.length ≤ 7 ∧
        p.numInputs = n.inputs.length ∧ n.inputs.Nodup ∧
        ∀ i : Nat, i ∈ n.inputs → (g.node? i).map (·.shape) = some n.shape) ∧
    -- outputs stay live
    (∀ id : Nat, g.isLive id = true → g.isPinned id = true → g.optimize.isLive id = true) ∧
    -- inputs of live nodes are live, as long as calls only take live operands
    ((start environment).takesLive calls = true →
      ∀ id i : Nat, g.isLive id = true → i ∈ g.inputs id → g.isLive i = true) := by
  have hwf : g.WellFormed := wellFormed_run calls (wellFormed_start environment) gid g hg
  refine ⟨?_, ?_, ?_, ?_, ?_, ?_⟩
  · rintro id n (hn | hn)
    · exact ⟨Graph.lt_size_of_node? hn, (hwf.fits id n hn).inputs_lt⟩
    · exact ⟨Graph.lt_size_of_constructed? hn, (hwf.constructed_fits id n hn).inputs_lt⟩
  · intro id hid
    obtain ⟨n, hn⟩ := Graph.exists_node?_of_lt hid
    obtain ⟨before, k, after, g₀, o, hcalls, hbefore, hsize, hpush, ho⟩ :=
      constructed_by environment calls hg hid
    obtain ⟨hshape, hdevice⟩ := hwf.constructed_type id o ho
    rw [Graph.shapeOf_eq_of_node? hn] at hshape
    rw [Graph.deviceOf_eq_of_node? hn] at hdevice
    refine ⟨n, o, hn, ho, hshape.symm, hdevice.symm, ⟨before, k, after, g₀, hcalls, hbefore, hsize, hpush⟩, ?_⟩
    intro j m hj hm
    rw [← Graph.deviceOf_eq_of_node? hm, hwf.deviceOf_eq hj, Graph.deviceOf_eq_of_node? hn]
  · intro id t ht
    obtain ⟨hlt, hsize, hlive⟩ := hwf.into_live id t ht
    exact ⟨hlt, hsize, Graph.isLive_iff.mpr hlive⟩
  · intro id n hn hkind
    obtain ⟨p, hop, hvalid, hcount, hpos, hnodup, hshapes⟩ := (hwf.fits id n hn).fused hkind
    refine ⟨p, hop, Program.validate_eq_ok_iff.mpr hvalid, hpos, ?_, hcount, hnodup, ?_⟩
    · have hle := hvalid.numInputs_le
      rw [hcount, Program.maxInputs] at hle
      omega
    · intro i hi
      have hlt := (hwf.fits id n hn).inputs_lt i hi
      have hid := Graph.lt_size_of_node? hn
      obtain ⟨m, hm⟩ := Graph.exists_node?_of_lt (Nat.lt_trans hlt hid)
      rw [hm, Option.map_some, ← hshapes i hi, Graph.shapeOf_eq_of_node? hm]
  · exact fun id hlive hpinned => hwf.optimize.2.live_of_pinned id hlive hpinned
  · intro hcalls id i hlive hi
    have hempty : ∀ gid g, (start environment).workspace.graph? gid = some g → g.InputsLive := by
      intro gid g hg
      simp [start, Workspace.graph?] at hg
    exact inputsLive_run calls (wellFormed_start environment) hempty hcalls gid g hg id i hlive hi

/-- A sum of a product and its negation become one fused node, on which another node is built. -/
theorem Session.graph_invariant_run_fused :
    let x : Shape := ⟨.float32, [2]⟩
    let node (id : Int) : Handle := some ⟨0, id⟩
    let calls : List Call := [.newGraph "g", .construct (.fill (some 0) .cpu x .zero),
      .construct (.fill (some 0) .cpu x .zero),
      .construct (.elementwise (.binary .mul) [node 0, node 1]),
      .construct (.elementwise (.binary .add) [node 2, node 0]),
      .construct (.elementwise (.unary .neg) [node 3]),
      .markOutputs (some 0) [node 4], .optimize (some 0),
      .construct (.elementwise (.binary .sub) [node 4, node 1])]
    ∃ g n, (run calls (start none)).workspace.graph? 0 = some g ∧ g.node? 4 = some n ∧
      n.op.kind = .fused ∧ n.inputs.Nodup ∧ n.inputs.length ≤ 7 ∧ g.into? 2 = some 4 ∧ g.isLive 4 = true ∧
      (start none).takesLive calls = true ∧
      ∀ id i : Nat, g.isLive id = true → i ∈ g.inputs id → g.isLive i = true := by
  intro x node calls
  have hlive : (start none).takesLive calls = true := by decide +kernel
  have hrun : (((run calls (start none)).workspace.graph? 0).bind (·.node? 4)).any (·.op.kind == .fused) =
      true := by decide +kernel
  have hinto : (((run calls (start none)).workspace.graph? 0).bind (·.into? 2)) = some 4 := by
    decide +kernel
  obtain ⟨n, hn, hkind⟩ := (Option.any_eq_true _ _).mp hrun
  obtain ⟨g, hg, hn⟩ := Option.bind_eq_some_iff.mp hn
  rw [hg, Option.bind_some] at hinto
  obtain ⟨-, -, habsorbed, hfused, -, hinputs⟩ := graph_invariant_run none calls 0 g hg
  obtain ⟨p, -, -, -, hle, -, hnodup, -⟩ := hfused 4 n hn (beq_iff_eq.mp hkind)
  exact ⟨g, n, hg, hn, beq_iff_eq.mp hkind, hnodup, hle, hinto, (habsorbed 2 4 hinto).2.2, hlive,
    hinputs hlive⟩

end LazyTensor
