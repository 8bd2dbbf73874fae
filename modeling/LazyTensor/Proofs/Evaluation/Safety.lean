import LazyTensor.Proofs.Evaluation.Values
import LazyTensor.Proofs.Total

/-!
# Evaluation only fails by division by zero

A graph that calls made is well formed, so each operation accepts its operands. If the elements of all nodes fit
in memory and the host has no limit of memory, then an execution only stops where an integer is divided by zero:
no check of the host and no bound of an index fails.
-/

namespace LazyTensor

/-! ## Nodes that fit in memory -/

namespace Graph

variable {g : Graph} {id : Nat} {n : Node}

/-- The node divides an integer by zero, at one of the places of its operands' values. -/
def DividesByZero (g : Graph) (n : Node) : Prop :=
  ∃ values, n.inputs.mapM g.value? = some values ∧ n.op.DividesByZero values n.shape

/-- The elements of every node fit in memory. -/
def Allocatable (g : Graph) : Prop := ∀ id : Nat, id < g.size → (g.shapeOf id).exactBytes < 2 ^ 47

instance (g : Graph) : Decidable g.Allocatable :=
  inferInstanceAs (Decidable (∀ id : Nat, id < g.size → (g.shapeOf id).exactBytes < 2 ^ 47))

theorem Allocatable.shape (h : g.Allocatable) (hwf : g.WellFormed) (hn : g.node? id = some n) :
    n.shape.Allocatable := by
  have hbytes := h id (lt_size_of_node? hn)
  rw [shapeOf_eq_of_node? hn] at hbytes
  exact ⟨(hwf.fits id n hn).valid, hbytes⟩

theorem Allocatable.shapeOf_input (h : g.Allocatable) (hwf : g.WellFormed) (hn : g.node? id = some n) {i : Nat}
    (hi : i ∈ n.inputs) : (g.shapeOf i).Allocatable := by
  have hlt := Nat.lt_trans ((hwf.fits id n hn).inputs_lt i hi) (lt_size_of_node? hn)
  obtain ⟨m, hm⟩ := exists_node?_of_lt hlt
  rw [shapeOf_eq_of_node? hm]
  exact h.shape hwf hm

theorem Allocatable.pin (h : g.Allocatable) (outputs : List NodeId) : (g.pin outputs).Allocatable := by
  intro id hid
  rw [size_pin] at hid
  rw [shapeOf_pin]
  exact h id hid

theorem dividesByZero_pin (outputs : List NodeId) : (g.pin outputs).DividesByZero n ↔ g.DividesByZero n := by
  rw [DividesByZero, value?_pin, DividesByZero]

theorem Allocatable.determined (h : g.Allocatable) (hwf : g.WellFormed) : g.Determined id := by
  intro j _
  cases hn : g.node? j with
  | none => rw [skips, hn, Option.any_none]
  | some n =>
    rw [skips, hn]
    apply Operation.skipsOutput_eq_false (hwf.fits j n hn).accepts (h.shape hwf hn)
    intro x hx
    obtain ⟨i, hi, rfl⟩ := List.mem_map.mp hx
    exact h.shapeOf_input hwf hn hi

end Graph

/-! ## Failures -/

namespace Evaluation

open Graph

variable {g : Graph} {host : Host} {j : Nat} {n : Node} {cause : Stop}

theorem exists_position_of_causes {values : List Value} (hwf : g.WellFormed) (hall : g.Allocatable)
    (hn : g.node? j = some n) (hvalues : n.inputs.mapM g.value? = some values)
    (hsound : ∀ v ∈ values, v.buffer.Sound) (hcause : HostM.Causes n.op values n.shape cause) :
    g.DividesByZero n ∧ ∃ position, cause = .divisionByZero position := by
  have hfits := hwf.fits j n hn
  have hshapes := hwf.shapes_eq_of_values hvalues
  have haccepts : n.op.Accepts (values.map (·.shape)) n.shape := by
    rw [hshapes]
    exact hfits.accepts
  have hvalues' : ∀ v ∈ values, v.shape.Allocatable := by
    intro v hv
    have hmem : v.shape ∈ n.inputs.map g.shapeOf := hshapes ▸ List.mem_map_of_mem hv
    obtain ⟨i, hi, hshape⟩ := List.mem_map.mp hmem
    rw [← hshape]
    exact hall.shapeOf_input hwf hn hi
  exact (Operation.dividesByZero_of_causes haccepts (hall.shape hwf hn) hvalues' hsound hcause).imp_left fun hdivides =>
    ⟨values, hvalues, hdivides⟩

theorem FailedAt.exists_position (h : FailedAt g host j n cause) (hwf : g.WellFormed) (hall : g.Allocatable)
    (hlimit : host.account.limit = 0) (hn : g.node? j = some n) :
    g.DividesByZero n ∧ ∃ position, cause = .divisionByZero position := by
  obtain ⟨values, hvalues, hsound, hcause⟩ := h.exists_values hlimit (hall.determined hwf)
  exact exists_position_of_causes hwf hall hn hvalues hsound hcause

end Evaluation

/-! ## Evaluations of a session -/

namespace Session

open Evaluation

/-- Whatever calls were made before: if the elements of all nodes fit in memory and the host has no limit of memory,
then evaluation succeeds, or it reports that a needed node divides an integer by zero. -/
theorem evaluation_ok_or_divides (environment : Option String) (calls : List Call) (host : Host)
    (hhost : Host.ofConfiguration ((start environment).platform.registry.configuration Host.name) = .ok host)
    (hlimit : host.account.limit = 0) (gid : GraphId) (g : Graph)
    (hg : (run calls (start environment)).workspace.graph? gid = some g) (hall : g.Allocatable)
    (outputs : List Handle) (ids : List NodeId)
    (hids : (run calls (start environment)).workspace.outputs (some gid) outputs = .ok ids)
    (hcpu : ∀ id ∈ ids, g.deviceOf id = .cpu) :
    (∃ tensors, (exec (SessionM.evaluate (some gid) outputs) (run calls (start environment))).1 = .ok tensors) ∨
    ∃ j n position, g.node? j = some n ∧ g.needs ids j = true ∧ g.DividesByZero n ∧
      let failure := EvaluationError.execution g.name j n (.stopped n.op n.shape (.divisionByZero position))
      Failure.kind failure = .execution ∧
      (exec (SessionM.evaluate (some gid) outputs) (run calls (start environment))).1 = .error (.of failure) := by
  have hwf := wellFormed_run calls (wellFormed_start environment) gid g hg
  obtain ⟨s, hserves⟩ := (serves_start hhost).run (wellFormed_start environment) calls
  rcases SessionM.evaluate_cases hserves hwf hg hids with
    ⟨_, _, _, number, hexec, -⟩ | ⟨err, _, _, hexec, -, hfailed⟩
  · left
    rw [hexec]
    exact ⟨ids.map number, rfl⟩
  · right
    -- the node that stopped it can only have divided by zero, as all data fit in memory
    have hcpu' : ∀ id ∈ ids, (g.pin ids).deviceOf id = .cpu := by
      intro id hid
      rw [Graph.deviceOf_pin]
      exact hcpu id hid
    obtain ⟨j, n, cause, hn, hneeds, rfl, hat⟩ := hfailed.exists_node (hwf.pin ids) hcpu'
    obtain ⟨hdivides, position, rfl⟩ := hat.exists_position (hwf.pin ids) (hall.pin ids) hlimit hn
    rw [Graph.node?_pin] at hn
    rw [hwf.needs_pin] at hneeds
    rw [Graph.dividesByZero_pin] at hdivides
    refine ⟨j, n, position, hn, hneeds, hdivides, rfl, ?_⟩
    rw [hexec, Graph.name_pin]

/-- One of the integers by which a node divides that another node needs is zero. -/
theorem evaluation_divides_by_arange :
    let x : Shape := ⟨.int32, [3]⟩
    let node (id : Int) : Handle := some ⟨0, id⟩
    let calls : List Call := [.newGraph "g", .construct (.fill (some 0) .cpu x (.ofInt 6)),
      .construct (.arange (some 0) .cpu x (.ofInt 2) (.ofInt (-1))),
      .construct (.elementwise (.binary .div) [node 0, node 1]),
      .construct (.elementwise (.unary .neg) [node 2])]
    ∃ host g, Host.ofConfiguration ((start none).platform.registry.configuration Host.name) = .ok host ∧
      host.account.limit = 0 ∧ (run calls (start none)).workspace.graph? 0 = some g ∧ g.Allocatable ∧
      (run calls (start none)).workspace.outputs (some 0) [node 3] = .ok [3] ∧ g.deviceOf 3 = .cpu ∧
      ∃ j n, g.node? j = some n ∧ g.needs [3] j = true ∧ g.DividesByZero n := by
  intro x node calls
  have hhost : Host.ofConfiguration ((start none).platform.registry.configuration Host.name) = .ok .plain := rfl
  have hchecks : ((run calls (start none)).workspace.graph? 0).any (fun g =>
      decide g.Allocatable && g.deviceOf 3 == .cpu) = true := by decide +kernel
  have hids : (run calls (start none)).workspace.outputs (some 0) [node 3] = .ok [3] :=
    eq_ok_of_toOption (by decide +kernel)
  have herror : (exec (SessionM.evaluate (some 0) [node 3]) (run calls (start none))).1.isOk = false := by
    decide +kernel
  obtain ⟨g, hg, hchecks⟩ := (Option.any_eq_true _ _).mp hchecks
  rw [Bool.and_eq_true, decide_eq_true_eq, beq_iff_eq] at hchecks
  obtain ⟨hall, hcpu⟩ := hchecks
  have hcpu' : ∀ id ∈ [3], g.deviceOf id = .cpu := by
    intro id hid
    rw [List.mem_singleton.mp hid]
    exact hcpu
  refine ⟨_, g, hhost, rfl, hg, hall, hids, hcpu, ?_⟩
  rcases evaluation_ok_or_divides none calls _ hhost rfl 0 g hg hall [node 3] [3] hids hcpu' with
    ⟨tensors, hok⟩ | ⟨j, n, position, hn, hneeds, hdivides, -⟩
  · rw [hok] at herror
    exact nomatch herror
  · exact ⟨j, n, hn, hneeds, hdivides⟩

end Session

end LazyTensor
