import LazyTensor.Proofs.Evaluation.Session

/-!
# Which buffers are live

After each step of an evaluation it is known which nodes were executed, and which of them hold a buffer: the outputs,
and the operands of needed nodes that are left (`Graph.holdersAt`). A step takes at most one buffer from the host and
then gives buffers back. So no more buffers are ever live than after some step, and one.
-/

namespace LazyTensor

open List

/-! ## Nodes that are live -/

namespace Graph

variable {g : Graph} {outputs : List Nat} {j k : Nat}

/-- Whether a node below `k` is used from then on: it is needed, and is an output or an operand of a needed node that is
left. -/
def holdsAt (g : Graph) (outputs : List Nat) (k j : Nat) : Bool :=
  j < k && g.needs outputs j &&
    (outputs.contains j || (g.ids.drop k).any fun i => g.needs outputs i && (g.inputs i).contains j)

/-- The nodes to hold buffers when the nodes below `k` were executed. -/
def holdersAt (g : Graph) (outputs : List Nat) (k : Nat) : List Nat := g.ids.filter (g.holdsAt outputs k)

theorem holdsAt_iff : g.holdsAt outputs k j = true ↔ j < k ∧ g.needs outputs j = true ∧
    (j ∈ outputs ∨ ∃ i : Nat, k ≤ i ∧ g.needs outputs i = true ∧ j ∈ g.inputs i) := by
  have hany : ((g.ids.drop k).any fun i => g.needs outputs i && (g.inputs i).contains j) = true ↔
      ∃ i : Nat, k ≤ i ∧ g.needs outputs i = true ∧ j ∈ g.inputs i := by
    rw [List.any_eq_true]
    refine exists_congr fun i => ?_
    rw [mem_ids_drop, Bool.and_eq_true, contains_iff_mem]
    constructor
    · rintro ⟨⟨hle, -⟩, hneeds, hj⟩
      exact ⟨hle, hneeds, hj⟩
    · rintro ⟨hle, hneeds, hj⟩
      exact ⟨⟨hle, lt_size_of_mem_inputs hj⟩, hneeds, hj⟩
  rw [holdsAt, Bool.and_eq_true, Bool.and_eq_true, Bool.or_eq_true, decide_eq_true_eq, contains_iff_mem, hany,
    and_assoc]

theorem take_ids_succ (hk : k < g.size) : g.ids.take (k + 1) = g.ids.take k ++ [k] := by
  have hlength : k < g.ids.length := by simpa [ids] using hk
  rw [take_add_one, getElem?_eq_getElem hlength]
  simp [ids]

/-- The needed nodes below `k`, in the order in which they are executed. -/
def executed (g : Graph) (outputs : List Nat) (k : Nat) : List Nat := (g.ids.take k).filter (g.needs outputs)

theorem executed_succ (hk : k < g.size) :
    g.executed outputs (k + 1) = g.executed outputs k ++ if g.needs outputs k = true then [k] else [] := by
  rw [executed, take_ids_succ hk, filter_append, filter_cons]
  rfl

theorem nodup_executed : (g.executed outputs k).Nodup := by
  rw [executed, ids, take_range]
  exact nodup_range.filter _

theorem mem_holdersAt : j ∈ g.holdersAt outputs k ↔ j ∈ g.executed outputs k ∧
    (j ∈ outputs ∨ ∃ i : Nat, k ≤ i ∧ g.needs outputs i = true ∧ j ∈ g.inputs i) := by
  rw [holdersAt, executed, mem_filter, mem_filter, holdsAt_iff, ids, take_range, mem_range,
    mem_range, Nat.lt_min]
  constructor
  · rintro ⟨hsize, hlt, hneeds, hused⟩
    exact ⟨⟨⟨hlt, hsize⟩, hneeds⟩, hused⟩
  · rintro ⟨⟨⟨hlt, hsize⟩, hneeds⟩, hused⟩
    exact ⟨hsize, hlt, hneeds, hused⟩

theorem WellFormed.mem_executed (h : g.WellFormed) (houtputs : ∀ id ∈ outputs, id < g.size) :
    j ∈ g.executed outputs k ↔ j < k ∧ ∃ o ∈ outputs, o = j ∨ g.DependsOn o j := by
  rw [executed, mem_filter, h.needs_iff, ids, take_range, mem_range]
  constructor
  · rintro ⟨hlt, hneeds⟩
    exact ⟨by omega, hneeds⟩
  · rintro ⟨hlt, hneeds⟩
    have hsize := h.lt_size_of_needs houtputs (h.needs_iff.mpr hneeds)
    exact ⟨by omega, hneeds⟩

end Graph

namespace Evaluation

open Graph HostState Platform

variable {g : Graph} {outputs : List Nat} {base : Account} {e e' : Evaluation} {s : HostState} {host : Host}
  {p p' : Platform} {n : Node} {k : Nat}

section

variable (h : Schedule g outputs base k [] none e s)

include h

theorem Schedule.holders_eq : e.holders = g.holdersAt outputs k := by
  rw [holders, h.size_held]
  apply filter_congr
  intro j hj
  rw [Bool.eq_iff_iff, h.held_iff j (mem_range.mp hj), holdsAt_iff, count_nil, Nat.add_zero, pending_pos_iff]

theorem Schedule.isSome_held?_iff {i : Nat} : (e.held? i).isSome = true ↔ i ∈ g.executed outputs k ∧
      (i ∈ outputs ∨ ∃ j : Nat, k ≤ j ∧ g.needs outputs j = true ∧ i ∈ g.inputs j) := by
  rw [← mem_holders, h.holders_eq, mem_holdersAt]

theorem Schedule.live_eq_length : e.live = (g.holdersAt outputs k).length := by
  rw [h.live_eq, h.holders_eq]

theorem Schedule.adds_holders : base.Adds s.host.account ((g.holdersAt outputs k).map g.shapeOf) := by
  rw [← h.holders_eq]
  apply h.balance.adds
  exact e.enumerates_holders.congr fun j => owns_none.symm

theorem Schedule.buffers_eq_length : s.host.account.buffers = base.buffers + (g.holdersAt outputs k).length := by
  rw [h.adds_holders.buffers_eq, length_map]

theorem Schedule.bytes_eq_sum : s.host.account.live =
    base.live + ((g.holdersAt outputs k).map fun j => (g.shapeOf j).footprint).sum := by
  rw [h.adds_holders.live_eq, List.map_map]
  rfl

end

/-! ## Steps -/

theorem maxLive_use (buffer : Nat) (e : Evaluation) (input : Nat) (p : Platform) :
    ((use buffer e input).run p).1.maxLive = e.maxLive := by
  unfold use
  dsimp only
  split
  · rfl
  · split
    · rfl
    · split
      · rfl
      · rename_i held hheld _
        rw [release, hheld]
        rfl

theorem maxLive_useAll (buffer : Nat) (inputs : List Nat) (e : Evaluation) (p : Platform) :
    ((inputs.foldlM (use buffer) e).run p).1.maxLive = e.maxLive := by
  induction inputs generalizing e p with
  | nil => rfl
  | cons input inputs ih =>
    rw [foldlM_cons, StateT.run_bind]
    exact (ih _ _).trans (maxLive_use buffer e input p)

theorem maxLive_step (h : exec (step g k n e) p = (.ok e', p')) : e'.maxLive = max e.maxLive (e.live + 1) := by
  obtain ⟨backend, p₁, -, h⟩ := exec_bind_eq_ok h
  obtain ⟨output, p₂, -, h⟩ := exec_bind_eq_ok h
  rw [← Except.ok.inj (congrArg Prod.fst h)]
  exact maxLive_useAll output n.inputs _ p₂

/-- Executes nodes, whether they are needed or not. -/
def executeAll (g : Graph) (ids : List NodeId) (e : Evaluation) : PlatformM EvaluationError Evaluation :=
  ids.foldlM (fun e id => match g.node? id with
    | some node => step g id node e
    | none => pure e) e

theorem run_append (ids ids' : List NodeId) (e : Evaluation) (p : Platform) :
    (Evaluation.run g (ids ++ ids') e).run p =
      match (Evaluation.run g ids e).run p with
      | ((.ok _, e'), p') => (Evaluation.run g ids' e').run p'
      | ((.error err, e'), p') => ((.error err, e'), p') := by
  induction ids generalizing e p with
  | nil => rfl
  | cons id ids ih =>
    rw [cons_append, Evaluation.run, Evaluation.run]
    split
    · exact ih e p
    · rename_i n _
      rw [StateT.run_bind, StateT.run_bind]
      rcases (step g id n e).run.run p with ⟨_ | e', p'⟩
      · rfl
      · exact ih e' p'

/-! ## Points of a run -/

/-- What is so when the nodes below `k` were executed, from the platform `start` with its host at `s₀`. -/
structure Point (g : Graph) (outputs : List Nat) (host : Host) (start : Platform) (s₀ : HostState) (k : Nat)
    (e : Evaluation) (p : Platform) (s : HostState) : Prop where
  at_ : p.At host s
  serves : s.Serves host
  schedule : Schedule g outputs s₀.host.account k [] none e s
  executed : exec (executeAll g (g.executed outputs k) (plan g outputs)) start = (.ok e, p)
  maxLive_le : ∀ most : Nat, (∀ i : Nat, i < k → (g.holdersAt outputs i).length ≤ most) → e.maxLive ≤ most + 1
  peak_le : ∀ bound : UInt64, s₀.host.account.peak ≤ bound →
    (∀ i : Nat, i < k → g.needs outputs i = true →
      s₀.host.account.live + ((g.holdersAt outputs i).map fun j => (g.shapeOf j).footprint).sum +
        (g.shapeOf i).footprint ≤ bound) → s.host.account.peak ≤ bound

variable {start : Platform} {s₀ : HostState}

theorem point_plan (hwf : g.WellFormed) (outputs : List Nat) (hat : start.At host s₀) (hserves : s₀.Serves host) :
    Point g outputs host start s₀ 0 (plan g outputs) start s₀ := by
  refine ⟨hat, hserves, schedule_plan hwf outputs s₀, rfl, fun most _ => ?_, fun bound hpeak _ => hpeak⟩
  rw [(passed_plan hwf outputs).maxLive_eq]
  omega

theorem Point.skip (h : Point g outputs host start s₀ k e p s) (hk : k < g.size) (hneeds : g.needs outputs k = false) :
    Point g outputs host start s₀ (k + 1) e p s := by
  refine { h with
    schedule := h.schedule.skip hk hneeds
    executed := ?_
    maxLive_le := fun most hmost => h.maxLive_le most fun i hi => hmost i (by omega)
    peak_le := fun bound hpeak hbound => h.peak_le bound hpeak fun i hi => hbound i (by omega) }
  rw [executed_succ hk, hneeds, if_neg Bool.false_ne_true, append_nil]
  exact h.executed

/-- The step of a needed node takes at most one buffer, and then gives buffers back. -/
theorem Point.step (h : Point g outputs host start s₀ k e p s) (hwf : g.WellFormed) (hn : g.node? k = some n)
    (hneeds : g.needs outputs k = true) (hexec : exec (Evaluation.step g k n e) p = (.ok e', p')) :
    ∃ s', (∃ a, s.host.account.Takes n.shape a ∧ a.Freed s'.host.account) ∧
      Point g outputs host start s₀ (k + 1) e' p' s' := by
  have hk := lt_size_of_node? hn
  by_cases hdevice : n.device = .cpu
  · rcases h.schedule.step hwf hn hneeds hdevice h.at_ h.serves with
      ⟨e₁, p₁, s', hexec₁, hstandard, hruns, hserves, ⟨a, htakes, hfreed⟩, hschedule⟩ | ⟨cause, p₁, s', hexec₁, -⟩
    · obtain ⟨rfl, rfl⟩ : e₁ = e' ∧ p₁ = p' := by
        rw [hexec₁] at hexec
        exact ⟨Except.ok.inj (congrArg Prod.fst hexec), congrArg Prod.snd hexec⟩
      refine ⟨s', ⟨a, htakes, hfreed⟩, ⟨hstandard, .inr hruns⟩, hserves, hschedule, ?_, fun most hmost => ?_,
        fun bound hpeak hbound => ?_⟩
      · -- the node is the last one of those that are needed
        have hnode : exec (executeAll g [k] e) p = (.ok e₁, p₁) := by
          rw [executeAll, foldlM_cons, hn]
          exact exec_bind_ok hexec
        rw [executed_succ hk, if_pos hneeds, executeAll, foldlM_append]
        exact (exec_bind_ok h.executed).trans hnode
      · -- one buffer more than before the step
        have hbefore := h.maxLive_le most fun i hi => hmost i (by omega)
        have hlive := hmost k (by omega)
        rw [maxLive_step hexec, h.schedule.live_eq_length]
        omega
      · -- buffers that are given back do not lower the peak, so it is that of the new buffer
        have hlive := hbound k (by omega) hneeds
        rw [← h.schedule.bytes_eq_sum, shapeOf_eq_of_node? hn] at hlive
        rw [hfreed.peak_eq]
        exact htakes.peak_le (h.peak_le bound hpeak fun i hi => hbound i (by omega)) hlive
    · rw [hexec₁] at hexec
      cases congrArg Prod.fst hexec
  · -- other devices have no backend, so the step would have failed
    obtain ⟨err, p₁, hbackend, -⟩ := exec_backendFor_other (g := g) (k := k) h.at_ hdevice
    rw [Evaluation.step, exec_bind_error hbackend] at hexec
    cases congrArg Prod.fst hexec

theorem Point.next (h : Point g outputs host start s₀ k e p s) (hwf : g.WellFormed) (hk : k < g.size)
    (hrun : (Evaluation.run g [k] e).run p = ((.ok (), e'), p')) :
    ∃ s', (∃ a, s.host.account.Takes (g.shapeOf k) a ∧ a.Freed s'.host.account) ∧
      Point g outputs host start s₀ (k + 1) e' p' s' := by
  obtain ⟨n, hn⟩ := exists_node?_of_lt hk
  have hneeded := h.schedule.isNeeded_eq k hk
  cases hneeds : g.needs outputs k with
  | false =>
    rw [run_cons_skip (hneeded.trans hneeds)] at hrun
    cases hrun
    exact ⟨s, ⟨_, .inl rfl, .refl⟩, h.skip hk hneeds⟩
  | true =>
    rw [run_cons (hneeded.trans hneeds) hn] at hrun
    rcases hexec : exec (Evaluation.step g k n e) p with ⟨_ | e₁, p₁⟩
    · rw [hexec] at hrun
      cases hrun
    · rw [hexec] at hrun
      cases hrun
      rw [shapeOf_eq_of_node? hn]
      exact h.step hwf hn hneeds hexec

theorem exists_run_take (hk : k < g.size)
    (hrun : (Evaluation.run g (g.ids.take (k + 1)) e).run p = ((.ok (), e'), p')) :
    ∃ e₁ p₁, (Evaluation.run g (g.ids.take k) e).run p = ((.ok (), e₁), p₁) ∧
      (Evaluation.run g [k] e₁).run p₁ = ((.ok (), e'), p') := by
  rw [take_ids_succ hk, run_append] at hrun
  rcases hfirst : (Evaluation.run g (g.ids.take k) e).run p with ⟨⟨_ | _, e₁⟩, p₁⟩
  · rw [hfirst] at hrun
    cases hrun
  · rw [hfirst] at hrun
    exact ⟨e₁, p₁, rfl, hrun⟩

theorem exists_point (hwf : g.WellFormed) (hat : start.At host s₀) (hserves : s₀.Serves host) (hk : k ≤ g.size)
    (hrun : (Evaluation.run g (g.ids.take k) (plan g outputs)).run start = ((.ok (), e), p)) :
    ∃ s, Point g outputs host start s₀ k e p s := by
  induction k generalizing e p with
  | zero =>
    cases hrun
    exact ⟨s₀, point_plan hwf outputs hat hserves⟩
  | succ k ih =>
    obtain ⟨e₁, p₁, hbefore, hnode⟩ := exists_run_take hk hrun
    obtain ⟨s₁, h₁⟩ := ih (Nat.le_of_lt hk) hbefore
    obtain ⟨s, -, h⟩ := h₁.next hwf hk hnode
    exact ⟨s, h⟩

end Evaluation

/-! ## Evaluations of a session -/

namespace Graph

variable {g : Graph} {outputs : List Nat} {k : Nat}

theorem ids_pin (ids : List NodeId) : (g.pin ids).ids = g.ids := by
  rw [Graph.ids, size_pin]
  rfl

theorem WellFormed.needs_pin_eq (h : g.WellFormed) (ids : List NodeId) :
    (g.pin ids).needs outputs = g.needs outputs :=
  funext fun _ => WellFormed.needs_pin ids h

theorem WellFormed.executed_pin (h : g.WellFormed) (ids : List NodeId) :
    (g.pin ids).executed outputs k = g.executed outputs k := by
  rw [executed, ids_pin, h.needs_pin_eq]
  rfl

theorem WellFormed.holdersAt_pin (h : g.WellFormed) (ids : List NodeId) :
    (g.pin ids).holdersAt outputs k = g.holdersAt outputs k := by
  have hholds : (g.pin ids).holdsAt outputs k = g.holdsAt outputs k := by
    funext j
    simp only [holdsAt, ids_pin, h.needs_pin_eq, inputs_pin]
  rw [holdersAt, ids_pin, hholds]
  rfl

end Graph

namespace Session

open Evaluation

/-- Whatever calls were made before: after the step of a node that did not fail, the nodes up to it that the outputs
depend on were executed, each once. Those that are outputs or operands of later nodes hold buffers, all different, and
no others do. A step takes at most one buffer from the host before it gives others back, so at no time more buffers
are in use than the most that are held after a step, and one. -/
theorem exact_liveness (environment : Option String) (calls : List Call) (host : Host)
    (hhost : Host.ofConfiguration ((start environment).platform.registry.configuration Host.name) = .ok host)
    (gid : GraphId) (g : Graph) (hg : (run calls (start environment)).workspace.graph? gid = some g)
    (outputs : List Handle) (ids : List NodeId)
    (hids : (run calls (start environment)).workspace.outputs (some gid) outputs = .ok ids)
    (k : Nat) (hk : k < g.size) (e : Evaluation) (p : Platform)
    (hrun : (Evaluation.run (g.pin ids) (g.ids.take (k + 1)) (plan (g.pin ids) ids)).run
      (run calls (start environment)).platform = ((.ok (), e), p)) :
    let σ := run calls (start environment)
    let initial := σ.platform.account host
    let needed (j : Nat) : Prop := ∃ o ∈ ids, o = j ∨ g.DependsOn o j
    let executed := g.executed ids (k + 1)
    (Evaluation.run (g.pin ids) g.ids (plan (g.pin ids) ids)).run σ.platform =
      (Evaluation.run (g.pin ids) (g.ids.drop (k + 1)) e).run p ∧
    exec (executeAll (g.pin ids) executed (plan (g.pin ids) ids)) σ.platform = (.ok e, p) ∧
    executed.Nodup ∧ (∀ j : Nat, j ∈ executed ↔ j ≤ k ∧ needed j) ∧
    (∀ i : Nat, (e.held? i).isSome = true ↔
      i ∈ executed ∧ (i ∈ ids ∨ ∃ j : Nat, k < j ∧ needed j ∧ i ∈ g.inputs j)) ∧
    (∀ (i j : Nat) (held held' : Held), e.held? i = some held → e.held? j = some held' →
      held.buffer = held'.buffer → i = j) ∧
    g.ids.filter (fun i => (e.held? i).isSome) = g.holdersAt ids (k + 1) ∧
    e.live = (g.holdersAt ids (k + 1)).length ∧
    (∀ most : Nat, (∀ m : Nat, m ≤ k → (g.holdersAt ids m).length ≤ most) → e.maxLive ≤ most + 1) ∧
    ∃ e₁ p₁ a,
      (Evaluation.run (g.pin ids) (g.ids.take k) (plan (g.pin ids) ids)).run σ.platform = ((.ok (), e₁), p₁) ∧
      (p₁.account host).Takes (g.shapeOf k) a ∧ a.Freed (p.account host) ∧
      (p.account host).buffers = initial.buffers + e.live ∧
      (∀ most : Nat, (∀ m : Nat, m ≤ k → (g.holdersAt ids m).length ≤ most) →
        a.buffers ≤ initial.buffers + (most + 1)) ∧
      ∀ bound : UInt64, initial.peak ≤ bound →
        (∀ m : Nat, m ≤ k → needed m →
          initial.live + ((g.holdersAt ids m).map fun j => (g.shapeOf j).footprint).sum +
            (g.shapeOf m).footprint ≤ bound) → (p.account host).peak ≤ bound := by
  intro σ initial needed executed
  have hwf := wellFormed_run calls (wellFormed_start environment) gid g hg
  have hwf' := hwf.pin ids
  obtain ⟨hne, hlt⟩ := Workspace.outputs_of_graph? hg hids
  obtain ⟨s₀, hserves⟩ := (serves_start hhost).run (wellFormed_start environment) calls
  have hinitial : initial = s₀.host.account := hserves.at_.account_eq
  have hk' : k < (g.pin ids).size := by
    rw [Graph.size_pin]
    exact hk
  have hrest := Evaluation.run_append (g := g.pin ids) (g.ids.take (k + 1)) (g.ids.drop (k + 1)) (plan (g.pin ids) ids)
    σ.platform
  rw [List.take_append_drop, hrun] at hrest
  rw [← Graph.ids_pin ids] at hrun
  -- the states of the host before and after the step
  obtain ⟨e₁, p₁, hbefore, hnode⟩ := exists_run_take hk' hrun
  obtain ⟨s₁, h₁⟩ := exists_point hwf' hserves.at_ hserves.serves (Nat.le_of_lt hk') hbefore
  obtain ⟨s, ⟨a, htakes, hfreed⟩, h⟩ := h₁.next hwf' hk' hnode
  rw [Graph.shapeOf_pin] at htakes
  rw [Graph.ids_pin] at hbefore
  have hexecuted := h.executed
  rw [hwf.executed_pin] at hexecuted
  -- pinning outputs changes nothing that is asked for
  have hholders := h.schedule.holders_eq
  have hlive := h.schedule.live_eq_length
  have hbuffers := h.schedule.buffers_eq_length
  have hbuffers₁ := h₁.schedule.buffers_eq_length
  rw [hwf.holdersAt_pin] at hholders hlive hbuffers hbuffers₁
  rw [← hlive] at hbuffers
  rw [h.at_.account_eq, hinitial]
  refine ⟨hrest, hexecuted, Graph.nodup_executed, fun j => ?_, fun i => ?_, h.schedule.holding.distinct, ?_, hlive,
    fun most hmost => ?_, e₁, p₁, a, hbefore, ?_, hfreed, hbuffers, fun most hmost => ?_, fun bound hpeak hbound => ?_⟩
  · rw [hwf.mem_executed hlt, Nat.lt_succ_iff]
  · rw [h.schedule.isSome_held?_iff, hwf.executed_pin, hwf.needs_pin_eq]
    simp only [Nat.succ_le_iff, hwf.needs_iff, Graph.inputs_pin]
    rfl
  · rw [← hholders, holders, h.schedule.size_held, Graph.size_pin]
    rfl
  · apply h.maxLive_le most
    intro m hm
    rw [hwf.holdersAt_pin]
    exact hmost m (Nat.le_of_lt_succ hm)
  · rw [h₁.at_.account_eq]
    exact htakes
  · have htaken := htakes.buffers_le
    have hmost := hmost k (Nat.le_refl k)
    omega
  · apply h.peak_le bound hpeak
    intro m hm hneeds
    rw [hwf.needs_pin_eq, hwf.needs_iff] at hneeds
    rw [hwf.holdersAt_pin, Graph.shapeOf_pin]
    exact hbound m (Nat.le_of_lt_succ hm) hneeds

/-- After the third of four nodes the first one is given back, as nothing uses it any more. -/
theorem exact_liveness_of_third :
    let x : Shape := ⟨.int32, [2]⟩
    let node (id : Int) : Handle := some ⟨0, id⟩
    let calls : List Call := [.newGraph "g", .construct (.fill (some 0) .cpu x (.ofInt 6)),
      .construct (.elementwise (.binary .add) [node 0, node 0]), .construct (.elementwise (.unary .neg) [node 0]),
      .construct (.elementwise (.binary .mul) [node 1, node 2])]
    let ids : List NodeId := [3, 1, 3]
    ∃ host g e p, Host.ofConfiguration ((start none).platform.registry.configuration Host.name) = .ok host ∧
      (run calls (start none)).workspace.graph? 0 = some g ∧
      (run calls (start none)).workspace.outputs (some 0) [node 3, node 1, node 3] = .ok ids ∧ 2 < g.size ∧
      (Evaluation.run (g.pin ids) (g.ids.take 3) (plan (g.pin ids) ids)).run (run calls (start none)).platform =
        ((.ok (), e), p) ∧
      g.ids.filter (fun i => (e.held? i).isSome) = [1, 2] ∧ e.live = 2 := by
  intro x node calls ids
  have hhost : Host.ofConfiguration ((start none).platform.registry.configuration Host.name) = .ok .plain := rfl
  have hids : (run calls (start none)).workspace.outputs (some 0) [node 3, node 1, node 3] = .ok ids :=
    eq_ok_of_toOption (by decide +kernel)
  have hchecks : ((run calls (start none)).workspace.graph? 0).any (fun g =>
      decide (2 < g.size) && g.holdersAt ids 3 == [1, 2] &&
        ((Evaluation.run (g.pin ids) (g.ids.take 3) (plan (g.pin ids) ids)).run
          (run calls (start none)).platform).1.1.isOk) = true := by decide +kernel
  -- nothing is left to be computed
  clear_value calls node ids
  obtain ⟨g, hg, hchecks⟩ := (Option.any_eq_true _ _).mp hchecks
  rw [Bool.and_eq_true, Bool.and_eq_true, decide_eq_true_eq, beq_iff_eq] at hchecks
  obtain ⟨⟨hsize, hholders⟩, hok⟩ := hchecks
  rcases hrun : (Evaluation.run (g.pin ids) (g.ids.take 3) (plan (g.pin ids) ids)).run
    (run calls (start none)).platform with ⟨⟨result, e⟩, p⟩
  rw [hrun] at hok
  cases result with
  | error err => exact nomatch hok
  | ok _ =>
    obtain ⟨-, -, -, -, -, -, hheld, hlive, -⟩ :=
      exact_liveness none calls _ hhost 0 g hg [node 3, node 1, node 3] ids hids 2 hsize e p hrun
    rw [hholders] at hheld hlive
    exact ⟨_, g, e, p, hhost, hg, hids, hsize, hrun, hheld, hlive⟩

end Session

end LazyTensor
