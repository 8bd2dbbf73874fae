import LazyTensor.Proofs.Evaluation.Schedule

/-!
# Outcomes of evaluations

An evaluation ends with a tensor for each output, in a buffer that has its value, or with the error of the
first needed node that cannot be executed. In both cases the host can be used again. After an error that lets the
evaluation give back what it holds, the host counts what it counted before. A host that is finalized executes nothing.
-/

namespace LazyTensor

open List Option

/-- After the error an evaluation holds the buffers of its nodes and no others, and it goes on to release them. -/
structure EvaluationError.IsClean (err : EvaluationError) : Prop where
  kind_ne : Failure.kind err ≠ .abort
  cause : ∀ (graph : String) (id : NodeId) (n : Node) (op : Operation) (output : Shape) (cause : Stop),
    err = .execution graph id n (.stopped op output cause) → cause.IsClean

namespace EvaluationError

variable {graph : String} {id : NodeId} {n : Node}

theorem isClean_device {cause : RegistryError} (hkind : Failure.kind cause ≠ .abort) :
    (device graph id n cause).IsClean := ⟨hkind, fun _ _ _ _ _ _ h => nomatch h⟩

theorem isClean_declared (cause : Capabilities.Error) : (declared graph id n cause).IsClean := by
  refine ⟨?_, fun _ _ _ _ _ _ h => nomatch h⟩
  show FailureKind.compilation ≠ .abort
  decide

end EvaluationError

namespace Platform

variable {host : Host} {p : Platform} {s : HostState}

theorem At.queries (h : At host p s) (queries : List String) :
    At host { p with registry := { p.registry with queries } } s := by
  refine ⟨⟨h.standard.registrations_eq, h.standard.configured, h.standard.others_fail⟩, ?_⟩
  rcases h.state with hunmade | hruns
  · exact .inl ⟨hunmade.missing, hunmade.backends_eq, hunmade.state_eq⟩
  · exact .inr ⟨hruns.found, hruns.backend⟩

theorem At.checkDeclared (h : At host p s) (device : Device) (op : Operation) (output : DType) :
    At host { p with registry := (p.registry.checkDeclared device op output).2 } s := by
  unfold Registry.checkDeclared
  split
  · exact h
  · exact h.queries _

end Platform

namespace Evaluation

open Graph HostState Platform

variable {g : Graph} {outputs : List Nat} {base : Account} {e : Evaluation} {s : HostState} {k id : Nat} {host : Host}
  {p : Platform} {n : Node}

/-! ## Backends of nodes -/

theorem exec_backendFor_cpu (h : p.At host s) (hdevice : n.device = .cpu) :
    ∃ p', exec (backendFor g k n) p = (.ok 0, p') ∧ Standard host p' ∧ p'.Runs s := by
  obtain ⟨p', hfor, hstandard, hruns⟩ := h.forDevice_cpu
  refine ⟨p', ?_, hstandard, hruns⟩
  have hlift : exec (liftM (PlatformM.forDevice n.device).run : PlatformM EvaluationError _) p = (.ok (.ok 0), p') := by
    rw [hdevice]
    show (Except.ok (exec (PlatformM.forDevice .cpu) p).1, (exec (PlatformM.forDevice .cpu) p).2) = _
    rw [PlatformM.exec_forDevice, hfor]
  rw [backendFor, exec_bind_ok hlift]
  rfl

theorem exec_backendFor_other (h : p.At host s) (hdevice : n.device ≠ .cpu) :
    ∃ err p', exec (backendFor g k n) p = (.error err, p') ∧ err.IsClean ∧ p'.At host s ∧
      p'.backends = p.backends := by
  obtain ⟨cause, p₁, hfor, hkind, h₁, hbackends⟩ := h.forDevice_other hdevice
  have hlift : exec (liftM (PlatformM.forDevice n.device).run : PlatformM EvaluationError _) p =
      (.ok (.error cause), p₁) := by
    show (Except.ok (exec (PlatformM.forDevice n.device) p).1, (exec (PlatformM.forDevice n.device) p).2) = _
    rw [PlatformM.exec_forDevice, hfor]
  rw [backendFor, exec_bind_ok hlift]
  simp only
  have h₂ := h₁.checkDeclared n.device n.op n.shape.dtype
  by_cases hunavailable : Failure.kind cause = .unavailable
  · rw [if_pos hunavailable, exec_bind_ok (exec_get p₁)]
    rcases hcheck : p₁.registry.checkDeclared n.device n.op n.shape.dtype with ⟨result, registry⟩
    rw [hcheck] at h₂
    cases result with
    | error e => exact ⟨_, _, rfl, EvaluationError.isClean_declared e, h₂, hbackends⟩
    | ok _ => exact ⟨_, _, rfl, EvaluationError.isClean_device hkind, h₂, hbackends⟩
  · rw [if_neg hunavailable]
    exact ⟨_, p₁, rfl, EvaluationError.isClean_device hkind, h₁, hbackends⟩

/-! ## What is held -/

/-- What nodes hold can be given back: live buffers of their shapes, all different, that the host counts beside
`base`. -/
structure Holding (g : Graph) (base : Account) (e : Evaluation) (s : HostState) : Prop where
  size_held : e.held.size = g.size
  backend_eq : ∀ (j : Nat) (held : Held), e.held? j = some held → held.backend = 0
  live : ∀ (j : Nat) (held : Held), e.held? j = some held → ∃ flat, s.Live held.buffer ⟨g.shapeOf j, flat, false⟩
  distinct : ∀ (i j : Nat) (held held' : Held), e.held? i = some held → e.held? j = some held' →
    held.buffer = held'.buffer → i = j
  balance : g.Counted base (fun j => (e.held? j).isSome = true) s.host.account

theorem Schedule.holding (h : Schedule g outputs base k [] none e s) : Holding g base e s where
  size_held := h.size_held
  backend_eq := h.backend_eq
  live j held hj := by
    obtain ⟨v, hlive, hshape, -⟩ := h.stored j held hj (.inl nofun)
    rw [← hshape]
    exact ⟨v.flat, hlive⟩
  distinct i j held held' hi hj heq := by
    rcases h.distinct i j held held' hi hj heq with hij | hout
    · exact hij
    · cases hout
  balance := h.balance.congr fun _ => owns_none

theorem Holding.kept {s' : HostState} (h : Holding g base e s) (hkept : Kept s s') : Holding g base e s' where
  size_held := h.size_held
  backend_eq := h.backend_eq
  live j held hj := by
    obtain ⟨flat, hlive⟩ := h.live j held hj
    exact hkept.live _ _ hlive
  distinct := h.distinct
  balance := h.balance.sameUse hkept.sameUse

theorem Holding.release (h : Holding g base e s) (hs : s.Sound) {buffer : Nat} (hid : e.held? id = some ⟨0, buffer⟩) :
    Holding g base (e.drop id) (exec (HostM.finalizeBuffer (.host buffer)) s).2 := by
  obtain ⟨flat, hlive⟩ := h.live id _ hid
  obtain ⟨-, hframe⟩ := HostM.finalizeBuffer_frame hs buffer
  refine ⟨?_, fun j held hj => h.backend_eq j held (held?_of_drop hj).2, fun j held hj => ?_,
    fun i j held held' hi hj => h.distinct i j held held' (held?_of_drop hi).2 (held?_of_drop hj).2, ?_⟩
  · show (e.held.setIfInBounds id none).size = _
    rw [Array.size_setIfInBounds, h.size_held]
  · obtain ⟨hne, hj⟩ := held?_of_drop hj
    obtain ⟨flat', hlive'⟩ := h.live j held hj
    refine ⟨flat', hframe.live _ _ hlive' ?_⟩
    rw [mem_singleton]
    exact fun heq => hne (h.distinct j id held _ hj hid heq)
  · rw [HostM.account_finalizeBuffer hs hlive]
    refine (h.balance.free (by rw [hid]; rfl)).congr fun j => ?_
    rw [held?_drop]
    by_cases hj : j = id
    · simp [hj]
    · simp [hj]

theorem Holding.sameUse (h : Holding g base e s) (hnone : ∀ j : Nat, j < g.size → e.held? j = none) :
    base.SameUse s.host.account := by
  apply Account.Adds.sameUse
  refine h.balance.adds ⟨nodup_nil, fun j => ⟨nofun, fun hj => ?_⟩⟩
  obtain ⟨held, hheld⟩ := isSome_iff_exists.mp hj
  have hlt := lt_size_of_held? hheld
  rw [h.size_held] at hlt
  rw [hnone j hlt] at hheld
  cases hheld

/-! ## Steps -/

/-- One step of the loop computes its node and gives back what is not needed any more, or fails at the node. -/
theorem Schedule.step (h : Schedule g outputs base k [] none e s) (hwf : g.WellFormed) (hn : g.node? k = some n)
    (hneeds : g.needs outputs k = true) (hdevice : n.device = .cpu) (hat : p.At host s) (hserves : s.Serves host) :
    (∃ e' p' s', exec (Evaluation.step g k n e) p = (.ok e', p') ∧ Standard host p' ∧ p'.Runs s' ∧ s'.Serves host ∧
      (∃ a, s.host.account.Takes n.shape a ∧ a.Freed s'.host.account) ∧ Schedule g outputs base (k + 1) [] none e' s') ∨
    (∃ cause p' s', exec (Evaluation.step g k n e) p =
        (.error (.execution g.name k n (.stopped n.op n.shape cause)), p') ∧ Standard host p' ∧ p'.Runs s' ∧
      s'.Serves host ∧ (cause.IsClean → Kept s s') ∧ FailedAt g host k n cause) := by
  obtain ⟨p₁, hbackend, hstandard₁, hruns₁⟩ := exec_backendFor_cpu hat hdevice
  have hk := lt_size_of_node? hn
  rw [Evaluation.step, exec_bind_ok hbackend]
  obtain ⟨p₂, hon, hruns₂, hregistry⟩ := PlatformM.exec_onHost hruns₁
    (HostM.execute n.op (n.inputs.map e.ref) (e.owned n.inputs) n.shape)
  have hadapt := exec_adapt (EvaluationError.execution g.name k n)
    (PlatformM.onHost 0 (HostM.execute n.op (n.inputs.map e.ref) (e.owned n.inputs) n.shape)) p₁
  rw [hon] at hadapt
  rcases h.execute hwf hn hneeds hserves with
    ⟨buffer, s₂, hexec, hserves₂, htakes, h₂⟩ | ⟨cause, s₂, hexec, hserves₂, hkept, hfailed⟩
  · rw [hexec] at hadapt hruns₂
    have hinputs : ∀ i : Nat, i ∈ n.inputs → i + 1 < k + 1 ∧ i < g.size := by
      intro i hi
      have hlt := (hwf.fits k n hn).inputs_lt i hi
      omega
    have hneeded : ∀ i : Nat, i ∈ n.inputs → g.needs outputs i = true := by
      intro i hi
      rw [← inputs_eq_of_node? hn] at hi
      exact hwf.needs_of_input hneeds hi
    -- inputs that nothing else waits for are given back, one use after the other
    obtain ⟨e₃, p₃, s₃, hall, hruns₃, hregistry₃, hserves₃, hfreed, h₃⟩ := h₂.useAll hinputs hneeded hruns₂ hserves₂
    refine .inl ⟨e₃, p₃, s₃, ?_, hstandard₁.congr (hregistry₃.trans hregistry), hruns₃, hserves₃,
      ⟨_, htakes, hfreed⟩, h₃⟩
    rw [exec_bind_ok hadapt, exec_lift, hall]
  · rw [hexec] at hadapt hruns₂
    refine .inr ⟨cause, p₂, s₂, ?_, hstandard₁.congr hregistry, hruns₂, hserves₂, hkept, hfailed⟩
    rw [exec_bind_error hadapt]

/-- Why an evaluation fails: a needed node is on another device, or has no value. -/
structure Failed (g : Graph) (outputs : List Nat) (host : Host) (err : EvaluationError) : Prop where
  cause : ∃ id n, g.node? id = some n ∧ g.needs outputs id = true ∧
    (n.device = .cpu → ∃ cause, err = .execution g.name id n (.stopped n.op n.shape cause) ∧
      FailedAt g host id n cause) ∧ (n.device ≠ .cpu → err.IsClean)

/-- How the execution of the nodes ends: all of them are executed, or one fails. The host is there afterwards if
it was `made` before, or if a node holds a buffer. -/
inductive Ended (g : Graph) (outputs : List Nat) (host : Host) (base : Account) (made : Prop) :
    (Except EvaluationError Unit × Evaluation) × Platform → Prop where
  | ok (e : Evaluation) (p : Platform) (s : HostState) (at_ : p.At host s) (serves : s.Serves host)
    (runs : made ∨ (∃ j held, e.held? j = some held) → p.Runs s)
    (schedule : Schedule g outputs base g.size [] none e s) : Ended g outputs host base made ((.ok (), e), p)
  | error (err : EvaluationError) (e : Evaluation) (p : Platform) (s : HostState) (at_ : p.At host s)
    (serves : s.Serves host) (runs : made ∨ (∃ j held, e.held? j = some held) → p.Runs s)
    (backend_eq : ∀ (j : Nat) (held : Held), e.held? j = some held → held.backend = 0)
    (holding : err.IsClean → Holding g base e s) (failed : Failed g outputs host err) :
    Ended g outputs host base made ((.error err, e), p)

theorem run_cons (hneeded : e.isNeeded k = true) (hn : g.node? k = some n) (ids : List NodeId) (p : Platform) :
    (Evaluation.run g (k :: ids) e).run p =
      match exec (Evaluation.step g k n e) p with
      | (.ok e', p') => (Evaluation.run g ids e').run p'
      | (.error err, p') => ((.error err, e), p') := by
  have hstep : (Evaluation.step g k n e).run.run p = exec (Evaluation.step g k n e) p := rfl
  rw [Evaluation.run, hneeded, if_pos rfl, hn]
  rw [StateT.run_bind, hstep]
  rcases exec (Evaluation.step g k n e) p with ⟨_ | e', p'⟩
  · rfl
  · rfl

theorem run_cons_skip (hneeded : e.isNeeded k = false) (ids : List NodeId) (p : Platform) :
    (Evaluation.run g (k :: ids) e).run p = (Evaluation.run g ids e).run p := by
  rw [Evaluation.run, hneeded, if_neg Bool.false_ne_true]

/-- The steps from a node on follow the plan, until one of them fails. -/
theorem Schedule.run {made : Prop} (hwf : g.WellFormed) (h : Schedule g outputs base k [] none e s) (hk : k ≤ g.size)
    (hat : p.At host s) (hserves : s.Serves host)
    (hruns : made ∨ (∃ j held, e.held? j = some held) → p.Runs s) :
    Ended g outputs host base made ((Evaluation.run g (g.ids.drop k) e).run p) := by
  -- the induction is on the number of nodes that are left
  induction hleft : g.size - k generalizing k e s p with
  | zero =>
    obtain rfl : k = g.size := by omega
    have hempty : g.ids.drop g.size = [] := by simp [ids]
    rw [hempty]
    exact .ok e p s hat hserves hruns h
  | succ left ih =>
    have hlt : k < g.size := by omega
    obtain ⟨n, hn⟩ := exists_node?_of_lt hlt
    have hneeded := h.isNeeded_eq k hlt
    rw [ids_drop hlt]
    cases hneeds : g.needs outputs k with
    | false =>
      rw [run_cons_skip (hneeded.trans hneeds)]
      exact ih (h.skip hlt hneeds) hlt hat hserves hruns (by omega)
    | true =>
      rw [run_cons (hneeded.trans hneeds) hn]
      by_cases hdevice : n.device = .cpu
      · rcases h.step hwf hn hneeds hdevice hat hserves with
          ⟨e', p', s', hexec, hstandard', hruns', hserves', -, h'⟩ |
          ⟨cause, p', s', hexec, hstandard', hruns', hserves', hkept, hfailed⟩
        · rw [hexec]
          exact ih h' hlt ⟨hstandard', .inr hruns'⟩ hserves' (fun _ => hruns') (by omega)
        · rw [hexec]
          exact .error _ e p' s' ⟨hstandard', .inr hruns'⟩ hserves' (fun _ => hruns') h.backend_eq
            (fun hclean => h.holding.kept (hkept (hclean.cause _ _ _ _ _ _ rfl)))
            ⟨k, n, hn, hneeds, fun _ => ⟨cause, rfl, hfailed⟩, fun hother => absurd hdevice hother⟩
      · obtain ⟨err, p', hbackend, hclean, hat', hbackends⟩ := exec_backendFor_other hat hdevice
        have hexec : exec (Evaluation.step g k n e) p = (.error err, p') := by
          rw [Evaluation.step, exec_bind_error hbackend]
        rw [hexec]
        exact .error err e p' s hat' hserves (fun hmade => (hruns hmade).of_at hat' hbackends) h.backend_eq
          (fun _ => h.holding) ⟨k, n, hn, hneeds, fun hcpu => absurd hcpu hdevice, fun _ => hclean⟩

/-! ## Release -/

theorem run_releaseAll {made : Prop} (e : Evaluation) (hat : p.At host s) (hserves : s.Serves host)
    (hruns : made ∨ (∃ j held, e.held? j = some held) → p.Runs s)
    (hbackend : ∀ (j : Nat) (held : Held), e.held? j = some held → held.backend = 0) (ids : List NodeId) :
    ∃ s', ((ids.foldlM release e).run p).2.At host s' ∧ s'.Serves host ∧
      (made → ((ids.foldlM release e).run p).2.Runs s') ∧
      (Holding g base e s → Holding g base ((ids.foldlM release e).run p).1 s') ∧
      ∀ j : Nat, ((ids.foldlM release e).run p).1.held? j = if j ∈ ids then none else e.held? j := by
  induction ids generalizing e p s with
  | nil => exact ⟨s, hat, hserves, fun hmade => hruns (.inl hmade), fun h => h, fun j => by simp; rfl⟩
  | cons id ids ih =>
    rw [foldlM_cons, StateT.run_bind]
    cases hid : e.held? id with
    | none =>
      -- nothing is held here, so the host is not asked
      have hrelease : (e.release id).run p = (e, p) := by
        rw [release, hid]
        rfl
      rw [hrelease]
      obtain ⟨s', hat', hserves', hruns', hholding, hheld⟩ := ih e hat hserves hruns hbackend
      refine ⟨s', hat', hserves', hruns', hholding, fun j => (hheld j).trans ?_⟩
      by_cases hj : j = id
      · simp [hj, hid]
      · simp [hj]
    | some held =>
      obtain ⟨backend, buffer⟩ := held
      obtain rfl : backend = 0 := hbackend id _ hid
      obtain ⟨p', hrelease, hruns', hregistry⟩ := run_release hid (hruns (.inr ⟨id, _, hid⟩))
      obtain ⟨hsound, hframe⟩ := HostM.finalizeBuffer_frame hserves.sound buffer
      have hbackend' : ∀ (j : Nat) (held : Held), (e.drop id).held? j = some held → held.backend = 0 :=
        fun j held hj => hbackend j held (held?_of_drop hj).2
      rw [hrelease]
      obtain ⟨s', hat', hserves', hruns'', hholding, hheld⟩ :=
        ih (e.drop id) ⟨hat.standard.congr hregistry, .inr hruns'⟩ (hserves.frame hsound hframe) (fun _ => hruns') hbackend'
      refine ⟨s', hat', hserves', hruns'', fun h => hholding (h.release hserves.sound hid), fun j => (hheld j).trans ?_⟩
      rw [held?_drop]
      by_cases hj : j = id
      · simp [hj]
      · simp [hj]

/-! ## Results -/

/-- The tensor of an output that is held. -/
def tensorOf (g : Graph) (e : Evaluation) (id : Nat) : Tensor :=
  { shape := g.shapeOf id, device := .cpu, data := e.held? id }

/-- How an evaluation ends: with a tensor for each output in a live buffer, or with the error of a node. The host
is there afterwards if it was `made` before. -/
inductive Evaluated (g : Graph) (outputs : List Nat) (host : Host) (base : Account) (made : Prop) :
    Except EvaluationError (List (NodeId × Tensor)) × Platform → Prop where
  | ok (e : Evaluation) (p : Platform) (s : HostState) (standard : Standard host p) (runs : p.Runs s)
    (serves : s.Serves host) (schedule : Schedule g outputs base g.size [] none e s) :
    Evaluated g outputs host base made (.ok (outputs.eraseDups.map fun id => (id, tensorOf g e id)), p)
  | error (err : EvaluationError) (p : Platform) (s : HostState) (at_ : p.At host s) (serves : s.Serves host)
    (runs : made → p.Runs s) (kept : err.IsClean → base.SameUse s.host.account) (failed : Failed g outputs host err) :
    Evaluated g outputs host base made (.error err, p)

theorem Schedule.held_output (h : Schedule g outputs base g.size [] none e s) (hwf : g.WellFormed) (hid : id ∈ outputs)
    (hlt : id < g.size) : ∃ buffer, e.held? id = some ⟨0, buffer⟩ ∧ Stored g s id buffer := by
  have hneeds : g.needs outputs id = true := hwf.needs_iff_consumer.mpr (.inl hid)
  obtain ⟨⟨backend, buffer⟩, hheld⟩ :=
    isSome_iff_exists.mp ((h.held_iff id hlt).mpr ⟨hlt, hneeds, .inl hid⟩)
  obtain rfl : backend = 0 := h.backend_eq id _ hheld
  exact ⟨buffer, hheld, h.stored id _ hheld (.inl nofun)⟩

theorem exec_materialize (hwf : g.WellFormed) (h : Schedule g outputs base g.size [] none e s) (hruns : p.Runs s)
    (hid : id ∈ outputs) (hlt : id < g.size) :
    ∃ p', exec (materialize g e id) p = (.ok (id, tensorOf g e id), p') ∧ p'.Runs s ∧ p'.registry = p.registry := by
  obtain ⟨buffer, hheld, v, hlive, hshape, -⟩ := h.held_output hwf hid hlt
  obtain ⟨n, hn⟩ := exists_node?_of_lt hlt
  have hshapeOf : exec (HostM.shapeOf (.host buffer)) s = (.ok (g.shapeOf id), s) := by
    rw [HostM.shapeOf, exec_bind_ok (exec_get s), hlive.live_eq, ← hshape]
    rfl
  obtain ⟨p', hexec, hruns', hregistry⟩ := PlatformM.exec_onHost hruns (HostM.shapeOf (.host buffer))
  rw [hshapeOf] at hexec hruns'
  refine ⟨p', ?_, hruns', hregistry⟩
  have hdevice : ((p'.backends[0]?).map (·.device)).getD .cpu = .cpu := by
    obtain ⟨b, hb, hcpu, -⟩ := hruns'.backend
    rwa [hb]
  have htensor : exec (Tensor.ofBuffer 0 (.host buffer)) p = (.ok (tensorOf g e id), p') := by
    rw [Tensor.ofBuffer, exec_bind_ok hexec, exec_bind_ok (exec_get p'), hdevice, tensorOf, hheld]
    rfl
  have hadapt := exec_adapt (EvaluationError.materialization g.name id n) (Tensor.ofBuffer 0 (.host buffer)) p
  rw [htensor] at hadapt
  rw [materialize, hheld, hn]
  exact exec_bind_ok hadapt

theorem exec_materializeAll (hwf : g.WellFormed) (h : Schedule g outputs base g.size [] none e s) (hruns : p.Runs s)
    {ids : List Nat} (hids : ∀ id ∈ ids, id ∈ outputs ∧ id < g.size) :
    ∃ p', exec (ids.mapM (materialize g e)) p = (.ok (ids.map fun id => (id, tensorOf g e id)), p') ∧ p'.Runs s ∧
      p'.registry = p.registry := by
  induction ids generalizing p with
  | nil => exact ⟨p, rfl, hruns, rfl⟩
  | cons id ids ih =>
    obtain ⟨hid, hlt⟩ := hids id (.head _)
    obtain ⟨p₁, hfirst, hruns₁, hregistry₁⟩ := exec_materialize hwf h hruns hid hlt
    obtain ⟨p₂, hrest, hruns₂, hregistry₂⟩ := ih hruns₁ fun id hid => hids id (.tail _ hid)
    refine ⟨p₂, ?_, hruns₂, hregistry₂.trans hregistry₁⟩
    rw [mapM_cons, exec_bind_ok hfirst, exec_bind_ok hrest]
    rfl

/-- Evaluation holds the outputs and nothing else, or gives everything back and fails. -/
theorem evaluated (hwf : g.WellFormed) (houtputs : ∀ id ∈ outputs, id < g.size) (hne : outputs ≠ [])
    (hat : p.At host s) (hserves : s.Serves host) :
    Evaluated g outputs host s.host.account (p.Runs s) (exec (g.evaluate outputs) p) := by
  have hstart : p.Runs s ∨ (∃ j held, (plan g outputs).held? j = some held) → p.Runs s := by
    rintro (hruns | ⟨j, held, hj⟩)
    · exact hruns
    · rw [held?_plan hwf] at hj
      cases hj
  have hended := Schedule.run hwf (schedule_plan hwf outputs s) (Nat.zero_le _) hat hserves hstart
  rw [drop_zero] at hended
  have hlift : exec (liftM (Evaluation.run g g.ids (plan g outputs)) : PlatformM EvaluationError _) p =
      (.ok ((Evaluation.run g g.ids (plan g outputs)).run p).1, ((Evaluation.run g g.ids (plan g outputs)).run p).2) :=
    exec_monadLift _ p
  rw [Graph.evaluate, exec_bind_ok hlift]
  rcases hrun : (Evaluation.run g g.ids (plan g outputs)).run p with ⟨⟨result, e⟩, p'⟩
  rw [hrun] at hended
  cases hended with
  | ok _ _ s' hat' hserves' hruns' h' =>
    -- an output is held, so the host is there
    obtain ⟨id, hid⟩ := exists_mem_of_ne_nil outputs hne
    obtain ⟨buffer, hheld, -⟩ := h'.held_output hwf hid (houtputs id hid)
    have hids : ∀ id ∈ outputs.eraseDups, id ∈ outputs ∧ id < g.size := by
      intro id hid
      rw [mem_eraseDups] at hid
      exact ⟨hid, houtputs id hid⟩
    obtain ⟨p'', hexec, hruns'', hregistry⟩ := exec_materializeAll hwf h' (hruns' (.inr ⟨id, _, hheld⟩)) hids
    rw [hexec]
    exact .ok e p'' s' (hat'.standard.congr hregistry) hruns'' hserves' h'
  | error err _ _ s' hat' hserves' hruns' hbackend hholding hfailed =>
    simp only
    by_cases habort : Failure.kind err ≠ .abort
    · rw [if_pos habort]
      obtain ⟨s'', hat'', hserves'', hruns'', hholding', hheld⟩ :=
        run_releaseAll e hat' hserves' hruns' hbackend g.ids
      have hnone : ∀ j : Nat, j < g.size → ((g.ids.foldlM release e).run p').1.held? j = none := by
        intro j hj
        have hmem : j ∈ g.ids := mem_range.mpr hj
        rw [hheld, if_pos hmem]
      exact .error err _ s'' hat'' hserves'' hruns''
        (fun hclean => (hholding' (hholding hclean)).sameUse hnone) hfailed
    · rw [if_neg habort]
      exact .error err p' s' hat' hserves' (fun hmade => hruns' (.inl hmade))
        (fun hclean => absurd hclean.kind_ne habort) hfailed

/-! ## A host that is finalized -/

theorem exec_step_finalized (hfinal : s.host.finalized = true) (hat : p.At host s) :
    ∃ err p', exec (Evaluation.step g k n e) p = (.error err, p') ∧ p'.At host s ∧ (p.Runs s → p'.Runs s) := by
  by_cases hdevice : n.device = .cpu
  · obtain ⟨p₁, hbackend, hstandard, hruns⟩ := exec_backendFor_cpu hat hdevice
    have hexec : exec (HostM.execute n.op (n.inputs.map e.ref) (e.owned n.inputs) n.shape) s =
        (.error .finalized, s) := by
      rw [HostM.execute, exec_bind_ok (exec_get s), if_pos hfinal]
      rfl
    obtain ⟨p₂, hon, hruns₂, hregistry⟩ := PlatformM.exec_onHost hruns
      (HostM.execute n.op (n.inputs.map e.ref) (e.owned n.inputs) n.shape)
    have hadapt := exec_adapt (EvaluationError.execution g.name k n)
      (PlatformM.onHost 0 (HostM.execute n.op (n.inputs.map e.ref) (e.owned n.inputs) n.shape)) p₁
    rw [hexec] at hon hruns₂
    rw [hon] at hadapt
    refine ⟨.execution g.name k n .finalized, p₂, ?_, ⟨hstandard.congr hregistry, .inr hruns₂⟩, fun _ => hruns₂⟩
    rw [Evaluation.step, exec_bind_ok hbackend]
    exact exec_bind_error hadapt
  · obtain ⟨err, p', hbackend, -, hat', hbackends⟩ := exec_backendFor_other hat hdevice
    refine ⟨err, p', ?_, hat', fun hruns => hruns.of_at hat' hbackends⟩
    rw [Evaluation.step, exec_bind_error hbackend]

theorem run_finalized (hfinal : s.host.finalized = true) (hat : p.At host s) {ids : List Nat}
    (hids : ∃ id ∈ ids, e.isNeeded id = true ∧ id < g.size) :
    ∃ err p', (Evaluation.run g ids e).run p = ((.error err, e), p') ∧ p'.At host s ∧ (p.Runs s → p'.Runs s) := by
  induction ids with
  | nil =>
    obtain ⟨id, hid, -⟩ := hids
    cases hid
  | cons id ids ih =>
    -- the first node that is needed asks the finalized host, and fails
    cases hneeded : e.isNeeded id with
    | false =>
      rw [run_cons_skip hneeded]
      apply ih
      obtain ⟨id', hid', hneeded', hlt⟩ := hids
      rcases mem_cons.mp hid' with rfl | hid'
      · exact nomatch hneeded.symm.trans hneeded'
      · exact ⟨id', hid', hneeded', hlt⟩
    | true =>
      cases hn : g.node? id with
      | some n =>
        obtain ⟨err, p', hexec, hafter⟩ := exec_step_finalized hfinal hat
        refine ⟨err, p', ?_, hafter⟩
        rw [run_cons hneeded hn, hexec]
      | none =>
        have hskip : (Evaluation.run g (id :: ids) e).run p = (Evaluation.run g ids e).run p := by
          rw [Evaluation.run, hneeded, if_pos rfl, hn]
        rw [hskip]
        apply ih
        obtain ⟨id', hid', hneeded', hlt⟩ := hids
        rcases mem_cons.mp hid' with rfl | hid'
        · obtain ⟨n, hn'⟩ := exists_node?_of_lt hlt
          exact nomatch hn.symm.trans hn'
        · exact ⟨id', hid', hneeded', hlt⟩

theorem run_releaseAll_of_none (hnone : ∀ j : Nat, e.held? j = none) (ids : List Nat) (p : Platform) :
    (ids.foldlM release e).run p = (e, p) := by
  induction ids with
  | nil => rfl
  | cons id ids ih =>
    have hrelease : (e.release id).run p = (e, p) := by
      rw [release, hnone id]
      rfl
    rwa [foldlM_cons, StateT.run_bind, hrelease]

/-- A finalized host fails every evaluation, and stays as it is. -/
theorem evaluate_finalized (hwf : g.WellFormed) (houtputs : ∀ id ∈ outputs, id < g.size) (hne : outputs ≠ [])
    (hfinal : s.host.finalized = true) (hat : p.At host s) :
    ∃ err p', exec (g.evaluate outputs) p = (.error err, p') ∧ p'.At host s ∧ (p.Runs s → p'.Runs s) := by
  obtain ⟨id, hid⟩ := exists_mem_of_ne_nil outputs hne
  have hlt := houtputs id hid
  have hneeded : (plan g outputs).isNeeded id = true := by
    rw [(schedule_plan hwf outputs s).isNeeded_eq id hlt]
    exact hwf.needs_iff_consumer.mpr (.inl hid)
  obtain ⟨err, p', hrun, hafter⟩ := run_finalized hfinal hat ⟨id, mem_ids.mpr hlt, hneeded, hlt⟩
  have hlift : exec (liftM (Evaluation.run g g.ids (plan g outputs)) : PlatformM EvaluationError _) p =
      (.ok (.error err, plan g outputs), p') := by
    rw [exec_monadLift, hrun]
  have hrelease : exec (liftM (releaseAll g (plan g outputs)) : PlatformM EvaluationError Unit) p' = (.ok (), p') := by
    show (Except.ok (), ((g.ids.foldlM release (plan g outputs)).run p').2) = _
    rw [run_releaseAll_of_none (held?_plan hwf outputs)]
  refine ⟨err, p', ?_, hafter⟩
  rw [Graph.evaluate, exec_bind_ok hlift]
  by_cases habort : Failure.kind err ≠ .abort
  · simp only [if_pos habort]
    rw [exec_bind_ok hrelease]
    rfl
  · simp only [if_neg habort]
    rfl

end Evaluation

end LazyTensor
