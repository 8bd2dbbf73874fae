import LazyTensor.Proofs.Evaluation.Holders
import LazyTensor.Proofs.Graph.Value
import LazyTensor.Proofs.Host.Execute
import LazyTensor.Proofs.Platform

/-!
# The schedule of an evaluation

Nodes are executed in the order of their numbers. At every time the nodes that hold a buffer are the
executed ones that are outputs or still pending operands, the buffers are different, and each has the value
of its node. Beside what it counted before, the host counts these buffers and no others. Only while the uses of a
node's operands are counted there may be one exception: the buffer of an operand that is not needed any more holds
the value of the node itself.
-/

namespace LazyTensor

open List Option

/-- The host executes, with its limit of memory, and its memory is sound. -/
structure HostState.Serves (host : Host) (s : HostState) : Prop where
  sound : s.Sound
  limit_eq : s.host.account.limit = host.account.limit
  finalized_eq : s.host.finalized = false

variable {host : Host}

theorem HostState.Serves.frame {s s' : HostState} {written : List Nat} (h : s.Serves host) (hsound : s'.Sound)
    (hframe : Frame s s' written) : s'.Serves host :=
  ⟨hsound, hframe.limit_eq.trans h.limit_eq, hframe.finalized_eq.trans h.finalized_eq⟩

namespace Evaluation

open Graph HostState

variable {g : Graph} {outputs inputs : List Nat} {e e' : Evaluation} {s s' : HostState} {k buffer j : Nat} {n : Node}

/-! ## Values in buffers -/

/-- A live buffer has the value of a node. -/
def Stored (g : Graph) (s : HostState) (j buffer : Nat) : Prop :=
  ∃ v : Value, s.Live buffer v.buffer ∧ v.shape = g.shapeOf j ∧ (g.Determined j → g.value? j = some v)

theorem Stored.frame (h : Stored g s j buffer) {written : List Nat} (hframe : Frame s s' written)
    (hbuffer : buffer ∉ written) : Stored g s' j buffer := by
  obtain ⟨v, hlive, hrest⟩ := h
  exact ⟨v, hframe.live _ _ hlive hbuffer, hrest⟩

theorem exists_operands {place : Nat → Nat} (hstored : ∀ i : Nat, i ∈ inputs → Stored g s i (place i)) :
    ∃ values, Holds s (inputs.map place) values ∧ values.map (·.shape) = inputs.map g.shapeOf ∧
      ((∀ i : Nat, i ∈ inputs → g.Determined i) → inputs.mapM g.value? = some values) := by
  induction inputs with
  | nil => exact ⟨[], .nil, rfl, fun _ => rfl⟩
  | cons input inputs ih =>
    obtain ⟨values, hholds, hshapes, hvalues⟩ := ih fun i hi => hstored i (.tail _ hi)
    obtain ⟨v, hlive, hshape, hvalue⟩ := hstored input (.head _)
    refine ⟨v :: values, .cons hlive hholds, ?_, fun hdetermined => ?_⟩
    · rw [map_cons, map_cons, hshape, hshapes]
    · rw [mapM_cons, hvalue (hdetermined input (.head _)),
        hvalues fun i hi => hdetermined i (.tail _ hi)]
      rfl

/-- Why the execution of a node fails: the limit of memory is reached, or its operands have values that were in
buffers, but it has none. -/
def FailedAt (g : Graph) (host : Host) (id : Nat) (n : Node) (cause : Stop) : Prop :=
  (host.account.limit ≠ 0 ∧ ∃ shape reason, cause = .limit shape reason) ∨
  (g.Determined id → ∃ values, n.inputs.mapM g.value? = some values ∧ (∀ v ∈ values, v.buffer.Sound) ∧
    HostM.Causes n.op values n.shape cause)

theorem FailedAt.exists_values {cause : Stop} (h : FailedAt g host k n cause) (hlimit : host.account.limit = 0)
    (hdet : g.Determined k) :
    ∃ values, n.inputs.mapM g.value? = some values ∧ (∀ v ∈ values, v.buffer.Sound) ∧
      HostM.Causes n.op values n.shape cause := by
  rcases h with hreached | hcause
  · exact absurd hlimit hreached.1
  · exact hcause hdet

/-- The execution of a node on operands that are stored: its value is in a new buffer or in one that was given
away. -/
theorem exec_node {place : Nat → Nat} {owned : List Bool} (hwf : g.WellFormed) (hn : g.node? k = some n)
    (hserves : s.Serves host) (hstored : ∀ i : Nat, i ∈ n.inputs → Stored g s i (place i))
    (hown : HostM.FirstOnly (n.inputs.map place) owned) (hlength : owned.length = n.inputs.length) :
    (∃ buffer s' flat, exec (HostM.execute n.op ((n.inputs.map place).map .host) owned n.shape) s = (.ok buffer, s') ∧
      Made s (HostM.given (n.inputs.map place) owned) n.shape buffer s' flat ∧
      (g.Determined k → g.value? k = some ⟨n.shape, flat⟩)) ∨
    (∃ cause s', exec (HostM.execute n.op ((n.inputs.map place).map .host) owned n.shape) s =
      (.error (.stopped n.op n.shape cause), s') ∧ s'.Serves host ∧ (cause.IsClean → Kept s s') ∧
      FailedAt g host k n cause) := by
  have hk := lt_size_of_node? hn
  have hfits := hwf.fits k n hn
  obtain ⟨values, hholds, hshapes, hvalues⟩ := exists_operands hstored
  have hvalids : ∀ v ∈ values, v.shape.Valid := by
    intro v hv
    have hmem : v.shape ∈ n.inputs.map g.shapeOf := hshapes ▸ List.mem_map_of_mem hv
    obtain ⟨i, hi, hshape⟩ := List.mem_map.mp hmem
    obtain ⟨m, hm⟩ := exists_node?_of_lt (Nat.lt_trans (hfits.inputs_lt i hi) hk)
    rw [← hshape, shapeOf_eq_of_node? hm]
    exact (hwf.fits i m hm).valid
  have hdetermined : g.Determined k → n.inputs.mapM g.value? = some values := by
    intro hdet
    refine hvalues fun i hi => hdet.input ?_
    rwa [inputs_eq_of_node? hn]
  have haccepts : n.op.Accepts (values.map (·.shape)) n.shape := by
    rw [hshapes]
    exact hfits.accepts
  obtain ⟨r, hran, hexec⟩ := HostM.ran_execute hserves.sound hserves.finalized_eq hholds haccepts hfits.valid hvalids
    hown (by rwa [length_map])
  rw [hexec]
  cases hran with
  | error cause s' hsound hframe hkept hcause =>
    refine .inr ⟨cause, s', rfl, hserves.frame hsound hframe, hkept, hcause.imp (fun hreached => ?_) fun hcause hdet => ?_⟩
    · rwa [← hserves.limit_eq]
    · exact ⟨values, hdetermined hdet, hholds.sound hserves.sound, hcause⟩
  | ok buffer s' flat hmade hright =>
    refine .inl ⟨buffer, s', flat, rfl, hmade, fun hdet => ?_⟩
    -- if the output were skipped, it would have what was in the buffer before
    have hskips : n.op.skipsOutput (values.map (·.shape)) n.shape = false := by
      have hskip := hdet k (.inl rfl)
      rwa [skips, hn, any_some, ← hshapes] at hskip
    exact (hwf.value?_eq_some_iff hn).mpr ⟨rfl, values, hdetermined hdet, hright hskips⟩

/-! ## The invariant -/

/-- The state of an evaluation after the execution of the nodes below `k`, when the operands in `rest` of the
last one are not counted yet and its value is in `out`. The host counted `base` at the start. -/
structure Schedule (g : Graph) (outputs : List Nat) (base : Account) (k : Nat) (rest : List Nat) (out : Option Nat)
    (e : Evaluation) (s : HostState) : Prop where
  size_held : e.held.size = g.size
  size_uses : e.uses.size = g.size
  isNeeded_eq : ∀ j : Nat, j < g.size → e.isNeeded j = g.needs outputs j
  isOutput_eq : ∀ j : Nat, j < g.size → e.isOutput.getD j false = outputs.contains j
  uses_eq : ∀ j : Nat, j < g.size → e.uses.getD j 0 = g.pending outputs k j + rest.count j
  held_iff : ∀ j : Nat, j < g.size → ((e.held? j).isSome = true ↔
    j < k ∧ g.needs outputs j = true ∧ (j ∈ outputs ∨ 0 < g.pending outputs k j + rest.count j))
  backend_eq : ∀ (j : Nat) (held : Held), e.held? j = some held → held.backend = 0
  stored : ∀ (j : Nat) (held : Held), e.held? j = some held → some held.buffer ≠ out ∨ j + 1 = k →
    Stored g s j held.buffer
  reused : ∀ (j : Nat) (held : Held), e.held? j = some held → some held.buffer = out →
    j + 1 = k ∨ (j ∉ outputs ∧ g.pending outputs k j = 0)
  distinct : ∀ (i j : Nat) (held held' : Held), e.held? i = some held → e.held? j = some held' →
    held.buffer = held'.buffer → i = j ∨ some held.buffer = out
  live_eq : e.live = e.holders.length
  balance : g.Counted base (e.Owns k out) s.host.account

variable {base : Account}

/-! ## Start and end -/

theorem held?_plan (h : g.WellFormed) (outputs : List Nat) (j : Nat) : (plan g outputs).held? j = none := by
  rw [held?, (passed_plan h outputs).held_eq, Array.getD_eq_getD_getElem?, Array.getElem?_replicate]
  split <;> rfl

theorem holders_plan (h : g.WellFormed) (outputs : List Nat) : (plan g outputs).holders = [] := by
  rw [eq_nil_iff_forall_not_mem]
  intro j hj
  rw [mem_holders, held?_plan h] at hj
  cases hj

theorem schedule_plan (h : g.WellFormed) (outputs : List Nat) (s : HostState) :
    Schedule g outputs s.host.account 0 [] none (plan g outputs) s := by
  have hplan := passed_plan h outputs
  have hheld := held?_plan h outputs
  have hlive : (plan g outputs).live = (plan g outputs).holders.length := by
    rw [hplan.live_eq, holders_plan h]
    rfl
  have hcounted : g.Counted s.host.account ((plan g outputs).Owns 0 none) s.host.account := by
    refine ⟨[], ⟨nodup_nil, fun j => ?_⟩, s.host.account.adds_nil⟩
    rw [owns_none, hheld]
    simp
  refine ⟨by rw [hplan.held_eq, Array.size_replicate], hplan.size_uses, fun j hj => ?_, hplan.isOutput_eq,
    hplan.uses_eq, fun j hj => ?_, fun j held hj => ?_, fun j held hj => ?_, fun j held hj => ?_,
    fun i j held held' hi => ?_, hlive, hcounted⟩
  · rw [Bool.eq_iff_iff, isNeeded, hplan.needed_iff j hj, h.needs_iff_consumer, pending_pos_iff]
    simp
  · rw [hheld j]
    simp
  all_goals
    rw [hheld] at *
    contradiction

/-- Once all inputs have been used, the output is a node like the others. -/
theorem Schedule.done {out : Option Nat} (h : Schedule g outputs base k [] out e s) :
    Schedule g outputs base k [] none e s := by
  -- an operand whose buffer was overwritten is not held any more
  have hlast : ∀ (j : Nat) (held : Held), e.held? j = some held → some held.buffer = out → j + 1 = k := by
    intro j held hj hout
    rcases h.reused j held hj hout with hk | ⟨hnot, hzero⟩
    · exact hk
    · have hlt : j < g.size := by
        rw [← h.size_held]
        exact lt_size_of_held? hj
      obtain ⟨-, -, hneeded⟩ := (h.held_iff j hlt).mp (by rw [hj]; rfl)
      rw [hzero] at hneeded
      exact absurd hneeded (by simp [hnot])
  refine { h with
    stored := fun j held hj _ => ?_
    reused := fun _ _ _ => nofun
    distinct := ?_
    balance := h.balance.congr fun j => ?_ }
  · by_cases hout : some held.buffer = out
    · exact h.stored j held hj (.inr (hlast j held hj hout))
    · exact h.stored j held hj (.inl hout)
  · intro i j held held' hi hj heq
    rcases h.distinct i j held held' hi hj heq with hij | hout
    · exact .inl hij
    · have hi' := hlast i held hi hout
      have hj' := hlast j held' hj (by rwa [← heq])
      exact .inl (by omega)
  · refine exists_congr fun held => and_congr_right fun hj => ⟨fun _ => .inl nofun, fun _ => ?_⟩
    by_cases hout : some held.buffer = out
    · exact .inr (hlast j held hj hout)
    · exact .inl hout

theorem Schedule.skip (h : Schedule g outputs base k [] none e s) (hk : k < g.size) (hneeds : g.needs outputs k = false) :
    Schedule g outputs base (k + 1) [] none e s := by
  have hpending : ∀ j : Nat, g.pending outputs k j = g.pending outputs (k + 1) j :=
    fun j => pending_of_not_needs hk hneeds
  refine { h with
    uses_eq := fun j hj => ?_
    held_iff := fun j hj => ?_
    stored := fun j held hj _ => ?_
    reused := fun _ _ _ => nofun
    balance := h.balance.congr fun j => by rw [owns_none, owns_none] }
  · rw [← hpending]
    exact h.uses_eq j hj
  · rw [h.held_iff j hj, hpending]
    refine and_congr_left fun hneeded => ?_
    have hne : j ≠ k := by
      rintro rfl
      rw [hneeds] at hneeded
      exact nomatch hneeded.1
    omega
  · exact h.stored j held hj (.inl nofun)

/-! ## Uses of operands -/

variable {input : Nat} {rest : List Nat} {out : Option Nat} {p : Platform}

/-- One use of an operand less. -/
def counted (e : Evaluation) (input : Nat) : Evaluation := { e with uses := e.uses.modify input (· - 1) }

theorem Schedule.uses_counted (h : Schedule g outputs base k (input :: rest) out e s) (hj : j < g.size) :
    (e.counted input).uses.getD j 0 = g.pending outputs k j + rest.count j := by
  have huses := h.uses_eq j hj
  rw [count_cons] at huses
  rw [counted, getD_modify _ _ _ _ _ (by rwa [h.size_uses])]
  by_cases hij : input = j
  · simp only [hij, beq_self_eq_true, if_true] at huses ⊢
    omega
  · have hij' : (input == j) = false := by simpa using hij
    rw [hij'] at huses
    rw [if_neg hij, huses]
    simp

theorem Schedule.count (h : Schedule g outputs base k (input :: rest) out e s)
    (hleft : input ∈ outputs ∨ 0 < g.pending outputs k input + rest.count input) :
    Schedule g outputs base k rest out (e.counted input) s := by
  refine { h with
    size_uses := by rw [counted, Array.size_modify]; exact h.size_uses
    uses_eq := fun j hj => h.uses_counted hj
    held_iff := fun j hj => ?_ }
  show (e.held? j).isSome = true ↔ _
  rw [h.held_iff j hj, count_cons]
  refine and_congr_right fun _ => and_congr_right fun _ => ?_
  by_cases hij : input = j
  · subst hij
    rcases hleft with hout | hpos
    · simp [hout]
    · constructor <;> intro <;> right <;> omega
  · have hij' : (input == j) = false := by simpa using hij
    rw [hij']
    simp

/-- The last use of an input lets go of its buffer. -/
theorem Schedule.forget (h : Schedule g outputs base k (input :: rest) out e s)
    (hlast : ¬ (input ∈ outputs ∨ 0 < g.pending outputs k input + rest.count input))
    {freed : Held} (hfreed : e.held? input = some freed)
    (hstored : ∀ (j : Nat) (held : Held), j ≠ input → e.held? j = some held →
      some held.buffer ≠ out ∨ j + 1 = k → Stored g s' j held.buffer)
    (hcounted : g.Counted base (fun j => j ≠ input ∧ e.Owns k out j) s'.host.account) :
    Schedule g outputs base k rest out ((e.counted input).drop input) s' := by
  have hheld : ∀ j : Nat, ((e.counted input).drop input).held? j = if j = input then none else e.held? j :=
    fun j => held?_drop (e.counted input) input j
  have hold : ∀ (j : Nat) (held : Held), ((e.counted input).drop input).held? j = some held →
      j ≠ input ∧ e.held? j = some held := fun j held hj => held?_of_drop hj
  have howns : ∀ j : Nat, (j ≠ input ∧ e.Owns k out j) ↔ ((e.counted input).drop input).Owns k out j := by
    intro j
    simp only [Owns, hheld]
    by_cases hj : j = input
    · simp [hj]
    · simp [hj]
  have hlive : ((e.counted input).drop input).live = ((e.counted input).drop input).holders.length := by
    have hlength := length_holders_drop (e := e.counted input) hfreed
    have hsame : (e.counted input).holders = e.holders := rfl
    show e.live - 1 = _
    rw [hsame] at hlength
    rw [h.live_eq]
    omega
  -- all that is known of the nodes that are still held is kept
  refine ⟨?_, ?_, h.isNeeded_eq, h.isOutput_eq, fun j hj => h.uses_counted hj, fun j hj => ?_,
    fun j held hj => h.backend_eq j held (hold j held hj).2,
    fun j held hj => hstored j held (hold j held hj).1 (hold j held hj).2,
    fun j held hj => h.reused j held (hold j held hj).2,
    fun i j held held' hi hj => h.distinct i j held held' (hold i held hi).2 (hold j held' hj).2,
    hlive, hcounted.congr howns⟩
  · show (e.held.setIfInBounds input none).size = _
    rw [Array.size_setIfInBounds, h.size_held]
  · show (e.uses.modify input _).size = _
    rw [Array.size_modify, h.size_uses]
  · rw [hheld]
    by_cases hij : j = input
    · subst hij
      rw [if_pos rfl]
      refine ⟨nofun, fun hj => absurd hj.2.2 hlast⟩
    · have hij' : (input == j) = false := by simpa using fun heq => hij heq.symm
      rw [if_neg hij, h.held_iff j hj, count_cons, hij']
      simp

theorem run_release {id : Nat} (hheld : e.held? id = some ⟨0, buffer⟩) (hruns : p.Runs s) :
    ∃ p', (e.release id).run p = (e.drop id, p') ∧
      p'.Runs (exec (HostM.finalizeBuffer (.host buffer)) s).2 ∧ p'.registry = p.registry := by
  obtain ⟨p', hexec, hruns', hregistry⟩ :=
    PlatformM.exec_onHost hruns (HostM.finalizeBuffer (.host buffer))
  refine ⟨p', ?_, hruns', hregistry⟩
  unfold release
  rw [hheld]
  show (e.drop id, (exec (PlatformM.onHost 0 (HostM.finalizeBuffer (.host buffer))) p).2) = _
  rw [hexec]

/-- One use of an operand is counted; at the last one its buffer is given back, unless it was given away. -/
theorem Schedule.use (h : Schedule g outputs base k (input :: rest) (some buffer) e s) (hinput : input < g.size)
    (hlt : input + 1 < k) (hneeds : g.needs outputs input = true) (hruns : p.Runs s) (hserves : s.Serves host) :
    ∃ e' p' s', (Evaluation.use buffer e input).run p = (e', p') ∧ p'.Runs s' ∧ p'.registry = p.registry ∧
      s'.Serves host ∧ s.host.account.Freed s'.host.account ∧ Schedule g outputs base k rest (some buffer) e' s' := by
  -- the operand was held up to now
  obtain ⟨held, hheld⟩ : ∃ held, e.held? input = some held := by
    refine isSome_iff_exists.mp ((h.held_iff input hinput).mpr ⟨by omega, hneeds, .inr ?_⟩)
    rw [count_cons_self]
    omega
  obtain ⟨backend, freed⟩ := held
  obtain rfl : backend = 0 := h.backend_eq input _ hheld
  have hrun : (Evaluation.use buffer e input).run p =
      (if 0 < (e.counted input).uses.getD input 0 || (e.counted input).isOutput.getD input false then
        pure (e.counted input)
      else if freed = buffer then pure ((e.counted input).drop input)
      else (e.counted input).release input : StateM Platform Evaluation).run p := by
    have hcounted : (e.counted input).held? input = some ⟨0, freed⟩ := hheld
    unfold Evaluation.counted at hcounted
    unfold Evaluation.use
    simp only [hcounted]
    rfl
  have huses := h.uses_counted hinput
  have houtput : (e.counted input).isOutput.getD input false = outputs.contains input := h.isOutput_eq input hinput
  have hcondition : (0 < g.pending outputs k input + rest.count input || outputs.contains input) = true ↔
      (input ∈ outputs ∨ 0 < g.pending outputs k input + rest.count input) := by
    rw [Bool.or_eq_true, decide_eq_true_eq, contains_iff_mem, or_comm]
  rw [hrun, huses, houtput]
  by_cases hleft : input ∈ outputs ∨ 0 < g.pending outputs k input + rest.count input
  · rw [if_pos (hcondition.mpr hleft)]
    exact ⟨e.counted input, p, s, rfl, hruns, rfl, hserves, .refl, h.count hleft⟩
  · rw [if_neg fun hpos => hleft (hcondition.mp hpos)]
    by_cases hsame : freed = buffer
    · rw [if_pos hsame]
      -- the operand did not own its buffer any more
      have howns : ∀ j : Nat, e.Owns k (some buffer) j ↔ j ≠ input ∧ e.Owns k (some buffer) j := by
        refine fun j => ⟨fun hj => ⟨?_, hj⟩, fun hj => hj.2⟩
        rintro rfl
        obtain ⟨held, hj, hown⟩ := hj
        obtain rfl := Option.some.inj (hheld.symm.trans hj)
        rcases hown with hother | hk
        · exact hother (congrArg some hsame)
        · omega
      exact ⟨_, p, s, rfl, hruns, rfl, hserves, .refl,
        h.forget hleft hheld (fun j held _ hj => h.stored j held hj) (h.balance.congr howns)⟩
    · rw [if_neg hsame]
      have hother : some freed ≠ some buffer := fun heq => hsame (Option.some.inj heq)
      obtain ⟨v, hlive, hshape, -⟩ := h.stored input _ hheld (.inl hother)
      have haccount := HostM.account_finalizeBuffer hserves.sound hlive
      have hfootprint : v.buffer.shape = g.shapeOf input := hshape
      rw [hfootprint] at haccount
      obtain ⟨hsound, hframe⟩ := HostM.finalizeBuffer_frame hserves.sound freed
      obtain ⟨p', hrelease, hruns', hregistry⟩ := run_release (e := e.counted input) hheld hruns
      refine ⟨_, p', _, hrelease, hruns', hregistry, hserves.frame hsound hframe, ?_, h.forget hleft hheld ?_ ?_⟩
      · rw [haccount]
        exact .free _ .refl
      · intro j held hne hj hstored
        refine (h.stored j held hj hstored).frame hframe ?_
        -- no other node has the buffer
        rw [mem_singleton]
        intro heq
        rcases h.distinct j input held _ hj hheld heq with hij | hout
        · exact hne hij
        · exact hsame (by rw [← heq]; exact Option.some.inj hout)
      · rw [haccount]
        exact h.balance.free ⟨_, hheld, .inl hother⟩

theorem Schedule.useAll (h : Schedule g outputs base k inputs (some buffer) e s)
    (hinputs : ∀ i : Nat, i ∈ inputs → i + 1 < k ∧ i < g.size)
    (hneeds : ∀ i : Nat, i ∈ inputs → g.needs outputs i = true) (hruns : p.Runs s) (hserves : s.Serves host) :
    ∃ e' p' s', (inputs.foldlM (Evaluation.use buffer) e).run p = (e', p') ∧ p'.Runs s' ∧
      p'.registry = p.registry ∧ s'.Serves host ∧ s.host.account.Freed s'.host.account ∧
      Schedule g outputs base k [] none e' s' := by
  induction inputs generalizing e p s with
  | nil => exact ⟨e, p, s, rfl, hruns, rfl, hserves, .refl, h.done⟩
  | cons input inputs ih =>
    have hfirst := hinputs input (.head _)
    obtain ⟨e₁, p₁, s₁, huse, hruns₁, hregistry₁, hserves₁, hfreed₁, h₁⟩ :=
      h.use hfirst.2 hfirst.1 (hneeds input (.head _)) hruns hserves
    obtain ⟨e₂, p₂, s₂, hrest, hruns₂, hregistry₂, hserves₂, hfreed₂, h₂⟩ :=
      ih h₁ (fun i hi => hinputs i (.tail _ hi)) (fun i hi => hneeds i (.tail _ hi))
        hruns₁ hserves₁
    refine ⟨e₂, p₂, s₂, ?_, hruns₂, hregistry₂.trans hregistry₁, hserves₂, hfreed₁.trans hfreed₂, h₂⟩
    rwa [foldlM_cons, StateT.run_bind, huse]

/-! ## Execution of a node -/

/-- The buffer of a node that is held. -/
def bufferOf (e : Evaluation) (j : Nat) : Nat := (e.held? j).elim 0 (·.buffer)

theorem bufferOf_eq {held : Held} (h : e.held? j = some held) : e.bufferOf j = held.buffer := by
  rw [bufferOf, h]
  rfl

theorem map_ref (h : ∀ i : Nat, i ∈ inputs → ∃ held, e.held? i = some held) :
    inputs.map e.ref = (inputs.map e.bufferOf).map .host := by
  rw [List.map_map]
  refine map_congr_left fun i hi => ?_
  obtain ⟨held, hheld⟩ := h i hi
  rw [ref, hheld, Function.comp_apply, bufferOf_eq hheld]
  rfl

/-- An operand that is given away is no output, is only pending here, and stands here for the first time. -/
theorem owned_getD {i : Nat} (h : (e.owned inputs).getD i false = true) :
    ∃ input : Nat, inputs[i]? = some input ∧ e.isOutput.getD input false = false ∧
      e.uses.getD input 0 = inputs.count input ∧ inputs.idxOf input = i := by
  rw [owned, getD_eq_getElem?_getD, getElem?_mapIdx] at h
  cases hi : inputs[i]? with
  | none =>
    rw [hi] at h
    cases h
  | some input =>
    rw [hi] at h
    simp only [map_some, getD_some, Bool.and_eq_true, Bool.not_eq_true', beq_iff_eq] at h
    exact ⟨input, rfl, h.1.1, h.1.2, h.2⟩

variable (h : Schedule g outputs base k [] none e s)

include h

theorem Schedule.firstOnly (hheld : ∀ i : Nat, i ∈ inputs → ∃ held, e.held? i = some held) :
    HostM.FirstOnly (inputs.map e.bufferOf) (e.owned inputs) := by
  intro i id hown hid j hj hsame
  obtain ⟨input, hi, -, -, hidx⟩ := owned_getD hown
  rw [getElem?_map, hi] at hid
  obtain ⟨other, hother, hbuffer⟩ : ∃ other, inputs[j]? = some other ∧ e.bufferOf other = id := by
    rw [getElem?_map] at hsame
    exact map_eq_some_iff.mp hsame
  obtain ⟨held, hheldi⟩ := hheld input (mem_of_getElem? hi)
  obtain ⟨held', hheldj⟩ := hheld other (mem_of_getElem? hother)
  have hbuffers : held.buffer = held'.buffer := by
    rw [← bufferOf_eq hheldi, ← bufferOf_eq hheldj, hbuffer]
    exact Option.some.inj hid
  rcases h.distinct input other held held' hheldi hheldj hbuffers with rfl | hout
  · have hbefore : j < inputs.findIdx (· == input) := by
      rwa [← idxOf, hidx]
    have hnot := not_of_lt_findIdx hbefore
    rw [(List.getElem?_eq_some_iff.mp hother).2, beq_self_eq_true] at hnot
    cases hnot
  · cases hout

theorem Schedule.held_inputs (hwf : g.WellFormed) (hk : k < g.size)
    (hneeds : g.needs outputs k = true) {i : Nat} (hi : i ∈ g.inputs k) : ∃ held, e.held? i = some held := by
  have hlt := hwf.inputs_lt hi
  refine isSome_iff_exists.mp ((h.held_iff i (by omega)).mpr ⟨hlt, hwf.needs_of_input hneeds hi, .inr ?_⟩)
  have hpos := count_pos_iff.mpr hi
  rw [pending_of_needs hk hneeds]
  omega

theorem Schedule.held?_eq_none (hk : k < g.size) : e.held? k = none := by
  rw [← not_isSome_iff_eq_none, h.held_iff k hk]
  exact fun hheld => Nat.lt_irrefl k hheld.1

theorem Schedule.exists_given (hwf : g.WellFormed) (hn : g.node? k = some n)
    (hneeds : g.needs outputs k = true) (hmem : buffer ∈ HostM.given (n.inputs.map e.bufferOf) (e.owned n.inputs)) :
    ∃ (input : Nat) (held : Held), input ∈ g.inputs k ∧ e.held? input = some held ∧ held.buffer = buffer ∧
      e.isOutput.getD input false = false ∧ e.uses.getD input 0 = n.inputs.count input := by
  obtain ⟨i, hi, hown⟩ := HostM.exists_of_mem_given hmem
  obtain ⟨input, hinput, hnot, huses, -⟩ := owned_getD hown
  have hmem : input ∈ g.inputs k := by
    rw [inputs_eq_of_node? hn]
    exact mem_of_getElem? hinput
  obtain ⟨held, hheld⟩ := h.held_inputs hwf (lt_size_of_node? hn) hneeds hmem
  rw [getElem?_map, hinput, map_some, bufferOf_eq hheld] at hi
  exact ⟨input, held, hmem, hheld, Option.some.inj hi, hnot, huses⟩

/-- The host counts the buffer of a node that was executed, in the place of an operand's if it is that one. -/
theorem Schedule.balance_executed {flat : Flat} (hwf : g.WellFormed)
    (hn : g.node? k = some n) (hneeds : g.needs outputs k = true)
    (hmade : Made s (HostM.given (n.inputs.map e.bufferOf) (e.owned n.inputs)) n.shape buffer s' flat) :
    g.Counted base ((e.hold k ⟨0, buffer⟩).Owns (k + 1) (some buffer)) s'.host.account := by
  have hk := lt_size_of_node? hn
  have hnone := h.held?_eq_none hk
  have hshape := shapeOf_eq_of_node? hn
  have howns : ∀ j : Nat, (e.hold k ⟨0, buffer⟩).Owns (k + 1) (some buffer) j ↔
      j = k ∨ ∃ held, e.held? j = some held ∧ held.buffer ≠ buffer := by
    intro j
    simp only [Owns, held?_hold (show k < e.held.size by rwa [h.size_held])]
    by_cases hj : j = k
    · simp [hj]
    · simp [hj]
  have hk' : ¬ e.Owns k none k := by
    rw [owns_none, hnone]
    exact Bool.false_ne_true
  cases hmade.place with
  | new hfresh hcounted =>
    -- no other node holds the new buffer, as theirs were live before
    rw [← hshape] at hcounted
    refine (h.balance.allocate hk' hcounted).congr fun j => ?_
    rw [howns]
    refine or_congr_right (exists_congr fun held => and_congr_right fun hj => ⟨fun _ => ?_, fun _ => .inl nofun⟩)
    rintro rfl
    obtain ⟨v, hlive, -⟩ := h.stored j held hj (.inl nofun)
    exact hfresh _ hlive
  | given hmem hlive haccount =>
    -- the buffer passes from the input to the node, and the input was the only holder
    obtain ⟨input, held, -, hheld, rfl, -⟩ := h.exists_given hwf hn hneeds hmem
    obtain ⟨v, hlive', hshape', -⟩ := h.stored input held hheld (.inl nofun)
    obtain ⟨old, hold⟩ := hlive
    have hsame : v.shape = n.shape := congrArg HostBuffer.shape (Option.some.inj (hlive'.1.symm.trans hold.1))
    rw [haccount]
    refine (h.balance.move ⟨held, hheld, .inl nofun⟩ hk' (by rw [← hshape', hsame, hshape])).congr fun j => ?_
    rw [howns]
    refine or_congr_right ⟨?_, ?_⟩
    · rintro ⟨hne, held', hj, -⟩
      refine ⟨held', hj, fun heq => ?_⟩
      rcases h.distinct j input held' held hj hheld heq with hij | hout
      · exact hne hij
      · cases hout
    · rintro ⟨held', hj, hne⟩
      refine ⟨?_, held', hj, .inl nofun⟩
      rintro rfl
      obtain rfl := Option.some.inj (hheld.symm.trans hj)
      exact hne rfl

/-- The state after a node was executed into a buffer: a new one, or that of an operand at its last use. -/
theorem Schedule.executed {flat : Flat} (hwf : g.WellFormed)
    (hn : g.node? k = some n) (hneeds : g.needs outputs k = true)
    (hmade : Made s (HostM.given (n.inputs.map e.bufferOf) (e.owned n.inputs)) n.shape buffer s' flat)
    (hvalue : g.Determined k → g.value? k = some ⟨n.shape, flat⟩) :
    Schedule g outputs base (k + 1) n.inputs (some buffer) (e.hold k ⟨0, buffer⟩) s' := by
  have hk := lt_size_of_node? hn
  have hinputs := inputs_eq_of_node? hn
  have hpending : ∀ j : Nat, g.pending outputs k j = n.inputs.count j + g.pending outputs (k + 1) j := by
    intro j
    rw [pending_of_needs hk hneeds, hinputs]
  have hsize : k < e.held.size := by rwa [h.size_held]
  have hheld : ∀ j : Nat, (e.hold k ⟨0, buffer⟩).held? j = if j = k then some ⟨0, buffer⟩ else e.held? j :=
    held?_hold hsize ⟨0, buffer⟩
  -- a node before that has the buffer is an operand that was given away
  have hgiven : ∀ (j : Nat) (held : Held), e.held? j = some held → held.buffer = buffer →
      j ∉ outputs ∧ g.pending outputs (k + 1) j = 0 := by
    intro j held hj hbuffer
    obtain ⟨v, hlive, -⟩ := h.stored j held hj (.inl nofun)
    cases hmade.place with
    | new hfresh _ =>
      rw [hbuffer] at hlive
      exact absurd hlive (hfresh _)
    | given hmem _ _ =>
      obtain ⟨input, held', hmem, hheld', hbuffer', hnot, huses⟩ := h.exists_given hwf hn hneeds hmem
      have hlt : input < g.size := Nat.lt_trans (hwf.inputs_lt hmem) hk
      rcases h.distinct j input held held' hj hheld' (hbuffer.trans hbuffer'.symm) with rfl | hout
      · rw [h.isOutput_eq j hlt] at hnot
        have huses' := h.uses_eq j hlt
        rw [hpending] at huses'
        exact ⟨by simpa using hnot, by omega⟩
      · cases hout
  have hframe : Frame s s' [buffer] := hmade.frame
  have hstored : Stored g s' k buffer :=
    ⟨⟨n.shape, flat⟩, hmade.live, (shapeOf_eq_of_node? hn).symm, hvalue⟩
  have hnone := h.held?_eq_none hk
  have hlive : (e.hold k ⟨0, buffer⟩).live = (e.hold k ⟨0, buffer⟩).holders.length := by
    show e.live + 1 = _
    rw [length_holders_hold hsize hnone, h.live_eq]
    rfl
  refine ⟨?_, h.size_uses, h.isNeeded_eq, h.isOutput_eq, fun j hj => ?_, fun j hj => ?_, fun j held hj => ?_,
    fun j held hj hplace => ?_, fun j held hj hbuffer => ?_, fun i j held held' hi hj heq => ?_, hlive,
    h.balance_executed hwf hn hneeds hmade⟩
  · show (e.held.setIfInBounds k _).size = _
    rw [Array.size_setIfInBounds, h.size_held]
  · show e.uses.getD j 0 = _
    rw [h.uses_eq j hj, hpending, count_nil]
    omega
  · rw [hheld]
    by_cases hjk : j = k
    · subst hjk
      have hpending' := hwf.needs_iff_pending.mp hneeds
      rw [if_pos rfl]
      refine ⟨fun _ => ⟨Nat.lt_succ_self _, hneeds, hpending'.imp_right fun hpos => by omega⟩, fun _ => rfl⟩
    · rw [if_neg hjk, h.held_iff j hj, hpending, count_nil, Nat.add_zero, Nat.add_comm]
      refine and_congr_left fun _ => ?_
      omega
  · rw [hheld] at hj
    split at hj
    · rw [← Option.some.inj hj]
    · exact h.backend_eq j held hj
  · rw [hheld] at hj
    split at hj
    · rename_i hjk
      rwa [← Option.some.inj hj, hjk]
    · have hne : held.buffer ≠ buffer := by
        rcases hplace with hne | hlast
        · exact fun heq => hne (congrArg some heq)
        · omega
      refine (h.stored j held hj (.inl nofun)).frame hframe ?_
      rwa [mem_singleton]
  · rw [hheld] at hj
    split at hj
    · exact .inl (by omega)
    · exact .inr (hgiven j held hj (Option.some.inj hbuffer))
  · rw [hheld] at hi hj
    split at hi
    · rw [← Option.some.inj hi]
      exact .inr rfl
    · split at hj
      · rw [heq, ← Option.some.inj hj]
        exact .inr rfl
      · rcases h.distinct i j held held' hi hj heq with hij | hout
        · exact .inl hij
        · cases hout

/-- The host computes a node from the buffers of its inputs, of which it may take one over. -/
theorem Schedule.execute (hwf : g.WellFormed) (hn : g.node? k = some n)
    (hneeds : g.needs outputs k = true) (hserves : s.Serves host) :
    (∃ buffer s', exec (HostM.execute n.op (n.inputs.map e.ref) (e.owned n.inputs) n.shape) s = (.ok buffer, s') ∧
      s'.Serves host ∧ s.host.account.Takes n.shape s'.host.account ∧
      Schedule g outputs base (k + 1) n.inputs (some buffer) (e.hold k ⟨0, buffer⟩) s') ∨
    (∃ cause s', exec (HostM.execute n.op (n.inputs.map e.ref) (e.owned n.inputs) n.shape) s =
      (.error (.stopped n.op n.shape cause), s') ∧ s'.Serves host ∧ (cause.IsClean → Kept s s') ∧
      FailedAt g host k n cause) := by
  have hk := lt_size_of_node? hn
  have hheld : ∀ i : Nat, i ∈ n.inputs → ∃ held, e.held? i = some held := by
    intro i hi
    rw [← inputs_eq_of_node? hn] at hi
    exact h.held_inputs hwf hk hneeds hi
  have hstored : ∀ i : Nat, i ∈ n.inputs → Stored g s i (e.bufferOf i) := by
    intro i hi
    obtain ⟨held, hi⟩ := hheld i hi
    rw [bufferOf_eq hi]
    exact h.stored i held hi (.inl nofun)
  rw [map_ref hheld]
  rcases exec_node hwf hn hserves hstored (h.firstOnly hheld) (by rw [owned, length_mapIdx]) with
    ⟨buffer, s', flat, hexec, hmade, hvalue⟩ | ⟨cause, s', hexec, hserves', hkept, hfailed⟩
  · exact .inl ⟨buffer, s', hexec, hserves.frame hmade.sound hmade.frame, hmade.place.takes,
      h.executed hwf hn hneeds hmade hvalue⟩
  · exact .inr ⟨cause, s', hexec, hserves', hkept, hfailed⟩

end Evaluation

end LazyTensor
