import LazyTensor.Proofs.Run

/-!
# The normal form of fusion

A pass of fusion that changes nothing leaves no edge along which two elementwise nodes could still be merged:
the walk from the first of them ends at a node whose last predecessor always fits into its group. Each fused
node of a pass absorbs a node, so the passes end, and the graph they end with is in normal form.
-/

namespace LazyTensor.Graph

open List Option

variable {g g' : Graph} {c c' : Consumers} {id terminal u v : Nat} {members : List Nat}

/-! ## Passes that change nothing -/

section Pass

variable {step? : Graph → Consumers → NodeId → Option (Graph × Consumers)} {ids : List NodeId}
  {s : Graph × Consumers × Nat}

theorem le_count_pass : s.2.2 ≤ (pass step? ids s).2.2 := by
  apply pass_induction step? (motive := fun _ _ count => s.2.2 ≤ count)
  · intro g c count id g' c' hle _
    exact Nat.le_succ_of_le hle
  · exact Nat.le_refl _

theorem pass_eq_self (h : ∀ id ∈ ids, step? s.1 s.2.1 id = none) : pass step? ids s = s := by
  induction ids with
  | nil => rfl
  | cons id ids ih =>
    have hnone : passStep step? s id = s := by
      rw [passStep, h id (.head _)]
    show pass step? ids (passStep step? s id) = s
    rw [hnone]
    exact ih fun id hid => h id (.tail _ hid)

theorem step_eq_none_of_count (h : (pass step? ids s).2.2 = s.2.2) : ∀ id ∈ ids, step? s.1 s.2.1 id = none := by
  induction ids with
  | nil => exact nofun
  | cons id ids ih =>
    have hpass : pass step? (id :: ids) s = pass step? ids (passStep step? s id) := rfl
    rw [hpass] at h
    cases hstep : step? s.1 s.2.1 id with
    | some r =>
      -- the count has grown, and it never shrinks
      have hcount : (passStep step? s id).2.2 = s.2.2 + 1 := by
        rw [passStep, hstep]
      have hle : (passStep step? s id).2.2 ≤ (pass step? ids (passStep step? s id)).2.2 := le_count_pass
      omega
    | none =>
      have hnone : passStep step? s id = s := by
        rw [passStep, hstep]
      rw [hnone] at h
      intro j hj
      rcases mem_cons.mp hj with rfl | hj
      · exact hstep
      · exact ih h j hj

end Pass

theorem fuseChains_eq_pass (g : Graph) : g.fuseChains =
    ((pass fuseStep? g.ids (g, Consumers.ofGraph g, 0)).1, (pass fuseStep? g.ids (g, Consumers.ofGraph g, 0)).2.2) := by
  rfl

/-! ## Edges that can be fused -/

/-- The node is a unary or binary operation or a multiply-add. -/
def IsElementwise (g : Graph) (id : Nat) : Prop := ∃ n e, g.node? id = some n ∧ n.op = .elementwise e

/-- A live elementwise node that is no output, and the live elementwise node that alone takes its value. -/
structure FusableEdge (g : Graph) (u v : Nat) : Prop where
  elementwise : g.IsElementwise u
  elementwise_consumer : g.IsElementwise v
  live : g.isLive u = true
  unpinned : g.isPinned u = false
  consumes : g.Consumes v u
  only : ∀ k : Nat, g.Consumes k u → k = v

/-- No two nodes can be merged. -/
def FusionNormal (g : Graph) : Prop := ∀ u v : Nat, ¬ g.FusableEdge u v

theorem WellFormed.isFusable_iff (h : g.WellFormed) :
    g.isFusable id = true ↔ g.isLive id = true ∧ g.IsElementwise id := by
  constructor
  · intro hf
    obtain ⟨n, e, hn, hop, hlive⟩ := h.elementwise_of_isFusable hf
    exact ⟨hlive, n, e, hn, hop⟩
  · rintro ⟨hlive, n, e, hn, hop⟩
    rw [isFusable, hlive, hn, any_some, Node.isElementwise, hop]
    rfl

theorem Sound.hasSingleObserver (h : g.Sound c) (hv : g.Consumes v u) (honly : ∀ k : Nat, g.Consumes k u → k = v)
    (hpin : g.isPinned u = false) : g.hasSingleObserver c u = true := by
  have hget : c.get u = [v] := by
    apply eq_of_sorted_of_mem_iff (h.tracks.sorted u) (pairwise_singleton _ v)
    intro k
    rw [h.tracks.mem, mem_singleton]
    constructor
    · exact honly k
    · rintro rfl
      exact hv
  simp [Graph.hasSingleObserver, hget, hpin]

namespace FusableEdge

theorem isFusable (e : g.FusableEdge u v) (h : g.WellFormed) : g.isFusable u = true :=
  h.isFusable_iff.mpr ⟨e.live, e.elementwise⟩

theorem isFusable_consumer (e : g.FusableEdge u v) (h : g.WellFormed) : g.isFusable v = true :=
  h.isFusable_iff.mpr ⟨e.consumes.1, e.elementwise_consumer⟩

theorem hasSingleObserver (e : g.FusableEdge u v) (h : g.Sound c) : g.hasSingleObserver c u = true :=
  h.hasSingleObserver e.consumes e.only e.unpinned

theorem areCompatible (e : g.FusableEdge u v) (h : g.WellFormed) :
    g.areCompatible u v = true ∧ g.areCompatible v u = true := by
  obtain ⟨n, op, hn, hop⟩ := e.elementwise_consumer
  obtain ⟨m, -, hm, -⟩ := e.elementwise
  have hmem : u ∈ n.inputs := by
    rw [← inputs_eq_of_node? hn]
    exact e.consumes.2
  have hshape : m.shape = n.shape := by
    rw [← (h.fits v n hn).shapeOf_input hop hmem, shapeOf_eq_of_node? hm]
  have hdevice : m.device = n.device := by
    rw [← (h.fits v n hn).same_device u hmem, deviceOf_eq_of_node? hm]
  simp [Graph.areCompatible, hn, hm, Node.compatible, hshape, hdevice]

end FusableEdge

theorem IsGroup.exists_absorbed (s : g.IsGroup c terminal members) (hlen : 2 ≤ members.length) :
    ∃ m ∈ members, m ≠ terminal := by
  have hne : members.dropLast ≠ [] := by
    intro hnil
    have := congrArg length hnil
    rw [length_dropLast, length_nil] at this
    omega
  obtain ⟨m, hm⟩ := exists_mem_of_ne_nil _ hne
  exact ⟨m, s.mem_dropLast.mp hm⟩

theorem IsGroup.exists_fusableEdge (s : g.IsGroup c terminal members) (h : g.Sound c) (hlen : 2 ≤ members.length) :
    ∃ u v, g.FusableEdge u v := by
  obtain ⟨m, hmem, hterminal⟩ := s.exists_absorbed hlen
  obtain ⟨k, hk, hinput⟩ := s.consumed m hmem hterminal
  obtain ⟨n, e, hn⟩ := s.member m hmem
  obtain ⟨n', e', hn'⟩ := s.member k hk
  obtain ⟨-, honly, hpin⟩ := h.single_observer (s.observer m hmem hterminal) ⟨hn'.live, hinput⟩
  exact ⟨m, k, ⟨n, e, hn.node, hn.op⟩, ⟨n', e', hn'.node, hn'.op⟩, hn.live, hpin, ⟨hn'.live, hinput⟩, honly⟩

/-! ## The walk along a chain -/

/-- The node after a chain has a predecessor with which it can be merged: the walk goes on only along such edges. -/
theorem FusableEdge.exists_chainEnd (e : g.FusableEdge u v) (h : g.Sound c) (fuel : Nat) :
    ∃ w, g.FusableEdge w (g.chainEnd c fuel v) := by
  induction fuel generalizing u v with
  | zero => exact ⟨u, e⟩
  | succ fuel ih =>
    rw [chainEnd]
    split
    · exact ⟨u, e⟩
    · rename_i hobs
      split
      · rename_i next rest hget
        split
        · rename_i hnext
          obtain ⟨hfusable, -⟩ := Bool.and_eq_true_iff.mp hnext
          obtain ⟨hlive, helementwise⟩ := h.wellFormed.isFusable_iff.mp hfusable
          have hconsumes : g.Consumes next v := (h.tracks.mem v next).mp (by rw [hget]; simp)
          obtain ⟨-, honly, hpin⟩ := h.single_observer (by simpa using hobs) hconsumes
          exact ih ⟨e.elementwise_consumer, helementwise, e.consumes.1, hpin, hconsumes, honly⟩
        · exact ⟨u, e⟩
      · exact ⟨u, e⟩

theorem FusableEdge.chainEnd_succ (e : g.FusableEdge u v) (h : g.Sound c) (fuel : Nat) :
    g.chainEnd c (fuel + 1) u = g.chainEnd c fuel v := by
  have hobs := e.hasSingleObserver h
  obtain ⟨hget, -, -⟩ := h.single_observer hobs e.consumes
  simp [chainEnd, hobs, hget, e.isFusable_consumer h.wellFormed, (e.areCompatible h.wellFormed).2]

/-! ## The group of a node -/

theorem WellFormed.growGroup_eq (h : g.WellFormed) {fuel fuel' : Nat} (hfuel : id < fuel) (hle : fuel ≤ fuel')
    (group : List Nat) : g.growGroup c terminal fuel' id group = g.growGroup c terminal fuel id group := by
  induction fuel generalizing id fuel' group with
  | zero => omega
  | succ fuel ih =>
    obtain ⟨fuel', rfl⟩ : ∃ n, fuel' = n + 1 := ⟨fuel' - 1, by omega⟩
    rw [growGroup_succ, growGroup_succ]
    have hinputs : ∀ i : Nat, i ∈ g.inputs id → i < id := fun i hi => h.inputs_lt hi
    generalize g.inputs id = inputs at hinputs
    induction inputs generalizing group with
    | nil => rfl
    | cons i inputs ihi =>
      have hi : i < id := hinputs i (.head _)
      have hlt : i < fuel := Nat.lt_of_lt_of_le hi (Nat.le_of_lt_succ hfuel)
      have hgrow := ih hlt (Nat.le_of_succ_le_succ hle) (Consumers.including i group)
      rw [foldl_cons]
      simp only [joinInput, hgrow]
      exact ihi _ fun j hj => hinputs j (.tail _ hj)

theorem WellFormed.length_inputs_le (h : g.WellFormed) (he : g.IsElementwise id) : (g.inputs id).length ≤ 3 := by
  obtain ⟨n, e, hn, hop⟩ := he
  rw [inputs_eq_of_node? hn, ((h.fits id n hn).length_inputs hop).1]
  cases e <;> simp [Elementwise.arity]

/-- Two nodes never have too many inputs, so the predecessor joins a terminal node that is alone. -/
theorem FusableEdge.mem_joinInput (e : g.FusableEdge u terminal) (h : g.Sound c) {grow : Nat → List Nat → List Nat}
    (hgrow : ∀ (i : Nat) (members : List Nat), g.IsGroup c terminal members → i ∈ members →
      g.IsGroup c terminal (grow i members) ∧ members ⊆ grow i members) :
    u ∈ g.joinInput c terminal grow [terminal] u := by
  have hne : u ≠ terminal := Nat.ne_of_lt (h.wellFormed.lt_of_consumes e.consumes).1
  have hjoin : g.canJoin c terminal [terminal] u = true := by
    simp [canJoin, hne, e.isFusable h.wellFormed, e.hasSingleObserver h, (e.areCompatible h.wellFormed).1]
  -- two nodes have at most six inputs, so the group is never too large
  have hle : (g.externals (Consumers.including u [terminal])).length ≤ Program.maxInputs := by
    have hsub : g.externals (Consumers.including u [terminal]) ⊆ g.inputs u ++ g.inputs terminal := by
      intro i hi
      obtain ⟨⟨m, hm, him⟩, -⟩ := mem_externals.mp hi
      rw [mem_append]
      rcases Consumers.mem_including.mp hm with rfl | hm
      · exact .inl him
      · rw [mem_singleton.mp hm] at him
        exact .inr him
    have hlength := nodup_externals.length_le_of_subset hsub
    rw [length_append] at hlength
    have hu := h.wellFormed.length_inputs_le e.elementwise
    have hv := h.wellFormed.length_inputs_le e.elementwise_consumer
    show _ ≤ 7
    omega
  have hgroup := (h.wellFormed.isGroup_singleton (e.isFusable_consumer h.wellFormed)).including h.wellFormed
    (mem_singleton.mpr rfl) e.consumes.2 hjoin hle
  have hmem : u ∈ Consumers.including u [terminal] := Consumers.mem_including.mpr (.inl rfl)
  simp only [Graph.joinInput, hjoin, if_neg (Nat.not_lt.mpr hle)]
  exact (hgrow u _ hgroup hmem).2 hmem

theorem FusableEdge.two_le_length_group (e : g.FusableEdge u terminal) (h : g.Sound c) :
    2 ≤ (g.group c terminal).length := by
  have hgrow : ∀ (i : Nat) (members : List Nat), g.IsGroup c terminal members → i ∈ members →
      g.IsGroup c terminal (g.growGroup c terminal terminal i members) ∧
        members ⊆ g.growGroup c terminal terminal i members :=
    fun i members hs hi => IsGroup.growGroup h.wellFormed terminal hs hi
  -- at the turn of the predecessor the group has another member already, or the predecessor joins
  have hother : ∀ (inputs members : List Nat), inputs ⊆ g.inputs terminal → g.IsGroup c terminal members →
      u ∈ inputs ∨ (∃ m ∈ members, m ≠ terminal) →
      ∃ m ∈ inputs.foldl (g.joinInput c terminal (g.growGroup c terminal terminal)) members, m ≠ terminal := by
    intro inputs
    induction inputs with
    | nil =>
      intro members _ _ hcase
      exact hcase.resolve_left nofun
    | cons i inputs ih =>
      intro members hinputs hs hcase
      obtain ⟨hi, hrest⟩ := cons_subset.mp hinputs
      obtain ⟨hgroup, hsub⟩ := hs.joinInput hgrow h.wellFormed hs.terminal_mem hi
      apply ih _ hrest hgroup
      by_cases hmore : ∃ m ∈ members, m ≠ terminal
      · obtain ⟨m, hm, hne⟩ := hmore
        exact .inr ⟨m, hsub hm, hne⟩
      · rcases mem_cons.mp (hcase.resolve_right hmore) with rfl | hu
        · -- the group is the terminal node alone
          have halone : members = [terminal] := by
            apply eq_of_sorted_of_mem_iff hs.sorted (pairwise_singleton _ _)
            intro m
            rw [mem_singleton]
            constructor
            · intro hm
              exact Classical.byContradiction fun hne => hmore ⟨m, hm, hne⟩
            · rintro rfl
              exact hs.terminal_mem
          subst halone
          exact .inr ⟨_, e.mem_joinInput h hgrow, Nat.ne_of_lt (h.wellFormed.lt_of_consumes e.consumes).1⟩
        · exact .inl hu
  have hs := h.wellFormed.isGroup_singleton (c := c) (e.isFusable_consumer h.wellFormed)
  obtain ⟨m, hm, hne⟩ := hother (g.inputs terminal) [terminal] (List.Subset.refl _) hs (.inl e.consumes.2)
  have hgroup := h.wellFormed.isGroup_group (c := c) (e.isFusable_consumer h.wellFormed)
  have hdistinct : [m, terminal].Nodup := by simp [hne]
  apply hdistinct.length_le_of_subset
  intro k hk
  rcases mem_cons.mp hk with rfl | hk
  · exact hm
  · rw [mem_singleton.mp hk]
    exact hgroup.terminal_mem

/-! ## Steps and passes -/

theorem Sound.fusionNormal_iff (h : g.Sound c) : g.FusionNormal ↔ ∀ id ∈ g.ids, g.fuseStep? c id = none := by
  constructor
  · intro hnormal id _
    cases hstep : g.fuseStep? c id with
    | none => rfl
    | some r =>
      obtain ⟨terminal, members, last, s, hlen, -, -⟩ := fuseStep?_cases h.wellFormed hstep
      obtain ⟨u, v, e⟩ := s.exists_fusableEdge h hlen
      exact absurd e (hnormal u v)
  · intro hnone u v e
    have hsize := h.wellFormed.lt_of_consumes e.consumes
    obtain ⟨fuel, hfuel⟩ : ∃ n, g.size = n + 1 := ⟨g.size - 1, by omega⟩
    obtain ⟨w, e'⟩ := e.exists_chainEnd h fuel
    rw [← e.chainEnd_succ h, ← hfuel] at e'
    obtain ⟨last, hlast⟩ := exists_node?_of_lt (lt_size_of_mem_inputs e'.consumes.2)
    have hlen := e'.two_le_length_group h
    have hstep := hnone u (mem_ids.mpr (by omega))
    simp [fuseStep?, e.isFusable h.wellFormed, hlast, Nat.not_lt.mpr hlen] at hstep

theorem WellFormed.fusionNormal_iff (h : g.WellFormed) : g.FusionNormal ↔ g.fuseChains.2 = 0 := by
  have hs : g.Sound (Consumers.ofGraph g) := ⟨h, Consumers.ofGraph_tracks h⟩
  rw [hs.fusionNormal_iff, fuseChains_eq_pass]
  constructor
  · intro hnone
    rw [pass_eq_self hnone]
  · exact fun hcount => step_eq_none_of_count (s := (g, Consumers.ofGraph g, 0)) hcount

theorem WellFormed.fuseChains_eq_self (h : g.WellFormed) (hnormal : g.FusionNormal) : g.fuseChains = (g, 0) := by
  have hs : g.Sound (Consumers.ofGraph g) := ⟨h, Consumers.ofGraph_tracks h⟩
  rw [fuseChains_eq_pass, pass_eq_self (hs.fusionNormal_iff.mp hnormal)]

/-! ## Passes absorb nodes -/

theorem numNodes_eq (g : Graph) : g.numNodes = g.liveIds.length := by
  have hlength : g.ids.length = g.size := length_range
  have hsplit := length_eq_countP_add_countP g.isLive (l := g.ids)
  have hlive : g.liveIds.length = g.ids.countP g.isLive := countP_eq_length_filter.symm
  have habsorbed : g.numAbsorbed = g.ids.countP (fun id => ¬ g.isLive id = true) := by
    apply countP_congr
    simp
  rw [numNodes]
  omega

theorem nodup_liveIds (g : Graph) : g.liveIds.Nodup := nodup_range.filter _

theorem Sound.numNodes_fuseStep (h : g.Sound c) (hstep : g.fuseStep? c id = some (g', c')) :
    g'.numNodes + 1 ≤ g.numNodes := by
  obtain ⟨terminal, members, last, s, hlen, hlast, heq⟩ := fuseStep?_cases h.wellFormed hstep
  obtain ⟨rfl, rfl⟩ := Prod.mk.inj heq
  obtain ⟨m, hmem, hterminal⟩ := s.exists_absorbed hlen
  obtain ⟨n, e, hn⟩ := s.member m hmem
  have hlive := s.isLive_fuseGroup hlast
  rw [numNodes_eq, numNodes_eq]
  -- the absorbed member and what is live afterwards are different nodes that were live before
  have hnodup : (m :: (IsGroup.fusedGraph g c terminal members last).liveIds).Nodup := by
    apply nodup_cons.mpr
    refine ⟨fun hin => ?_, nodup_liveIds _⟩
    exact ((hlive m).mp (mem_liveIds.mp hin).2).2 ⟨hmem, hterminal⟩
  apply hnodup.length_le_of_subset
  intro j hj
  rw [mem_liveIds]
  rcases mem_cons.mp hj with rfl | hj
  · exact ⟨lt_size_of_node? hn.node, hn.live⟩
  · obtain ⟨hlt, hj⟩ := mem_liveIds.mp hj
    rw [IsGroup.size_fuseGroup] at hlt
    exact ⟨hlt, ((hlive j).mp hj).1⟩

theorem WellFormed.numNodes_fuseChains (h : g.WellFormed) : g.fuseChains.1.numNodes + g.fuseChains.2 ≤ g.numNodes := by
  refine (pass_induction fuseStep? (motive := fun g' c' count => g'.Sound c' ∧ g'.numNodes + count ≤ g.numNodes)
    ?_ g.ids (s := (g, Consumers.ofGraph g, 0)) ⟨⟨h, Consumers.ofGraph_tracks h⟩, Nat.le_refl _⟩).2
  intro g₁ c₁ count id g₂ c₂ ⟨hs, hle⟩ hstep
  have hlower := hs.numNodes_fuseStep hstep
  exact ⟨(hs.fuseStep hstep).1, by omega⟩

theorem WellFormed.fuseChains (h : g.WellFormed) : g.fuseChains.1.WellFormed :=
  (fuseChains_induction (motive := fun _ => True) h trivial fun _ _ _ _ _ _ _ _ => trivial).1

/-! ## The passes end -/

/-- Passes one after the other, as long as they change something: the graph before the next pass and how many
nodes were fused until then. -/
inductive Passes : Graph → Graph → Nat → Prop where
  | done (g : Graph) : Passes g g 0
  | next {g g' : Graph} {count : Nat} (hchanged : g.fuseChains.2 ≠ 0) (rest : Passes g.fuseChains.1 g' count) :
    Passes g g' (g.fuseChains.2 + count)

theorem Passes.wellFormed {count : Nat} (h : Passes g g' count) (hwf : g.WellFormed) : g'.WellFormed := by
  induction h with
  | done => exact hwf
  | next _ _ ih => exact ih hwf.fuseChains

/-- The passes end with a graph in normal form: a bound that is not below the number of nodes is not reached. -/
theorem WellFormed.passes_fuseAll (h : g.WellFormed) {fuel : Nat} (hfuel : g.numNodes ≤ fuel) :
    Passes g (Graph.fuseAll fuel g).1 (Graph.fuseAll fuel g).2 ∧ (Graph.fuseAll fuel g).1.FusionNormal := by
  induction fuel generalizing g with
  | zero =>
    refine ⟨.done g, fun u v e => ?_⟩
    have hu : u ∈ g.liveIds := by
      have := h.lt_of_consumes e.consumes
      exact mem_liveIds.mpr ⟨by omega, e.live⟩
    have hpos := length_pos_of_mem hu
    rw [← numNodes_eq] at hpos
    omega
  | succ fuel ih =>
    rw [Graph.fuseAll]
    by_cases hcount : g.fuseChains.2 = 0
    · have hnormal := h.fusionNormal_iff.mpr hcount
      simp only [h.fuseChains_eq_self hnormal]
      exact ⟨.done g, hnormal⟩
    · have hlower := h.numNodes_fuseChains
      obtain ⟨hpasses, hnormal⟩ := ih h.fuseChains (by omega)
      simp only [hcount]
      exact ⟨.next hcount hpasses, hnormal⟩

theorem FusionNormal.replacements (h : g.FusionNormal) (count : Nat) :
    FusionNormal { g with replacements := count } := by
  intro u v e
  exact h u v ⟨e.elementwise, e.elementwise_consumer, e.live, e.unpinned, e.consumes, e.only⟩

theorem WellFormed.fusionNormal_optimize (h : g.WellFormed) :
    (∃ g' count, Passes g.substituteMulAdds.1 g' count ∧ g'.fuseChains = (g', 0) ∧
      g.optimize = { g' with replacements := g'.replacements + g.substituteMulAdds.2 + count }) ∧
    g.optimize.FusionNormal := by
  have hwf := h.substituteMulAdds.1
  have hfuel : g.substituteMulAdds.1.numNodes ≤ g.substituteMulAdds.1.size := Nat.sub_le _ _
  obtain ⟨hpasses, hnormal⟩ := hwf.passes_fuseAll hfuel
  refine ⟨⟨_, _, hpasses, ?_, rfl⟩, hnormal.replacements _⟩
  exact (hpasses.wellFormed hwf).fuseChains_eq_self hnormal

end LazyTensor.Graph

/-! ## Optimisation of the graphs of a session -/

namespace LazyTensor.Session

open Graph

/-- Whatever calls were made before: optimisation ends, as each of its passes lowers the number of nodes by that of
the fused nodes it makes, and then no elementwise node that is no output has one elementwise node as its only
live consumer. -/
theorem optimize_reaches_normal_form (environment : Option String) (calls : List Call) (gid : GraphId) (g : Graph)
    (hg : (run calls (start environment)).workspace.graph? gid = some g) :
    (∀ g' count, Passes g.substituteMulAdds.1 g' count →
      g'.fuseChains.1.numNodes + g'.fuseChains.2 ≤ g'.numNodes) ∧
    (∃ g' count, Passes g.substituteMulAdds.1 g' count ∧ g'.fuseChains = (g', 0) ∧
      g.optimize = { g' with replacements := g'.replacements + g.substituteMulAdds.2 + count }) ∧
    ∀ u v : Nat, ¬ g.optimize.FusableEdge u v := by
  have hwf := wellFormed_run calls (wellFormed_start environment) gid g hg
  obtain ⟨hends, hnormal⟩ := hwf.fusionNormal_optimize
  refine ⟨fun g' count hpasses => ?_, hends, hnormal⟩
  exact (hpasses.wellFormed hwf.substituteMulAdds.1).numNodes_fuseChains

/-- A sum of nine terms has too many inputs for one kernel, so that two are left of its eight nodes. -/
theorem optimize_long_sum :
    let x : Shape := ⟨.int32, [2]⟩
    let term : Call := .construct (.fill (some 0) .cpu x (.ofInt 1))
    let sum (a b : Int) : Call := .construct (.elementwise (.binary .add) [some ⟨0, a⟩, some ⟨0, b⟩])
    let calls : List Call := [.newGraph "g", term, term, term, term, term, term, term, term, term,
      sum 0 1, sum 9 2, sum 10 3, sum 11 4, sum 12 5, sum 13 6, sum 14 7, sum 15 8]
    ∃ g, (run calls (start none)).workspace.graph? 0 = some g ∧ g.numNodes = 17 ∧ g.optimize.numNodes = 11 ∧
      ∀ u v : Nat, ¬ g.optimize.FusableEdge u v := by
  intro x term sum calls
  have hchecks : ((run calls (start none)).workspace.graph? 0).any (fun g =>
      g.numNodes == 17 && g.optimize.numNodes == 11) = true := by decide +kernel
  obtain ⟨g, hg, hchecks⟩ := (Option.any_eq_true _ _).mp hchecks
  rw [Bool.and_eq_true, beq_iff_eq, beq_iff_eq] at hchecks
  exact ⟨g, hg, hchecks.1, hchecks.2, (optimize_reaches_normal_form none calls 0 g hg).2.2⟩

end LazyTensor.Session
