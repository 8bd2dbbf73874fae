import LazyTensor.Proofs.Graph.NormalForm

/-!
# Optimisation is idempotent

Each step of optimisation merges live nodes into one of them (`Merges`). It never gives a product its only
consumer: if a sum alone takes a product after the step, it did so before. So the single pass that substitutes
multiply-adds leaves no sum of such a product, and the passes of fusion after it make none. As they leave nothing
to fuse either, a second optimisation finds nothing to do.
-/

namespace LazyTensor.Graph

variable {g g' : Graph} {c c' : Consumers} {id terminal sum product other : Nat} {members absorbed : List Nat}
  {node : Node}

/-! ## Steps merge nodes -/

/-- Live nodes are absorbed into a live node, which takes what they took. -/
structure Merges (g g' : Graph) (terminal : Nat) (absorbed : List Nat) : Prop where
  node?_eq : ∀ j : Nat, j ≠ terminal → g'.node? j = g.node? j
  replaced : ∀ n, g'.node? terminal = some n → ∀ op, n.op ≠ .elementwise (.binary op)
  isLive_iff : ∀ j : Nat, g'.isLive j = true ↔ g.isLive j = true ∧ j ∉ absorbed
  isPinned_eq : ∀ j : Nat, g'.isPinned j = g.isPinned j
  terminal_live : g'.isLive terminal = true
  inputs_mem : ∀ k i : Nat, k = terminal ∨ k ∈ absorbed → i ∈ g.inputs k → i ∉ absorbed → i ∈ g'.inputs terminal

theorem MulAddSite.merges {node : Node} {a b other : Nat} (s : g.MulAddSite c sum node product a b other)
    (h : g.Sound c) : g.Merges (g.substitute c sum node product a b other).1 sum [product] where
  node?_eq j hj := by rw [s.node?_substitute, if_neg hj]
  replaced n hn op := by
    rw [s.node?_substitute, if_pos rfl] at hn
    obtain rfl := Option.some.inj hn
    exact nofun
  isLive_iff j := by
    rw [s.isLive_substitute h.wellFormed, Bool.and_eq_true, bne_iff_ne, List.mem_singleton]
  isPinned_eq := (s.rewritten h).isPinned_eq
  terminal_live := by
    have hlt := (s.lt h.wellFormed).2.2.1
    rw [s.isLive_substitute h.wellFormed, s.sum_live, Bool.true_and, bne_iff_ne]
    omega
  inputs_mem k i hk hi hout := by
    rw [s.inputs_substitute]
    rw [List.mem_singleton] at hk hout
    rcases hk with rfl | rfl
    · obtain rfl := (s.mem_inputs.mp hi).resolve_left hout
      simp
    · rw [s.factors] at hi
      rcases List.mem_cons.mp hi with rfl | hi
      · simp
      · simp [List.mem_singleton.mp hi]

theorem IsGroup.merges {last : Node} (s : g.IsGroup c terminal members) (h : g.Sound c)
    (hlast : g.node? terminal = some last) :
    g.Merges (IsGroup.fusedGraph g c terminal members last) terminal members.dropLast where
  node?_eq j hj := by rw [IsGroup.node?_fuseGroup hlast, if_neg hj]
  replaced n hn op := by
    rw [IsGroup.node?_fuseGroup hlast, if_pos rfl] at hn
    obtain rfl := Option.some.inj hn
    exact nofun
  isLive_iff j := by rw [s.isLive_fuseGroup hlast, s.mem_dropLast]
  isPinned_eq := (s.rewritten_fuseGroup h hlast).isPinned_eq
  terminal_live := by
    obtain ⟨n, e, hn⟩ := s.member terminal s.terminal_mem
    exact (s.isLive_fuseGroup hlast terminal).mpr ⟨hn.live, fun hmem => hmem.2 rfl⟩
  inputs_mem k i hk hi hout := by
    have hmem : k ∈ members := by
      rcases hk with rfl | hk
      · exact s.terminal_mem
      · exact (s.mem_dropLast.mp hk).1
    have hle := s.le_terminal k hmem
    have hlt := h.wellFormed.inputs_lt hi
    rw [s.mem_dropLast, not_and] at hout
    rw [IsGroup.inputs_fuseGroup hlast, if_pos rfl, mem_externals]
    refine ⟨⟨k, hmem, hi⟩, fun hin => ?_⟩
    have := hout hin
    omega

/-! ## Sums of products -/

/-- A live sum of floating point values, and a live product among its operands that it alone takes. -/
structure SumOfProduct (g : Graph) (sum product : Nat) : Prop where
  sum_node : ∃ n other, g.node? sum = some n ∧ n.op = .elementwise (.binary .add) ∧ n.shape.dtype.isFloat = true ∧
    product ≠ other ∧ (n.inputs = [product, other] ∨ n.inputs = [other, product])
  product_node : ∃ n, g.node? product = some n ∧ n.op = .elementwise (.binary .mul)
  live : g.isLive product = true
  unpinned : g.isPinned product = false
  consumes : g.Consumes sum product
  only : ∀ k : Nat, g.Consumes k product → k = sum

/-- Merging makes no new sum of a product: a consumer that disappears leaves the merged node in its place. -/
theorem Merges.sumOfProduct (m : g.Merges g' terminal absorbed) (h : g'.SumOfProduct sum product) :
    g.SumOfProduct sum product := by
  obtain ⟨⟨n, other, hn, hop, hrest⟩, ⟨n', hn', hop'⟩, hlive, hpin, hconsumes, honly⟩ := h
  -- the merged node is no sum and no product, so both nodes are as they were before
  have hsum : sum ≠ terminal := by
    rintro rfl
    exact m.replaced n hn .add hop
  have hproduct : product ≠ terminal := by
    rintro rfl
    exact m.replaced n' hn' .mul hop'
  have hinputs : ∀ k : Nat, k ≠ terminal → g'.inputs k = g.inputs k := by
    intro k hk
    rw [inputs, inputs, m.node?_eq k hk]
  obtain ⟨hlive, hout⟩ := (m.isLive_iff product).mp hlive
  rw [m.node?_eq sum hsum] at hn
  rw [m.node?_eq product hproduct] at hn'
  rw [m.isPinned_eq] at hpin
  refine ⟨⟨n, other, hn, hop, hrest⟩, ⟨n', hn', hop'⟩, hlive, hpin, ?_, fun k hk => ?_⟩
  · refine ⟨((m.isLive_iff sum).mp hconsumes.1).1, ?_⟩
    rw [← hinputs sum hsum]
    exact hconsumes.2
  · by_cases hmerged : k = terminal ∨ k ∈ absorbed
    · -- the merged node takes the product, so it would be the sum
      have hterminal := honly terminal ⟨m.terminal_live, m.inputs_mem k product hmerged hk.2 hout⟩
      exact absurd hterminal.symm hsum
    · obtain ⟨hk', hkout⟩ := not_or.mp hmerged
      apply honly k
      refine ⟨(m.isLive_iff k).mpr ⟨hk.1, hkout⟩, ?_⟩
      rw [hinputs k hk']
      exact hk.2

/-! ## The pass of substitutions -/

theorem MulAddSite.sumOfProduct {a b : Nat} (s : g.MulAddSite c sum node product a b other) (h : g.Sound c) :
    g.SumOfProduct sum product := by
  obtain ⟨-, honly, hpin⟩ := h.single_observer s.observer s.consumes
  obtain ⟨n, hn, hop, -, -⟩ := s.product_node
  exact ⟨⟨node, other, s.sum_node, s.sum_op, s.sum_float, s.product_ne, s.sum_inputs⟩, ⟨n, hn, hop⟩, s.product_live,
    hpin, s.consumes, honly⟩

theorem SumOfProduct.absorbableProduct?_isSome (p : g.SumOfProduct sum product) (h : g.Sound c)
    (hnode : g.node? sum = some node) (hne : product ≠ other) :
    (g.absorbableProduct? c node product other).isSome = true := by
  obtain ⟨n', other', hn', hop', hfloat, -⟩ := p.sum_node
  obtain rfl := Option.some.inj (hnode.symm.trans hn')
  obtain ⟨n, hn, hop⟩ := p.product_node
  have hmem : product ∈ node.inputs := by
    rw [← inputs_eq_of_node? hnode]
    exact p.consumes.2
  have hfits := h.wellFormed.fits sum node hnode
  have hshape : n.shape = node.shape := by
    rw [← hfits.shapeOf_input hop' hmem, shapeOf_eq_of_node? hn]
  have hdevice : n.device = node.device := by
    rw [← hfits.same_device product hmem, deviceOf_eq_of_node? hn]
  obtain ⟨a, b, hinputs⟩ : ∃ a b, n.inputs = [a, b] := by
    have hlength : n.inputs.length = 2 := ((h.wellFormed.fits product n hn).length_inputs hop).1
    match n.inputs, hlength with
    | [a, b], _ => exact ⟨a, b, rfl⟩
  have hobs := h.hasSingleObserver p.consumes p.only p.unpinned
  simp [absorbableProduct?, hn, hop, hinputs, hne, p.live, hobs, Node.compatible, hshape, hdevice]

theorem Sound.not_sumOfProduct (h : g.Sound c) (hstep : g.mulAddStep? c sum = none) :
    ∀ product : Nat, ¬ g.SumOfProduct sum product := by
  intro product p
  obtain ⟨node, other, hnode, hop, hfloat, hne, hinputs⟩ := p.sum_node
  have hlive := p.consumes.1
  have hsome := p.absorbableProduct?_isSome h hnode hne
  obtain ⟨⟨a, b⟩, hab⟩ := Option.isSome_iff_exists.mp hsome
  rcases hinputs with hinputs | hinputs
  · simp [mulAddStep?, hnode, hop, hinputs, hlive, hfloat, hab] at hstep
  · -- the other operand is the left one, and is tried first
    cases hleft : g.absorbableProduct? c node other product with
    | some r => simp [mulAddStep?, hnode, hop, hinputs, hlive, hfloat, hleft] at hstep
    | none => simp [mulAddStep?, hnode, hop, hinputs, hlive, hfloat, hleft, hab] at hstep

/-- What holds of a node after its own step, changing or not, and is kept by all steps, holds after the pass. -/
theorem pass_settles (step? : Graph → Consumers → NodeId → Option (Graph × Consumers))
    {motive : Graph → Consumers → Prop} (settled : Graph → Nat → Prop)
    (hnone : ∀ g c id, motive g c → step? g c id = none → settled g id)
    (hsome : ∀ g c id g' c', motive g c → step? g c id = some (g', c') →
      motive g' c' ∧ settled g' id ∧ ∀ j, settled g j → settled g' j)
    {ids : List NodeId} {s : Graph × Consumers × Nat} (hs : motive s.1 s.2.1) {j : Nat}
    (hj : j ∈ ids ∨ settled s.1 j) : settled (pass step? ids s).1 j := by
  -- a node is settled when its number comes up, and what follows keeps it so
  induction ids generalizing s with
  | nil => exact hj.resolve_left nofun
  | cons id ids ih =>
    show settled (pass step? ids (passStep step? s id)).1 j
    cases hstep : step? s.1 s.2.1 id with
    | none =>
      have hpass : passStep step? s id = s := by rw [passStep, hstep]
      rw [hpass]
      apply ih hs
      rcases hj with hj | hj
      · rcases List.mem_cons.mp hj with rfl | hj
        · exact .inr (hnone _ _ _ hs hstep)
        · exact .inl hj
      · exact .inr hj
    | some r =>
      obtain ⟨hmotive, hid, hkeep⟩ := hsome _ _ _ r.1 r.2 hs hstep
      have hpass : passStep step? s id = (r.1, r.2, s.2.2 + 1) := by rw [passStep, hstep]
      rw [hpass]
      apply ih hmotive
      rcases hj with hj | hj
      · rcases List.mem_cons.mp hj with rfl | hj
        · exact .inr hid
        · exact .inl hj
      · exact .inr (hkeep j hj)

theorem substituteMulAdds_eq_pass (g : Graph) : g.substituteMulAdds =
    ((pass mulAddStep? g.ids (g, Consumers.ofGraph g, 0)).1,
      (pass mulAddStep? g.ids (g, Consumers.ofGraph g, 0)).2.2) := by
  rfl

theorem WellFormed.not_sumOfProduct_substituteMulAdds (h : g.WellFormed) :
    ¬ g.substituteMulAdds.1.SumOfProduct sum product := by
  intro p
  have hid : sum ∈ g.ids := by
    have hlt := lt_size_of_mem_inputs p.consumes.2
    rw [h.substituteMulAdds.2.size_eq] at hlt
    exact mem_ids.mpr hlt
  refine pass_settles mulAddStep? (motive := Sound) (fun g sum => ∀ product, ¬ g.SumOfProduct sum product)
    (fun g c id hs hstep => hs.not_sumOfProduct hstep) ?_ ⟨h, Consumers.ofGraph_tracks h⟩ (.inl hid) product p
  intro g c id g' c' hs hstep
  obtain ⟨node, product, a, b, other, site, heq⟩ := mulAddStep?_cases hstep
  obtain ⟨rfl, rfl⟩ := Prod.mk.inj heq
  have hmerges := site.merges hs
  refine ⟨(hs.mulAddStep hstep).1, fun q hq => ?_, fun j hj q hq => hj q (hmerges.sumOfProduct hq)⟩
  obtain ⟨n, -, hn, hop, -⟩ := hq.sum_node
  exact hmerges.replaced n hn .add hop

theorem WellFormed.substituteMulAdds_eq_self (h : g.WellFormed) (hnone : ∀ sum product, ¬ g.SumOfProduct sum product) :
    g.substituteMulAdds = (g, 0) := by
  have hs : g.Sound (Consumers.ofGraph g) := ⟨h, Consumers.ofGraph_tracks h⟩
  rw [substituteMulAdds_eq_pass, pass_eq_self]
  intro id _
  cases hstep : g.mulAddStep? (Consumers.ofGraph g) id with
  | none => rfl
  | some r =>
    obtain ⟨node, product, a, b, other, site, -⟩ := mulAddStep?_cases hstep
    exact absurd (site.sumOfProduct hs) (hnone id product)

/-! ## Optimisation -/

theorem WellFormed.not_sumOfProduct_optimize (h : g.WellFormed) : ¬ g.optimize.SumOfProduct sum product := by
  have hfused : ∀ fuel, ¬ (Graph.fuseAll fuel g.substituteMulAdds.1).1.SumOfProduct sum product := by
    intro fuel
    refine (fuseAll_induction (motive := fun g => ¬ g.SumOfProduct sum product) ?_ fuel h.substituteMulAdds.1
      h.not_sumOfProduct_substituteMulAdds).2
    intro g₁ c₁ id g₂ c₂ hs hstep hnone p
    obtain ⟨terminal, members, last, group, -, hlast, heq⟩ := fuseStep?_cases hs.wellFormed hstep
    obtain ⟨rfl, rfl⟩ := Prod.mk.inj heq
    exact hnone ((group.merges hs hlast).sumOfProduct p)
  intro p
  -- the number of rewrites is no part of the nodes
  exact hfused g.substituteMulAdds.1.size ⟨p.sum_node, p.product_node, p.live, p.unpinned, p.consumes, p.only⟩

theorem WellFormed.optimize_optimize (h : g.WellFormed) : g.optimize.optimize = g.optimize := by
  have hwf := h.optimize.1
  have hsubstituted := hwf.substituteMulAdds_eq_self fun _ _ => h.not_sumOfProduct_optimize
  have hchains := hwf.fuseChains_eq_self h.fusionNormal_optimize.2
  have hfused : ∀ fuel, Graph.fuseAll fuel g.optimize = (g.optimize, 0) := by
    intro fuel
    cases fuel with
    | zero => rfl
    | succ fuel => rw [Graph.fuseAll, hchains]; rfl
  generalize g.optimize = g' at hsubstituted hfused ⊢
  rw [Graph.optimize, hsubstituted]
  simp only [hfused]
  rfl

end LazyTensor.Graph

/-! ## Optimisation in a session -/

namespace LazyTensor

theorem Workspace.WellFormed.after_optimize_twice {w : Workspace} (hw : w.WellFormed) (graph : Option GraphId) :
    (w.after (.optimize graph)).after (.optimize graph) = w.after (.optimize graph) := by
  have hnone : ∀ w : Workspace, w.graph graph = .error .noGraph → w.after (.optimize graph) = w := by
    intro w hgraph
    rw [Workspace.after, hgraph]
    rfl
  have hsome : ∀ (w : Workspace) (gid : GraphId) (g : Graph), w.graph graph = .ok (gid, g) →
      w.after (.optimize graph) = w.setGraph gid g.optimize := by
    intro w gid g hgraph
    rw [Workspace.after, hgraph]
    rfl
  cases hfound : graph.bind fun id => (w.graph? id).map (id, ·) with
  | none =>
    have hgraph : w.graph graph = .error .noGraph := by rw [Workspace.graph, hfound]
    rw [hnone w hgraph, hnone w hgraph]
  | some found =>
    obtain ⟨gid, g⟩ := found
    have hgraph : w.graph graph = .ok (gid, g) := by rw [Workspace.graph, hfound]
    obtain ⟨gid', rfl, hmap⟩ := Option.bind_eq_some_iff.mp hfound
    obtain ⟨g', hg, heq⟩ := Option.map_eq_some_iff.mp hmap
    obtain ⟨rfl, rfl⟩ := Prod.mk.inj heq
    have hgraph' : (w.setGraph gid' g'.optimize).graph (some gid') = .ok (gid', g'.optimize) := by
      rw [Workspace.graph, Option.bind_some, Workspace.graph?_setGraph hg, if_pos rfl]
      rfl
    rw [hsome w gid' g' hgraph, hsome _ gid' g'.optimize hgraph', (hw gid' g' hg).optimize_optimize]
    simp [Workspace.setGraph]

namespace Session

theorem after_optimize_eq (σ : Session) (graph : Option GraphId) :
    σ.after (.optimize graph) = { σ with workspace := σ.workspace.after (.optimize graph) } := by
  simp only [after, Call.steps, SessionM.optimize, Workspace.after]
  rw [bind_assoc, exec_bind_ok (exec_get σ)]
  cases σ.workspace.graph graph <;> rfl

/-- Whatever calls were made before: a second call of optimisation right after the first leaves the session, with
all nodes of its graphs, what they were constructed as, what was absorbed into what, all outputs and the number of
rewrites, as it is. -/
theorem optimize_twice (environment : Option String) (calls : List Call) (graph : Option GraphId) :
    run (calls ++ [.optimize graph, .optimize graph]) (start environment) =
      run (calls ++ [.optimize graph]) (start environment) := by
  rw [run_append, run_append]
  have hw := wellFormed_run calls (wellFormed_start environment)
  generalize run calls (start environment) = σ at hw
  show (σ.after (.optimize graph)).after (.optimize graph) = σ.after (.optimize graph)
  rw [after_optimize_eq, after_optimize_eq, hw.after_optimize_twice]

end Session

end LazyTensor
