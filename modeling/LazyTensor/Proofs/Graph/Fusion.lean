import LazyTensor.Proofs.Graph.Group
import LazyTensor.Proofs.Graph.MulAdd

/-!
# Fusion keeps the invariant

A step of fusion replaces the terminal node of a group by the program of the group and absorbs the
other members (`fuseStep?_cases`). It keeps the graph well formed and the table exact. So do a pass over
all nodes, the passes together, and optimisation as a whole (`WellFormed.optimize`).
-/

namespace LazyTensor.Graph

variable {g g' : Graph} {c c' : Consumers} {terminal id m : Nat} {members : List Nat} {last : Node}

/-! ## Absorbing several nodes -/

private theorem foldl_view {α β γ : Type} {f : β → α → β} (view : β → γ)
    (h : ∀ b a, view (f b a) = view b) (l : List α) (b : β) : view (l.foldl f b) = view b := by
  induction l generalizing b with
  | nil => rfl
  | cons a l ih => rw [List.foldl_cons, ih, h]

/-- Marks nodes as computed by another one. -/
abbrev absorbAll (g : Graph) (ids : List Nat) (t : Nat) : Graph := ids.foldl (fun g id => g.absorb id t) g

theorem size_absorbAll (ids : List Nat) (t : Nat) : (g.absorbAll ids t).size = g.size :=
  foldl_view Graph.size (fun _ _ => size_absorb t) ids g

theorem node?_absorbAll (ids : List Nat) (t j : Nat) : (g.absorbAll ids t).node? j = g.node? j :=
  foldl_view (·.node? j) (fun _ _ => node?_absorb t) ids g

theorem constructed?_absorbAll (ids : List Nat) (t j : Nat) :
    (g.absorbAll ids t).constructed? j = g.constructed? j :=
  foldl_view (·.constructed? j) (fun _ _ => constructed?_absorb t) ids g

theorem isPinned_absorbAll (ids : List Nat) (t j : Nat) :
    (g.absorbAll ids t).isPinned j = g.isPinned j :=
  foldl_view (·.isPinned j) (fun _ _ => isPinned_absorb t) ids g

theorem shapeOf_absorbAll (ids : List Nat) (t : Nat) : (g.absorbAll ids t).shapeOf = g.shapeOf :=
  foldl_view Graph.shapeOf (fun _ _ => shapeOf_absorb t) ids g

theorem deviceOf_absorbAll (ids : List Nat) (t : Nat) : (g.absorbAll ids t).deviceOf = g.deviceOf :=
  foldl_view Graph.deviceOf (fun _ _ => deviceOf_absorb t) ids g

theorem into?_absorbAll (ids : List Nat) (t j : Nat) (hids : ∀ id : Nat, id ∈ ids → id < g.size)
    (ht : t ∉ ids) :
    (g.absorbAll ids t).into? j =
      if j ∈ ids ∨ ∃ id : Nat, id ∈ ids ∧ g.into? j = some id then some t else g.into? j := by
  induction ids generalizing g with
  | nil => simp
  | cons id ids ih =>
    have hid := hids id (by simp)
    rw [absorbAll, List.foldl_cons,
      ih (fun k hk => by rw [size_absorb]; exact hids k (.tail _ hk))
        (fun h => ht (.tail _ h)), into?_absorb _ hid]
    by_cases hcase : j = id ∨ g.into? j = some id
    · -- the node points to `t` already, which is not absorbed later
      have hmem : j ∈ id :: ids ∨ ∃ k : Nat, k ∈ id :: ids ∧ g.into? j = some k :=
        hcase.elim (fun h => .inl (by simp [h])) (fun h => .inr ⟨id, by simp, h⟩)
      simp only [hcase, hmem, if_true, ite_self]
    · obtain ⟨hj, hinto⟩ := not_or.mp hcase
      simp [hj, hinto]

/-! ## One step -/

theorem fuseStep?_cases (h : g.WellFormed) (hstep : g.fuseStep? c id = some (g', c')) :
    ∃ terminal members last, g.IsGroup c terminal members ∧ 2 ≤ members.length ∧
      g.node? terminal = some last ∧
      (g', c') = g.fuseGroup c terminal last members (g.externals members) := by
  simp only [fuseStep?] at hstep
  split at hstep
  · cases hstep
  · rename_i hf
    split at hstep
    · cases hstep
    · rename_i hlen
      obtain ⟨last, hlast, heq⟩ := Option.map_eq_some_iff.mp hstep
      have hend := isFusable_chainEnd (c := c) g.size (by simpa using hf)
      exact ⟨_, _, last, h.isGroup_group hend, Nat.le_of_not_lt hlen, hlast, heq.symm⟩

namespace IsGroup

/-- The node that takes the place of the terminal node. -/
abbrev fusedNode (g : Graph) (members : List Nat) (last : Node) : Node :=
  { last with
    op := .fused (some (g.groupProgram last.shape.dtype members (g.externals members)))
    inputs := g.externals members }

/-- The graph after the step. -/
abbrev fusedGraph (g : Graph) (c : Consumers) (terminal : Nat) (members : List Nat) (last : Node) : Graph :=
  (g.fuseGroup c terminal last members (g.externals members)).1

theorem node?_fuseGroup (hlast : g.node? terminal = some last) (j : Nat) :
    (fusedGraph g c terminal members last).node? j =
      if j = terminal then some (fusedNode g members last) else g.node? j := by
  rw [fusedGraph, fuseGroup, node?_absorbAll, node?_replace (lt_size_of_node? hlast)]

theorem inputs_fuseGroup (hlast : g.node? terminal = some last) (j : Nat) :
    (fusedGraph g c terminal members last).inputs j =
      if j = terminal then g.externals members else g.inputs j := by
  simp only [inputs, node?_fuseGroup hlast]
  split <;> rfl

theorem shapeOf_fuseGroup (hlast : g.node? terminal = some last) :
    (fusedGraph g c terminal members last).shapeOf = g.shapeOf := by
  rw [fusedGraph, fuseGroup, shapeOf_absorbAll]
  exact shapeOf_replace hlast rfl

theorem deviceOf_fuseGroup (hlast : g.node? terminal = some last) :
    (fusedGraph g c terminal members last).deviceOf = g.deviceOf := by
  rw [fusedGraph, fuseGroup, deviceOf_absorbAll]
  exact deviceOf_replace hlast rfl

theorem size_fuseGroup : (fusedGraph g c terminal members last).size = g.size := by
  rw [fusedGraph, fuseGroup, size_absorbAll, size_replace]

section

variable (s : g.IsGroup c terminal members)

include s

theorem into?_fuseGroup (hlast : g.node? terminal = some last) (j : Nat) :
    (fusedGraph g c terminal members last).into? j =
      if j ∈ members.dropLast ∨ ∃ m : Nat, m ∈ members.dropLast ∧ g.into? j = some m then some terminal
      else g.into? j := by
  rw [fusedGraph, fuseGroup, into?_absorbAll, into?_replace]
  · intro m hm
    have hle := s.le_terminal m (s.mem_dropLast.mp hm).1
    have hlt := lt_size_of_node? hlast
    rw [size_replace]
    omega
  · exact fun hmem => (s.mem_dropLast.mp hmem).2 rfl

theorem isLive_fuseGroup (hlast : g.node? terminal = some last) (j : Nat) :
    (fusedGraph g c terminal members last).isLive j = true ↔
      g.isLive j = true ∧ ¬ (j ∈ members ∧ j ≠ terminal) := by
  rw [isLive_iff, s.into?_fuseGroup hlast, isLive_iff, ← s.mem_dropLast]
  split
  · rename_i hcase
    simp only [reduceCtorEq, false_iff, not_and, Classical.not_not]
    rcases hcase with hj | ⟨m, -, hm⟩
    · exact fun _ => hj
    · rw [hm]
      exact nofun
  · rename_i hcase
    exact ⟨fun hj => ⟨hj, fun hmem => hcase (.inl hmem)⟩, And.left⟩

theorem consumer_mem (h : g.Sound c) (hm : m ∈ members) (hne : m ≠ terminal) :
    g.isPinned m = false ∧ ∀ k : Nat, g.Consumes k m → k ∈ members := by
  obtain ⟨k, hk, hinput⟩ := s.consumed m hm hne
  obtain ⟨n, e, hmem⟩ := s.member k hk
  obtain ⟨-, honly, hpin⟩ := h.single_observer (s.observer m hm hne) ⟨hmem.live, hinput⟩
  refine ⟨hpin, fun j hj => ?_⟩
  rw [honly j hj]
  exact hk

theorem fits_fusedNode (h : g.WellFormed)
    (hlast : g.node? terminal = some last) : g.Fits terminal (fusedNode g members last) := by
  have hfit := h.fits terminal last hlast
  have hshape := shapeOf_eq_of_node? hlast
  have hdevice := deviceOf_eq_of_node? hlast
  exact {
    inputs_lt := fun i hi => (s.external h hi).1
    accepts := by
      have hmap : (g.externals members).map g.shapeOf =
          List.replicate (g.externals members).length last.shape := by
        refine List.eq_replicate_iff.mpr ⟨by simp, fun t ht => ?_⟩
        obtain ⟨i, hi, rfl⟩ := List.mem_map.mp ht
        rw [(s.external h hi).2.1, hshape]
      rw [hmap]
      have hvalid := s.valid_groupProgram h
      have hdefined := s.defined_groupProgram h
      rw [hshape] at hvalid hdefined
      exact .fused _ _ last.shape rfl (Program.validate_eq_ok_iff.mpr hvalid) hdefined rfl
        (List.length_pos_iff.mpr (s.externals_ne_nil h))
    valid := hfit.valid
    device_ok := hfit.device_ok
    same_device := fun i hi => by rw [(s.external h hi).2.2, hdevice]
    distinct := fun _ => nodup_externals }

/-- Fusing one group keeps the graph well formed. -/
theorem wellFormed_fuseGroup (h : g.WellFormed)
    (hlast : g.node? terminal = some last) : (fusedGraph g c terminal members last).WellFormed := by
  obtain ⟨n, e, hterminal⟩ := s.member terminal s.terminal_mem
  refine h.rewrite (shapeOf_fuseGroup hlast) (deviceOf_fuseGroup hlast) ?_ ?_ ?_
  · intro j n hn
    rw [node?_fuseGroup hlast] at hn
    split at hn
    · rename_i hj
      obtain rfl := Option.some.inj hn
      exact .inr (hj ▸ s.fits_fusedNode h hlast)
    · exact .inl hn
  · intro j
    rw [fusedGraph, fuseGroup, constructed?_absorbAll, constructed?_replace]
  · intro j t hj
    -- what was absorbed into a member goes into the terminal node, which stays live
    have hlive : ∀ k : Nat, (fusedGraph g c terminal members last).into? k = none ↔
        g.into? k = none ∧ ¬ (k ∈ members ∧ k ≠ terminal) := by
      intro k
      rw [← isLive_iff, s.isLive_fuseGroup hlast, isLive_iff]
    rw [size_fuseGroup, hlive]
    rw [s.into?_fuseGroup hlast] at hj
    split at hj
    · rename_i hcase
      obtain rfl := Option.some.inj hj
      refine ⟨?_, lt_size_of_node? hlast, isLive_iff.mp hterminal.live, by simp⟩
      rcases hcase with hmem | ⟨m, hmem, hinto⟩
      · have hmem := s.mem_dropLast.mp hmem
        have := s.le_terminal j hmem.1
        omega
      · have hmem := s.mem_dropLast.mp hmem
        have := s.le_terminal m hmem.1
        have := (h.into_live j m hinto).1
        omega
    · rename_i hcase
      obtain ⟨hlt, hsize, ht⟩ := h.into_live j t hj
      refine ⟨hlt, hsize, ht, fun hmem => hcase (.inr ⟨t, s.mem_dropLast.mpr hmem, hj⟩)⟩

end

/-! ## The table after a step -/

/-- The members disappear from the lists of their inputs, and the lists of all but the terminal node
are emptied. -/
private theorem removeMembers (g : Graph) (terminal : Nat) (ms : List Nat) (c : Consumers) :
    let c' := ms.foldl (fun c member =>
      let c := (g.inputs member).foldl (fun c input => c.remove input member) c
      if member = terminal then c else c.clear member) c
    c'.table.size = c.table.size ∧
    (∀ j : Nat, (c.get j).Pairwise (· < ·) → (c'.get j).Pairwise (· < ·)) ∧
    ∀ j k : Nat, k ∈ c'.get j ↔
      k ∈ c.get j ∧ ¬ (k ∈ ms ∧ j ∈ g.inputs k) ∧ ¬ (j ∈ ms ∧ j ≠ terminal) := by
  induction ms generalizing c with
  | nil => simp
  | cons m ms ih =>
    -- the lists of the inputs of one member
    have hremove : ∀ (inputs : List Nat) (c : Consumers),
        let c' := inputs.foldl (fun c input => c.remove input m) c
        c'.table.size = c.table.size ∧
        (∀ j : Nat, (c.get j).Pairwise (· < ·) → (c'.get j).Pairwise (· < ·)) ∧
        ∀ j k : Nat, k ∈ c'.get j ↔ k ∈ c.get j ∧ ¬ (k = m ∧ j ∈ inputs) := by
      intro inputs
      induction inputs with
      | nil => simp
      | cons i inputs ihi =>
        intro c
        obtain ⟨hsize, hsorted, hmem⟩ := ihi (c.remove i m)
        refine ⟨by simpa using hsize, fun j hj => hsorted j ?_, fun j k => ?_⟩
        · rw [Consumers.get_remove]
          split
          · exact Consumers.sorted_without hj
          · exact hj
        · rw [List.foldl_cons, hmem, Consumers.get_remove]
          by_cases hij : i = j
          · simp only [hij, if_true, Consumers.mem_without]
            grind
          · have hji : ¬ j = i := fun h => hij h.symm
            simp only [hij, hji, if_false, List.mem_cons, false_or]
    obtain ⟨hsize, hsorted, hmem⟩ := hremove (g.inputs m) c
    simp only [List.foldl_cons]
    by_cases hm : m = terminal
    · rw [if_pos hm]
      obtain ⟨hsize', hsorted', hmem'⟩ :=
        ih ((g.inputs m).foldl (fun c input => c.remove input m) c)
      refine ⟨hsize'.trans hsize, fun j hj => hsorted' j (hsorted j hj), fun j k => ?_⟩
      grind
    · rw [if_neg hm]
      obtain ⟨hsize', hsorted', hmem'⟩ :=
        ih (((g.inputs m).foldl (fun c input => c.remove input m) c).clear m)
      refine ⟨by rw [hsize', Consumers.size_clear, hsize], fun j hj => hsorted' j ?_, fun j k => ?_⟩
      · rw [Consumers.get_clear]
        split
        · exact List.Pairwise.nil
        · exact hsorted j hj
      · rw [hmem', Consumers.get_clear]
        split
        · grind
        · rw [hmem]
          grind

private theorem addExternals (terminal : Nat) (inputs : List Nat) (c : Consumers)
    (hlt : ∀ i : Nat, i ∈ inputs → i < c.table.size) :
    let c' := inputs.foldl (fun c input => c.add input terminal) c
    c'.table.size = c.table.size ∧
    (∀ j : Nat, (c.get j).Pairwise (· < ·) → (c'.get j).Pairwise (· < ·)) ∧
    ∀ j k : Nat, k ∈ c'.get j ↔ k ∈ c.get j ∨ (k = terminal ∧ j ∈ inputs) := by
  induction inputs generalizing c with
  | nil => simp
  | cons i inputs ih =>
    have hi := hlt i (by simp)
    obtain ⟨hsize, hsorted, hmem⟩ := ih (c.add i terminal)
      (fun k hk => by rw [Consumers.size_add]; exact hlt k (.tail _ hk))
    refine ⟨by simpa using hsize, fun j hj => hsorted j ?_, fun j k => ?_⟩
    · rw [Consumers.get_add hi]
      split
      · exact Consumers.sorted_including hj
      · exact hj
    · rw [List.foldl_cons, hmem, Consumers.get_add hi]
      split
      · rw [Consumers.mem_including]
        grind
      · grind

theorem mem_get_fuseConsumers (g : Graph) (c : Consumers) (terminal : Nat) (members externals : List Nat)
    (hlt : ∀ i : Nat, i ∈ externals → i < c.table.size) :
    let c' := g.fuseConsumers c terminal members externals
    c'.table.size = c.table.size ∧
    (∀ j : Nat, (c.get j).Pairwise (· < ·) → (c'.get j).Pairwise (· < ·)) ∧
    ∀ j k : Nat, k ∈ c'.get j ↔
      (k ∈ c.get j ∧ ¬ (k ∈ members ∧ j ∈ g.inputs k) ∧ ¬ (j ∈ members ∧ j ≠ terminal)) ∨
        (k = terminal ∧ j ∈ externals) := by
  obtain ⟨hsize, hsorted, hmem⟩ := removeMembers g terminal members c
  obtain ⟨hsize', hsorted', hmem'⟩ :=
    addExternals terminal externals _ (fun i hi => by rw [hsize]; exact hlt i hi)
  refine ⟨hsize'.trans hsize, fun j hj => hsorted' j (hsorted j hj), fun j k => ?_⟩
  refine (hmem' j k).trans ?_
  rw [hmem j k]

/-- Fusing one group keeps the table of consumers in step with the graph. -/
theorem tracks_fuseGroup (s : g.IsGroup c terminal members) (h : g.Sound c)
    (hlast : g.node? terminal = some last) :
    (g.fuseGroup c terminal last members (g.externals members)).2.Tracks
      (fusedGraph g c terminal members last) := by
  have hexternals : ∀ i : Nat, i ∈ g.externals members → i < c.table.size := by
    intro i hi
    have := (s.external h.wellFormed hi).1
    have := lt_size_of_node? hlast
    rw [h.tracks.size]
    omega
  obtain ⟨hsize, hsorted, hmem⟩ :=
    mem_get_fuseConsumers g c terminal members (g.externals members) hexternals
  refine ⟨?_, fun j => hsorted j (h.tracks.sorted j), fun j k => (hmem j k).trans ?_⟩
  · rw [size_fuseGroup, ← h.tracks.size]
    exact hsize
  · clear hmem hsorted hsize
    rw [h.tracks.mem j k]
    unfold Consumes
    rw [s.isLive_fuseGroup hlast, inputs_fuseGroup hlast]
    obtain ⟨n, e, hterminal⟩ := s.member terminal s.terminal_mem
    -- the terminal node takes the externals, the other members are dead, and the rest is as before
    by_cases hk : k = terminal
    · have hlive := hterminal.live
      have hmem := s.terminal_mem
      subst hk
      simp only [hlive, hmem, true_and, ne_eq, not_true_eq_false, not_false_eq_true]
      exact ⟨fun h => h.resolve_left fun hin => hin.2.1 hin.1, .inr⟩
    · by_cases hkm : k ∈ members
      · simp only [hk, hkm, true_and, false_and, or_false, ne_eq, not_false_eq_true, not_true_eq_false,
          and_false, iff_false]
        exact fun hin => hin.2.1 hin.1.2
      · -- a live consumer that is no member takes no member but the terminal node
        have hout : g.isLive k = true ∧ j ∈ g.inputs k → ¬ (j ∈ members ∧ j ≠ terminal) :=
          fun hcons hj => hkm ((s.consumer_mem h hj.1 hj.2).2 k hcons)
        simp only [hk, hkm, false_and, not_false_eq_true, true_and, or_false, and_true]
        exact ⟨And.left, fun hcons => ⟨hcons, hout hcons⟩⟩

theorem rewritten_fuseGroup (s : g.IsGroup c terminal members) (h : g.Sound c)
    (hlast : g.node? terminal = some last) : g.Rewritten (fusedGraph g c terminal members last) where
  size_eq := size_fuseGroup
  shapeOf_eq := shapeOf_fuseGroup hlast
  deviceOf_eq := deviceOf_fuseGroup hlast
  constructed?_eq j := by rw [fusedGraph, fuseGroup, constructed?_absorbAll, constructed?_replace]
  isPinned_eq j := by rw [fusedGraph, fuseGroup, isPinned_absorbAll, isPinned_replace]
  live_of_live j hj := ((s.isLive_fuseGroup hlast j).mp hj).1
  live_of_pinned j hlive hpin := by
    refine (s.isLive_fuseGroup hlast j).mpr ⟨hlive, fun hmem => ?_⟩
    rw [(s.consumer_mem h hmem.1 hmem.2).1] at hpin
    cases hpin
  inputsLive hg k i hk hi := by
    obtain ⟨hlive, hkm⟩ := (s.isLive_fuseGroup hlast k).mp hk
    refine (s.isLive_fuseGroup hlast i).mpr ?_
    rw [inputs_fuseGroup hlast] at hi
    split at hi
    · obtain ⟨⟨m, hm, him⟩, hout⟩ := mem_externals.mp hi
      obtain ⟨n, e, hmem⟩ := s.member m hm
      exact ⟨hg m i hmem.live him, fun hmem => hout hmem.1⟩
    · rename_i hne
      refine ⟨hg k i hlive hi, fun hmem => hkm ⟨?_, hne⟩⟩
      exact (s.consumer_mem h hmem.1 hmem.2).2 k ⟨hlive, hi⟩

end IsGroup

/-! ## Passes -/

theorem Sound.fuseStep (h : g.Sound c) (hstep : g.fuseStep? c id = some (g', c')) :
    g'.Sound c' ∧ g.Rewritten g' := by
  obtain ⟨terminal, members, last, s, -, hlast, heq⟩ := fuseStep?_cases h.wellFormed hstep
  obtain ⟨rfl, rfl⟩ := Prod.mk.inj heq
  exact ⟨⟨s.wellFormed_fuseGroup h.wellFormed hlast, s.tracks_fuseGroup h hlast⟩,
    s.rewritten_fuseGroup h hlast⟩

theorem fuseChains_induction {motive : Graph → Prop} (h : g.WellFormed) (hg : motive g)
    (hstep : ∀ (g₁ : Graph) (c₁ : Consumers) (id : Nat) (g₂ : Graph) (c₂ : Consumers), g₁.Sound c₁ →
      g₁.fuseStep? c₁ id = some (g₂, c₂) → motive g₁ → motive g₂) :
    g.fuseChains.1.WellFormed ∧ motive g.fuseChains.1 := by
  have hpass := pass_induction fuseStep? (motive := fun g' c' _ => g'.Sound c' ∧ motive g')
    (fun g₁ c₁ _ id g₂ c₂ h₁ hs =>
      ⟨(h₁.1.fuseStep hs).1, hstep g₁ c₁ id g₂ c₂ h₁.1 hs h₁.2⟩)
    g.ids (s := (g, Consumers.ofGraph g, 0)) ⟨⟨h, Consumers.ofGraph_tracks h⟩, hg⟩
  have heq : g.fuseChains.1 = (pass fuseStep? g.ids (g, Consumers.ofGraph g, 0)).1 := by
    rfl
  exact ⟨hpass.1.wellFormed, hpass.2⟩

theorem fuseAll_induction {motive : Graph → Prop}
    (hstep : ∀ (g₁ : Graph) (c₁ : Consumers) (id : Nat) (g₂ : Graph) (c₂ : Consumers), g₁.Sound c₁ →
      g₁.fuseStep? c₁ id = some (g₂, c₂) → motive g₁ → motive g₂)
    (fuel : Nat) (h : g.WellFormed) (hg : motive g) :
    (fuseAll fuel g).1.WellFormed ∧ motive (fuseAll fuel g).1 := by
  induction fuel generalizing g with
  | zero => exact ⟨h, hg⟩
  | succ fuel ih =>
    obtain ⟨hwf, hm⟩ := fuseChains_induction h hg hstep
    simp only [fuseAll]
    split
    · exact ⟨hwf, hm⟩
    · exact ih hwf hm

theorem WellFormed.fuseAll (h : g.WellFormed) (fuel : Nat) :
    (Graph.fuseAll fuel g).1.WellFormed ∧ g.Rewritten (Graph.fuseAll fuel g).1 :=
  fuseAll_induction (fun _ _ _ _ _ hs hstep hr => hr.trans (hs.fuseStep hstep).2) fuel h (.refl g)

theorem Rewritten.replacements (g : Graph) (count : Nat) :
    g.Rewritten { g with replacements := count } :=
  ⟨rfl, rfl, rfl, fun _ => rfl, fun _ => rfl, fun _ h => h, fun _ h _ => h, fun h => h⟩

theorem WellFormed.optimize (h : g.WellFormed) : g.optimize.WellFormed ∧ g.Rewritten g.optimize := by
  obtain ⟨hwf, hr⟩ := h.substituteMulAdds
  obtain ⟨hwf', hr'⟩ := hwf.fuseAll g.substituteMulAdds.1.size
  refine ⟨?_, (hr.trans hr').trans (Rewritten.replacements _ _)⟩
  exact hwf'.rewrite rfl rfl (fun _ _ hn => .inl hn) (fun _ => rfl) hwf'.into_live

end LazyTensor.Graph
