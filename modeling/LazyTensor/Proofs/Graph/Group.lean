import LazyTensor.Proofs.Graph.Rewriting
import LazyTensor.Proofs.Program

/-!
# Groups of elementwise nodes

`IsGroup` says what the nodes collected for one kernel have in common. It holds of the terminal node
alone and of each larger group that collection goes through (`isGroup_group`), and it implies that the
program of the group is valid and that its inputs can be inputs of the terminal node.
-/

namespace LazyTensor.Graph

open List Option

variable {g : Graph} {c : Consumers} {terminal id m i : Nat} {members : List Nat}

/-- A live elementwise node with the shape and the device of the terminal node. -/
structure Member (g : Graph) (terminal m : Nat) (n : Node) (e : Elementwise) : Prop where
  node : g.node? m = some n
  op : n.op = .elementwise e
  shape : n.shape = g.shapeOf terminal
  device : n.device = g.deviceOf terminal
  live : g.isLive m = true

/-- The nodes, in increasing order, can be computed by the kernel of the last one. -/
structure IsGroup (g : Graph) (c : Consumers) (terminal : Nat) (members : List Nat) : Prop where
  sorted : members.Pairwise (· < ·)
  terminal_mem : terminal ∈ members
  le_terminal : ∀ m : Nat, m ∈ members → m ≤ terminal
  member : ∀ m : Nat, m ∈ members → ∃ n e, g.Member terminal m n e
  observer : ∀ m : Nat, m ∈ members → m ≠ terminal → g.hasSingleObserver c m = true
  consumed : ∀ m : Nat, m ∈ members → m ≠ terminal → ∃ k : Nat, k ∈ members ∧ m ∈ g.inputs k
  externals_le : (g.externals members).length ≤ Program.maxInputs

/-! ## Elementwise nodes -/

theorem WellFormed.elementwise_of_isFusable (h : g.WellFormed) (hf : g.isFusable id = true) :
    ∃ n e, g.node? id = some n ∧ n.op = .elementwise e ∧ g.isLive id = true := by
  simp only [isFusable, Bool.and_eq_true] at hf
  obtain ⟨hlive, hany⟩ := hf
  obtain ⟨n, hn, hkind⟩ := (Option.any_eq_true _ _).mp hany
  have hacc := (h.fits id n hn).accepts
  refine ⟨n, ?_⟩
  generalize n.inputs.map g.shapeOf = shapes at hacc
  simp only [Node.isElementwise] at hkind
  generalize n.op = op at hacc hkind
  cases hacc with
  | elementwise e => exact ⟨e, hn, rfl, hlive⟩
  | _ => cases hkind

theorem areCompatible_iff {a b : Nat} (h : g.areCompatible a b = true) :
    g.shapeOf a = g.shapeOf b ∧ g.deviceOf a = g.deviceOf b := by
  simp only [areCompatible] at h
  split at h
  · rename_i na nb ha hb
    simp only [Node.compatible, Bool.and_eq_true, beq_iff_eq] at h
    rw [shapeOf_eq_of_node? ha, shapeOf_eq_of_node? hb, deviceOf_eq_of_node? ha, deviceOf_eq_of_node? hb]
    exact ⟨h.2, h.1⟩
  · cases h

theorem isFusable_chainEnd (fuel : Nat) (hf : g.isFusable id = true) :
    g.isFusable (g.chainEnd c fuel id) = true := by
  induction fuel generalizing id with
  | zero => exact hf
  | succ fuel ih =>
    simp only [chainEnd]
    split
    · exact hf
    · split
      · split
        · rename_i hnext
          exact ih (Bool.and_eq_true_iff.mp hnext).1
        · exact hf
      · exact hf

/-! ## External inputs -/

theorem mem_externals : i ∈ g.externals members ↔ (∃ m : Nat, m ∈ members ∧ i ∈ g.inputs m) ∧ i ∉ members := by
  simp [externals]

theorem nodup_externals : (g.externals members).Nodup := nodup_eraseDups _

namespace IsGroup

theorem external (s : g.IsGroup c terminal members) (h : g.WellFormed) (hi : i ∈ g.externals members) :
    i < terminal ∧ g.shapeOf i = g.shapeOf terminal ∧ g.deviceOf i = g.deviceOf terminal := by
  obtain ⟨⟨m, hm, him⟩, -⟩ := mem_externals.mp hi
  obtain ⟨n, e, hmem⟩ := s.member m hm
  have hfit := h.fits m n hmem.node
  rw [inputs_eq_of_node? hmem.node] at him
  have hlt := hfit.inputs_lt i him
  have hle := s.le_terminal m hm
  refine ⟨by omega, ?_, ?_⟩
  · rw [hfit.shapeOf_input hmem.op him, hmem.shape]
  · rw [hfit.same_device i him, hmem.device]

theorem externals_ne_nil (s : g.IsGroup c terminal members) (h : g.WellFormed) :
    g.externals members ≠ [] := by
  obtain ⟨m, rest, hmembers⟩ := exists_cons_of_ne_nil (ne_nil_of_mem s.terminal_mem)
  have hsorted := s.sorted
  rw [hmembers, pairwise_cons] at hsorted
  obtain ⟨n, e, hmem⟩ := s.member m (by simp [hmembers])
  have hlen := ((h.fits m n hmem.node).length_inputs hmem.op).1
  have hpos : 0 < n.inputs.length := by
    rw [hlen]
    cases e <;> simp [Elementwise.arity]
  obtain ⟨i, hi⟩ := exists_mem_of_length_pos hpos
  have hlt := (h.fits m n hmem.node).inputs_lt i hi
  refine ne_nil_of_mem (a := i) (mem_externals.mpr ⟨⟨m, by simp [hmembers], ?_⟩, ?_⟩)
  · rwa [inputs_eq_of_node? hmem.node]
  · rw [hmembers, mem_cons]
    rintro (rfl | hr)
    · omega
    · have := hsorted.1 i hr
      omega

theorem eq_dropLast_append (s : g.IsGroup c terminal members) :
    members = members.dropLast ++ [terminal] := by
  have hne := ne_nil_of_mem s.terminal_mem
  have hsplit := dropLast_concat_getLast hne
  have hsorted := s.sorted
  rw [← hsplit, pairwise_append] at hsorted
  have hmem := s.terminal_mem
  rw [← hsplit, mem_append, mem_singleton] at hmem
  have hlast := s.le_terminal _ (getLast_mem hne)
  rcases hmem with hmem | heq
  · have := hsorted.2.2 terminal hmem _ (mem_singleton.mpr rfl)
    omega
  · rw [heq]
    exact hsplit.symm

theorem mem_dropLast (s : g.IsGroup c terminal members) :
    m ∈ members.dropLast ↔ m ∈ members ∧ m ≠ terminal := by
  have hsplit := s.eq_dropLast_append
  have hsorted := s.sorted
  rw [hsplit, pairwise_append] at hsorted
  constructor
  · intro hm
    have := hsorted.2.2 m hm terminal (by simp)
    exact ⟨(dropLast_sublist members).mem hm, by omega⟩
  · rintro ⟨hm, hne⟩
    rw [hsplit, mem_append, mem_singleton] at hm
    exact hm.resolve_right hne

end IsGroup

/-! ## Collection -/

theorem WellFormed.isGroup_singleton (h : g.WellFormed) (hf : g.isFusable terminal = true) :
    g.IsGroup c terminal [terminal] := by
  obtain ⟨n, e, hn, hop, hlive⟩ := h.elementwise_of_isFusable hf
  refine ⟨pairwise_singleton _ _, by simp, by simp, ?_, by simp, by simp, ?_⟩
  · intro m hm
    obtain rfl := mem_singleton.mp hm
    exact ⟨n, e, hn, hop, (shapeOf_eq_of_node? hn).symm, (deviceOf_eq_of_node? hn).symm, hlive⟩
  · have hlen := ((h.fits terminal n hn).length_inputs hop).1
    have hsub : (g.externals [terminal]).length ≤ (g.inputs terminal).length := by
      refine nodup_externals.length_le_of_subset fun i hi => ?_
      obtain ⟨⟨m, hm, him⟩, -⟩ := mem_externals.mp hi
      rwa [mem_singleton.mp hm] at him
    rw [inputs_eq_of_node? hn] at hsub
    have : e.arity ≤ 3 := by cases e <;> simp [Elementwise.arity]
    simp only [Program.maxInputs]
    omega

/-- A node that may join a group makes a larger group with it. -/
theorem IsGroup.including (s : g.IsGroup c terminal members) (h : g.WellFormed) (hid : id ∈ members)
    (hm : m ∈ g.inputs id) (hjoin : g.canJoin c terminal members m = true)
    (hle : (g.externals (Consumers.including m members)).length ≤ Program.maxInputs) :
    g.IsGroup c terminal (Consumers.including m members) := by
  simp only [canJoin, Bool.and_eq_true] at hjoin
  obtain ⟨⟨⟨-, hfusable⟩, hobs⟩, hcompat⟩ := hjoin
  obtain ⟨n, e, hn, hop, hlive⟩ := h.elementwise_of_isFusable hfusable
  obtain ⟨hshape, hdevice⟩ := areCompatible_iff hcompat
  have hlt := h.inputs_lt hm
  have hidle := s.le_terminal id hid
  have hnew : g.Member terminal m n e :=
    ⟨hn, hop, by rw [← hshape, shapeOf_eq_of_node? hn], by rw [← hdevice, deviceOf_eq_of_node? hn], hlive⟩
  -- the new member has the properties by `hnew`, and the others had them already
  refine ⟨Consumers.sorted_including s.sorted, Consumers.mem_including.mpr (.inr s.terminal_mem),
    ?_, ?_, ?_, ?_, hle⟩
  all_goals
    intro k hk
    rcases Consumers.mem_including.mp hk with rfl | hk
  · omega
  · exact s.le_terminal k hk
  · exact ⟨n, e, hnew⟩
  · exact s.member k hk
  · exact fun _ => hobs
  · exact s.observer k hk
  · exact fun _ => ⟨id, Consumers.mem_including.mpr (.inr hid), hm⟩
  · intro hne
    obtain ⟨j, hj, hkj⟩ := s.consumed k hk hne
    exact ⟨j, Consumers.mem_including.mpr (.inr hj), hkj⟩

/-- One input in the collection of a group: it joins, and collection goes on from there, or it stays outside. -/
abbrev joinInput (g : Graph) (c : Consumers) (terminal : Nat) (grow : Nat → List Nat → List Nat)
    (group : List Nat) (input : Nat) : List Nat :=
  if !g.canJoin c terminal group input then group
  else
    let larger := Consumers.including input group
    if Program.maxInputs < (g.externals larger).length then group else grow input larger

theorem growGroup_succ (fuel id : Nat) (group : List Nat) : g.growGroup c terminal (fuel + 1) id group =
    (g.inputs id).foldl (g.joinInput c terminal (g.growGroup c terminal fuel)) group := rfl

section Collection

variable {grow : Nat → List Nat → List Nat}
  (hgrow : ∀ (i : Nat) (members : List Nat), g.IsGroup c terminal members → i ∈ members →
    g.IsGroup c terminal (grow i members) ∧ members ⊆ grow i members)

include hgrow

theorem IsGroup.joinInput (s : g.IsGroup c terminal members) (h : g.WellFormed) (hid : id ∈ members)
    (hm : m ∈ g.inputs id) : g.IsGroup c terminal (g.joinInput c terminal grow members m) ∧
      members ⊆ g.joinInput c terminal grow members m := by
  simp only [Graph.joinInput]
  split
  · exact ⟨s, List.Subset.refl _⟩
  · rename_i hjoin
    split
    · exact ⟨s, List.Subset.refl _⟩
    · rename_i hle
      have hlarger := s.including h hid hm (by simpa using hjoin) (Nat.le_of_not_lt hle)
      obtain ⟨hgroup, hsub⟩ := hgrow m _ hlarger (Consumers.mem_including.mpr (.inl rfl))
      exact ⟨hgroup, fun k hk => hsub (Consumers.mem_including.mpr (.inr hk))⟩

theorem IsGroup.joinInputs (s : g.IsGroup c terminal members) (h : g.WellFormed) (hid : id ∈ members)
    {inputs : List Nat} (hinputs : inputs ⊆ g.inputs id) :
    g.IsGroup c terminal (inputs.foldl (g.joinInput c terminal grow) members) ∧
      members ⊆ inputs.foldl (g.joinInput c terminal grow) members := by
  induction inputs generalizing members with
  | nil => exact ⟨s, List.Subset.refl _⟩
  | cons i inputs ih =>
    obtain ⟨hi, hrest⟩ := cons_subset.mp hinputs
    obtain ⟨hgroup, hsub⟩ := s.joinInput hgrow h hid hi
    obtain ⟨hgroup', hsub'⟩ := ih hgroup (hsub hid) hrest
    exact ⟨hgroup', List.Subset.trans hsub hsub'⟩

end Collection

theorem IsGroup.growGroup (h : g.WellFormed) (fuel : Nat) (s : g.IsGroup c terminal members)
    (hid : id ∈ members) :
    g.IsGroup c terminal (g.growGroup c terminal fuel id members) ∧
      members ⊆ g.growGroup c terminal fuel id members := by
  induction fuel generalizing id members with
  | zero => exact ⟨s, List.Subset.refl _⟩
  | succ fuel ih =>
    exact s.joinInputs (fun i members hs hi => ih hs hi) h hid (List.Subset.refl _)

theorem WellFormed.isGroup_group (h : g.WellFormed) (hf : g.isFusable terminal = true) :
    g.IsGroup c terminal (g.group c terminal) :=
  (IsGroup.growGroup h (terminal + 1) (h.isGroup_singleton hf) (mem_singleton.mpr rfl)).1

/-! ## The program of a group -/

theorem stepOperand_member (externals : List Nat) (hid : id ∈ members) :
    ∃ i : Nat, members[i]? = some id ∧ stepOperand members externals id = .step i := by
  have hsome : (members.findIdx? (· == id)).isSome = true := by
    simp only [findIdx?_isSome, List.any_eq_true, beq_iff_eq]
    exact ⟨id, hid, rfl⟩
  obtain ⟨i, hi⟩ := isSome_iff_exists.mp hsome
  obtain ⟨hlt, heq, -⟩ := findIdx?_eq_some_iff_getElem.mp hi
  refine ⟨i, ?_, by simp [stepOperand, hi]⟩
  rw [getElem?_eq_getElem hlt, beq_iff_eq.mp heq]

theorem stepOperand_external {externals : List Nat} (hid : id ∉ members) (hx : id ∈ externals) :
    ∃ i : Nat, externals[i]? = some id ∧ stepOperand members externals id = .input i := by
  have hnone : members.findIdx? (· == id) = none := by
    refine findIdx?_eq_none_iff.mpr fun k hk => ?_
    simp only [beq_eq_false_iff_ne]
    rintro rfl
    exact hid hk
  have hlt : externals.findIdx (· == id) < externals.length :=
    findIdx_lt_length_of_exists ⟨id, hx, by simp⟩
  refine ⟨externals.findIdx (· == id), ?_, by simp [stepOperand, hnone]⟩
  have := findIdx_getElem (w := hlt)
  rw [getElem?_eq_getElem hlt, beq_iff_eq.mp this]

namespace IsGroup

theorem operand (s : g.IsGroup c terminal members) (h : g.WellFormed) {k : Nat} (hm : members[k]? = some m)
    (hi : i ∈ g.inputs m) :
    (∃ j : Nat, j < k ∧ members[j]? = some i ∧
      stepOperand members (g.externals members) i = .step j) ∨
    (∃ j : Nat, (g.externals members)[j]? = some i ∧
      stepOperand members (g.externals members) i = .input j) := by
  by_cases hmem : i ∈ members
  · obtain ⟨j, hj, hop⟩ := stepOperand_member (g.externals members) hmem
    refine .inl ⟨j, ?_, hj, hop⟩
    have hlt := h.inputs_lt hi
    -- the members are in increasing order, so a smaller one has a smaller place
    obtain ⟨hj', hji⟩ := List.getElem?_eq_some_iff.mp hj
    obtain ⟨hk', hkm⟩ := List.getElem?_eq_some_iff.mp hm
    by_cases hjk : j < k
    · exact hjk
    · rcases Nat.eq_or_lt_of_not_lt hjk with heq | hkj
      · subst heq
        omega
      · have := pairwise_iff_getElem.mp s.sorted k j hk' hj' hkj
        omega
  · have hx : i ∈ g.externals members :=
      mem_externals.mpr ⟨⟨m, mem_of_getElem? hm, hi⟩, hmem⟩
    exact .inr (stepOperand_external hmem hx)

theorem getElem?_steps (s : g.IsGroup c terminal members) {k : Nat} (hm : members[k]? = some m) :
    ∃ n e, g.Member terminal m n e ∧
      (g.groupProgram (g.shapeOf terminal).dtype members (g.externals members)).steps[k]? =
        some ⟨.elementwise e, n.inputs.map (stepOperand members (g.externals members))⟩ := by
  obtain ⟨n, e, hmem⟩ := s.member m (mem_of_getElem? hm)
  refine ⟨n, e, hmem, ?_⟩
  simp only [groupProgram, getElem?_map, hm, map_some, hmem.node,
    inputs_eq_of_node? hmem.node, hmem.op]
  rfl

/-- The steps of a group are a valid program on its external inputs. -/
theorem valid_groupProgram (s : g.IsGroup c terminal members) (h : g.WellFormed) :
    (g.groupProgram (g.shapeOf terminal).dtype members (g.externals members)).Valid where
  steps_ne_nil := by
    simpa [groupProgram] using ne_nil_of_mem s.terminal_mem
  numInputs_nonneg := Int.natCast_nonneg _
  numInputs_le := Int.ofNat_le.mpr s.externals_le
  steps k step hstep := by
    have hlt : k < members.length := by
      have := (List.getElem?_eq_some_iff.mp hstep).1
      simpa [groupProgram] using this
    have hm := getElem?_eq_getElem hlt
    obtain ⟨n, e, hmem, hsteps⟩ := s.getElem?_steps hm
    obtain rfl := Option.some.inj (hsteps.symm.trans hstep)
    have hlen := ((h.fits _ n hmem.node).length_inputs hmem.op).1
    refine ⟨rfl, ?_, ?_⟩
    · rw [length_map, hlen]
      rfl
    · intro o ho
      obtain ⟨i, hi, rfl⟩ := List.mem_map.mp ho
      rw [← inputs_eq_of_node? hmem.node] at hi
      rcases s.operand h hm hi with ⟨j, hjk, -, hop⟩ | ⟨j, hj, hop⟩
      · rw [hop]
        exact ⟨Int.natCast_nonneg _, Int.ofNat_lt.mpr hjk⟩
      · rw [hop]
        exact ⟨Int.natCast_nonneg _, Int.ofNat_lt.mpr (List.getElem?_eq_some_iff.mp hj).1⟩
  inputs_used j hj := by
    have hlt : j < (g.externals members).length := by simpa [groupProgram] using hj
    have hx := getElem?_eq_getElem hlt
    generalize (g.externals members)[j] = i at hx
    obtain ⟨⟨m, hm, hi⟩, hnot⟩ := mem_externals.mp (mem_of_getElem? hx)
    obtain ⟨k, hk⟩ := getElem?_of_mem hm
    obtain ⟨n, e, hmem, hsteps⟩ := s.getElem?_steps hk
    -- the inputs of a group are distinct, so this one has place `j`
    have hop : stepOperand members (g.externals members) i = .input j := by
      obtain ⟨j', hj', hop⟩ := stepOperand_external hnot (mem_of_getElem? hx)
      have := (getElem?_inj hlt nodup_externals).mp (hx.trans hj'.symm)
      rw [hop, this]
    rw [Program.usesInput, List.any_eq_true]
    refine ⟨_, mem_of_getElem? hsteps, List.any_eq_true.mpr ⟨.input j, ?_, by simp⟩⟩
    rw [inputs_eq_of_node? hmem.node] at hi
    rw [← hop]
    exact List.mem_map_of_mem hi

theorem defined_groupProgram (s : g.IsGroup c terminal members) (h : g.WellFormed) :
    (g.groupProgram (g.shapeOf terminal).dtype members (g.externals members)).Defined := by
  intro step hstep
  obtain ⟨k, hk⟩ := getElem?_of_mem hstep
  have hlt : k < members.length := by
    have := (List.getElem?_eq_some_iff.mp hk).1
    simpa [groupProgram] using this
  obtain ⟨n, e, hmem, hsteps⟩ := s.getElem?_steps (getElem?_eq_getElem hlt)
  obtain rfl := Option.some.inj (hsteps.symm.trans hk)
  refine ⟨e, rfl, ?_⟩
  have hdef := ((h.fits _ n hmem.node).length_inputs hmem.op).2
  rwa [hmem.shape] at hdef

end IsGroup

end LazyTensor.Graph
