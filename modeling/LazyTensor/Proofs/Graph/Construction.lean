import LazyTensor.Proofs.Graph.Rules

/-!
# What construction does

A call is accepted exactly if its operands are nodes of one graph on one device and its rule holds
(`Workspace.construct_eq_ok_iff`). Then it adds one node that fits at the end of the graph, except for a
conversion to the data type that the operand has, which gives the operand back (`Workspace.construct_cases`). So
construction keeps graphs well formed.
-/

namespace LazyTensor

open List Option

/-- The operands of a call. -/
def Construction.operands : Construction → List Handle
  | .fill .. | .arange .. | .arangeFromTo .. => []
  | .elementwise _ operands => operands
  | .matMul lhs rhs => [lhs, rhs]
  | .matMulAxpby lhs rhs bias _ _ => [lhs, rhs, bias]
  | .transpose x _ => [x]
  | .cast x _ => [x]

namespace Workspace

/-- Every graph is well formed. -/
def WellFormed (w : Workspace) : Prop := ∀ (id : Nat) (g : Graph), w.graph? id = some g → g.WellFormed

/-- The handles are those of nodes of one graph on one device. -/
structure AreNodes (w : Workspace) (handles : List Handle) (gid : GraphId) (g : Graph) (device : Device)
    (nodes : List (NodeId × Node)) : Prop where
  graph : w.graph? gid = some g
  handles_eq : handles = nodes.map fun p => some ⟨gid, (p.1 : Nat)⟩
  isNode : ∀ p ∈ nodes, g.node? p.1 = some p.2
  onDevice : ∀ p ∈ nodes, p.2.device = device

/-- The rules let the call build a node of the graph: the operands are on one device, which is also the one of
the node, and a call without operands names the graph and the device. -/
structure Allows (w : Workspace) (c : Construction) (gid : GraphId) (g : Graph) (n : Node) : Prop where
  source : ∀ graph device, c.source? = some (graph, device) → graph = some gid ∧ device = n.device
  operands : ∃ nodes, w.AreNodes c.operands gid g n.device nodes ∧ n.inputs = nodes.map (·.1) ∧
    c.Rule (nodes.map (·.2.shape)) n.op n.shape

/-- The call builds a node that the rules allow, at the end of a graph. -/
def Builds (w : Workspace) (c : Construction) (r : Handle × Workspace) : Prop :=
  ∃ gid g n, w.Allows c gid g n ∧ w.push gid g n = r

def IsNode (w : Workspace) (gid : GraphId) (h : Handle) (n : Node) : Prop :=
  ∃ (g : Graph) (id : Nat), w.graph? gid = some g ∧ g.node? id = some n ∧ h = some ⟨gid, id⟩

/-- The call converts a node to the data type that it has. -/
def KeepsType (w : Workspace) (c : Construction) (h : Handle) : Prop :=
  ∃ gid n, w.IsNode gid h n ∧ c = .cast h n.shape.dtype

variable {w w' : Workspace} {c : Construction} {graph : Option GraphId} {gid id : Nat} {g : Graph} {device : Device}
  {n : Node} {h : Handle} {handles : List Handle} {nodes : List (NodeId × Node)} {r : Handle × Workspace} {s : Shape}
  {e : Elementwise} {permutation : List Int} {ids : List NodeId}

theorem graph?_setGraph {g' : Graph} (hg : w.graph? gid = some g) (j : Nat) :
    (w.setGraph gid g').graph? j = if j = gid then some g' else w.graph? j := by
  have hlt : gid < w.graphs.size := by
    rcases Nat.lt_or_ge gid w.graphs.size with hlt | hge
    · exact hlt
    · rw [graph?, Array.getElem?_eq_none hge] at hg
      cases hg
  simp only [graph?, setGraph]
  by_cases hj : j = gid
  · simp [hj, hlt]
  · simp [hj, Ne.symm hj]

/-! ## Operands -/

theorem owned_eq_ok (hown : w.owned gid g h = .ok (id, n)) :
    h = some ⟨gid, id⟩ ∧ g.node? id = some n := by
  cases h with
  | none => cases hown
  | some ref =>
    simp only [owned] at hown
    split at hown
    · cases hown
    · rename_i hgraph
      split at hown
      · cases hown
      · rename_i hneg
        split at hown
        · rename_i m hm
          obtain ⟨rfl, rfl⟩ := Prod.mk.inj (Except.ok.inj hown)
          have hid : ((ref.id.toNat : Nat) : Int) = ref.id := Int.toNat_of_nonneg (by omega)
          cases ref
          simp_all
        · cases hown

theorem owned_of_node? (hn : g.node? id = some n) : w.owned gid g (some ⟨gid, (id : Nat)⟩) = .ok (id, n) := by
  have hnonneg : ¬ ((id : Nat) : Int) < 0 := by omega
  rw [owned, if_neg (fun hne => hne rfl), if_neg hnonneg, Int.toNat_natCast, hn]

theorem mapM_owned_eq_ok_iff :
    (handles.mapM fun h => (·.1) <$> w.owned gid g h) = .ok ids ↔
      handles = ids.map (fun id => some ⟨gid, (id : Nat)⟩) ∧ ∀ id : Nat, id ∈ ids → id < g.size := by
  constructor
  · intro hall
    induction handles generalizing ids with
    | nil =>
      obtain rfl := Except.ok.inj hall
      exact ⟨rfl, nofun⟩
    | cons h handles ih =>
      rw [mapM_cons] at hall
      obtain ⟨id, hid, hall⟩ := bind_eq_ok hall
      obtain ⟨rest, hrest, hall⟩ := bind_eq_ok hall
      obtain rfl := Except.ok.inj hall
      obtain ⟨⟨id', n⟩, hown, hid⟩ := bind_eq_ok hid
      obtain rfl : id' = id := Except.ok.inj hid
      obtain ⟨rfl, hn⟩ := owned_eq_ok hown
      obtain ⟨rfl, hlt⟩ := ih hrest
      exact ⟨rfl, forall_mem_cons.mpr ⟨Graph.lt_size_of_node? hn, hlt⟩⟩
  · rintro ⟨rfl, hlt⟩
    induction ids with
    | nil => rfl
    | cons id ids ih =>
      obtain ⟨hid, hlt⟩ := forall_mem_cons.mp hlt
      obtain ⟨n, hn⟩ := Graph.exists_node?_of_lt hid
      rw [map_cons, mapM_cons, owned_of_node? hn, ih hlt]
      rfl

/-- Handles are resolved exactly if they are those of nodes of the graph. -/
theorem ownedAll_eq_ok_iff (hne : handles ≠ []) :
    w.ownedAll graph handles = .ok ids ↔ ∃ gid g, graph = some gid ∧ w.graph? gid = some g ∧
      handles = ids.map (fun id => some ⟨gid, (id : Nat)⟩) ∧ ∀ id : Nat, id ∈ ids → id < g.size := by
  obtain ⟨handle, rest, rfl⟩ := exists_cons_of_ne_nil hne
  rw [ownedAll]
  split
  · rename_i hnone
    refine ⟨nofun, ?_⟩
    rintro ⟨gid, g, rfl, hg, -⟩
    simp [hg] at hnone
  · rename_i gid g hfound
    obtain ⟨gid', rfl, hfound⟩ := bind_eq_some_iff.mp hfound
    obtain ⟨g', hg, heq⟩ := map_eq_some_iff.mp hfound
    cases heq
    rw [mapM_owned_eq_ok_iff]
    refine ⟨fun h => ⟨gid, g, rfl, hg, h⟩, ?_⟩
    rintro ⟨gid', g', hgid, hg', h⟩
    cases hgid
    obtain rfl := Option.some.inj (hg.symm.trans hg')
    exact h

theorem operandsFrom_eq_ok {first : Option Device} {i : Nat}
    (hops : w.operandsFrom gid g first i handles = .ok nodes) :
    handles = nodes.map (fun p => some ⟨gid, (p.1 : Nat)⟩) ∧ (∀ p ∈ nodes, g.node? p.1 = some p.2) ∧
      ∃ device, (∀ d, first = some d → d = device) ∧ ∀ p ∈ nodes, p.2.device = device := by
  induction handles generalizing first i nodes with
  | nil =>
    obtain rfl := Except.ok.inj hops
    refine ⟨rfl, nofun, first.getD .cpu, ?_, nofun⟩
    rintro d rfl
    rfl
  | cons h handles ih =>
    obtain ⟨⟨id, n⟩, hown, hops⟩ := bind_eq_ok hops
    by_cases hdevice : n.device = first.getD n.device
    · simp only [← hdevice, ne_eq] at hops
      obtain ⟨rest, hrest, hops⟩ := bind_eq_ok hops
      obtain rfl := Except.ok.inj hops
      obtain ⟨rfl, hn⟩ := owned_eq_ok hown
      obtain ⟨rfl, hnodes, device, hfirst, hrest⟩ := ih hrest
      obtain rfl := hfirst n.device rfl
      refine ⟨rfl, forall_mem_cons.mpr ⟨hn, hnodes⟩, n.device, ?_, forall_mem_cons.mpr ⟨rfl, hrest⟩⟩
      rintro d rfl
      exact hdevice.symm
    · simp only [ne_eq, hdevice] at hops
      cases hops

theorem operandsFrom_of_nodes {first : Option Device} (i : Nat) (hnodes : ∀ p ∈ nodes, g.node? p.1 = some p.2)
    (hdevice : ∀ p ∈ nodes, p.2.device = device) (hfirst : ∀ d, first = some d → d = device) :
    w.operandsFrom gid g first i (nodes.map fun p => some ⟨gid, (p.1 : Nat)⟩) = .ok nodes := by
  induction nodes generalizing first i with
  | nil => rfl
  | cons p nodes ih =>
    obtain ⟨id, n⟩ := p
    have hown : w.owned gid g (some ⟨gid, (id : Nat)⟩) = .ok (id, n) :=
      owned_of_node? (hnodes (id, n) (.head _))
    have hn : n.device = device := hdevice (id, n) (.head _)
    have hdev : first.getD device = device := by
      cases first with
      | none => rfl
      | some d => exact hfirst d rfl
    have hrest : w.operandsFrom gid g (some device) (i + 1) _ = .ok nodes :=
      ih (i + 1) (fun p hp => hnodes p (.tail _ hp))
        (fun p hp => hdevice p (.tail _ hp)) (fun d hd => (Option.some.inj hd).symm)
    simp only [map_cons, operandsFrom, hown, hn, hdev, hrest, bind, Except.bind]
    exact if_neg fun h => h rfl

/-- Operands are resolved exactly if they are nodes of one graph on one device. -/
theorem operands_eq_ok_iff :
    w.operands handles = .ok (gid, g, nodes) ↔ nodes ≠ [] ∧ ∃ device, w.AreNodes handles gid g device nodes := by
  constructor
  · intro hops
    rw [operands.eq_def] at hops
    split at hops
    · split at hops
      · cases hops
      · rename_i hg
        obtain ⟨found, hfrom, hops⟩ := bind_eq_ok hops
        cases hops
        obtain ⟨hhandles, hnodes, device, -, hdevice⟩ := operandsFrom_eq_ok hfrom
        refine ⟨?_, device, hg, hhandles, hnodes, hdevice⟩
        rintro rfl
        cases hhandles
    · cases hops
  · rintro ⟨hne, device, hg, rfl, hnodes, hdevice⟩
    obtain ⟨first, rest, rfl⟩ := exists_cons_of_ne_nil hne
    have hfrom : w.operandsFrom gid g none 0 _ = .ok (first :: rest) :=
      operandsFrom_of_nodes 0 hnodes hdevice fun _ hd => by cases hd
    rw [map_cons] at hfrom ⊢
    simp only [operands, hg, hfrom]
    rfl

/-! ## Calls -/

theorem pushSource_eq_ok_iff {rule : Except Reason Unit} {op : Operation} :
    w.pushSource graph device s rule op = .ok r ↔ ∃ gid g, graph = some gid ∧ w.graph? gid = some g ∧
      device.ok = true ∧ s.Valid ∧ rule = .ok () ∧ w.push gid g ⟨op, s, device, []⟩ = r := by
  constructor
  · intro hp
    simp only [pushSource] at hp
    split at hp
    · rename_i gid g hgraph
      obtain ⟨gid', rfl, hfound⟩ := bind_eq_some_iff.mp hgraph
      obtain ⟨g', hg', heq⟩ := map_eq_some_iff.mp hfound
      obtain ⟨rfl, rfl⟩ := Prod.mk.inj heq
      obtain ⟨⟨⟩, hdevice, hp⟩ := bind_eq_ok hp
      obtain ⟨⟨⟩, hshape, hp⟩ := bind_eq_ok hp
      obtain ⟨⟨⟩, hrule, hp⟩ := bind_eq_ok hp
      exact ⟨gid', g', rfl, hg', checkDevice_eq_ok_iff.mp hdevice, checkShape_eq_ok_iff.mp hshape, hrule,
        Except.ok.inj hp⟩
    · cases hp
  · rintro ⟨gid, g, rfl, hg, hdevice, hshape, rfl, rfl⟩
    simp only [pushSource, bind_some, hg, checkDevice_eq_ok_iff.mpr hdevice,
      checkShape_eq_ok_iff.mpr hshape]
    rfl

theorem pushSource_iff_builds {rule : Except Reason Unit} {op : Operation} (hsource : c.source? = some (graph, device))
    (hoperands : c.operands = [])
    (hrule : ∀ op' s', c.Rule [] op' s' ↔ device.ok = true ∧ s.Valid ∧ rule = .ok () ∧ op' = op ∧ s' = s) :
    w.pushSource graph device s rule op = .ok r ↔ w.Builds c r := by
  rw [pushSource_eq_ok_iff]
  constructor
  · rintro ⟨gid, g, rfl, hg, hdevice, hs, hchecked, hpush⟩
    refine ⟨gid, g, ⟨op, s, device, []⟩, ⟨?_, [], ⟨hg, hoperands, ?_, ?_⟩, rfl, ?_⟩, hpush⟩
    · intro graph d hd
      obtain ⟨rfl, rfl⟩ := Prod.mk.inj (Option.some.inj (hsource.symm.trans hd))
      exact ⟨rfl, rfl⟩
    · exact fun p hp => absurd hp not_mem_nil
    · exact fun p hp => absurd hp not_mem_nil
    · exact (hrule op s).mpr ⟨hdevice, hs, hchecked, rfl, rfl⟩
  · rintro ⟨gid, g, ⟨op', s', device', inputs⟩, ⟨hnamed, nodes, hnodes, hinputs, hr⟩, hpush⟩
    obtain ⟨rfl, rfl⟩ := hnamed graph device hsource
    obtain rfl : nodes = [] := map_eq_nil_iff.mp (hnodes.handles_eq.symm.trans hoperands)
    obtain rfl : inputs = [] := hinputs
    obtain ⟨hdevice, hs, hchecked, rfl, rfl⟩ := (hrule op' s').mp hr
    exact ⟨gid, g, rfl, hnodes.graph, hdevice, hs, hchecked, hpush⟩

theorem pushOperation_iff_builds {rule : List Shape → Except Reason Shape} {op : List Shape → Operation}
    (hsource : c.source? = none) (hnil : ∀ op' s, ¬ c.Rule [] op' s)
    (hrule : ∀ gid g device nodes, w.AreNodes c.operands gid g device nodes → nodes ≠ [] → ∀ op' s,
      c.Rule (nodes.map (·.2.shape)) op' s ↔
        op' = op (nodes.map (·.2.shape)) ∧ rule (nodes.map (·.2.shape)) = .ok s) :
    w.pushOperation c.operands rule op = .ok r ↔ w.Builds c r := by
  constructor
  · intro hp
    obtain ⟨⟨gid, g, nodes⟩, hops, hp⟩ := bind_eq_ok hp
    obtain ⟨s, hs, hp⟩ := bind_eq_ok hp
    obtain ⟨hne, device, hnodes⟩ := operands_eq_ok_iff.mp hops
    obtain ⟨first, rest, rfl⟩ := exists_cons_of_ne_nil hne
    have hdevice : first.2.device = device := hnodes.onDevice first (.head _)
    refine ⟨gid, g, _, ⟨?_, first :: rest, ?_, rfl, ?_⟩, Except.ok.inj hp⟩
    · intro graph d hd
      rw [hsource] at hd
      cases hd
    · rwa [← hdevice] at hnodes
    · exact (hrule gid g device _ hnodes hne _ s).mpr ⟨rfl, hs⟩
  · rintro ⟨gid, g, ⟨op', s, device, inputs⟩, ⟨-, nodes, hnodes, rfl, hr⟩, hpush⟩
    have hne : nodes ≠ [] := by
      rintro rfl
      exact hnil op' s hr
    obtain ⟨rfl, hs⟩ := (hrule gid g device nodes hnodes hne op' s).mp hr
    obtain ⟨first, rest, rfl⟩ := exists_cons_of_ne_nil hne
    obtain rfl : first.2.device = device := hnodes.onDevice first (.head _)
    simp only [pushOperation, operands_eq_ok_iff.mpr ⟨hne, _, hnodes⟩, hs, bind, Except.bind]
    exact congrArg Except.ok hpush

theorem AreNodes.valid (hnodes : w.AreNodes handles gid g device nodes) (hw : w.WellFormed) :
    ∀ p ∈ nodes, p.2.shape.Valid :=
  fun p hp => ((hw gid g hnodes.graph).fits p.1 p.2 (hnodes.isNode p hp)).valid

theorem construct_fill_iff {value : Double} :
    w.construct (.fill graph device s value) = .ok r ↔ w.Builds (.fill graph device s value) r := by
  rw [construct, mapError_eq_ok_iff]
  refine pushSource_iff_builds rfl rfl fun op s' => ⟨fun h => ?_, ?_⟩
  · cases h with
    | fill _ _ hdevice hs => exact ⟨hdevice, hs, rfl, rfl, rfl⟩
  · rintro ⟨hdevice, hs, -, rfl, rfl⟩
    exact .fill graph value hdevice hs

theorem construct_arange_iff {start step : Double} :
    w.construct (.arange graph device s start step) = .ok r ↔ w.Builds (.arange graph device s start step) r := by
  rw [construct, mapError_eq_ok_iff]
  refine pushSource_iff_builds rfl rfl fun op s' => ⟨fun h => ?_, ?_⟩
  · cases h with
    | arange _ _ _ hdevice hs hrank => exact ⟨hdevice, hs, checkRankOne_eq_ok_iff.mpr hrank, rfl, rfl⟩
  · rintro ⟨hdevice, hs, hrank, rfl, rfl⟩
    exact .arange graph start step hdevice hs (checkRankOne_eq_ok_iff.mp hrank)

theorem construct_arangeFromTo_eq_ok_iff {start stop : Double} :
    w.construct (.arangeFromTo graph device s start stop) = .ok r ↔
      w.pushSource graph device s (checkRankOne s) (.arange start (stepBetween start stop (s.dims.headD 1))) = .ok r := by
  constructor
  · intro hc
    obtain ⟨⟨⟩, -, hc⟩ := bind_eq_ok hc
    obtain ⟨⟨⟩, -, hc⟩ := bind_eq_ok hc
    exact mapError_eq_ok_iff.mp hc
  · intro hp
    obtain ⟨gid, g, -, -, -, hs, hrank, -⟩ := pushSource_eq_ok_iff.mp hp
    rw [hrank] at hp
    simp only [construct, checkShape_eq_ok_iff.mpr hs, hrank]
    exact mapError_eq_ok_iff.mpr hp

theorem construct_arangeFromTo_iff {graph : Option GraphId} {s : Shape} {start stop : Double}
    {r : Handle × Workspace} : w.construct (.arangeFromTo graph device s start stop) = .ok r ↔
      w.Builds (.arangeFromTo graph device s start stop) r := by
  rw [construct_arangeFromTo_eq_ok_iff]
  refine pushSource_iff_builds rfl rfl fun op s' => ⟨fun h => ?_, ?_⟩
  · cases h with
    | arangeFromTo _ _ _ hdevice hs => exact ⟨hdevice, hs, rfl, rfl, rfl⟩
  · rintro ⟨hdevice, hs, hrank, rfl, rfl⟩
    obtain ⟨t, dims⟩ := s'
    obtain ⟨count, rfl⟩ := length_eq_one_iff.mp (checkRankOne_eq_ok_iff.mp hrank)
    exact .arangeFromTo graph start stop hdevice hs

theorem construct_elementwise_iff :
    w.construct (.elementwise e handles) = .ok r ↔ w.Builds (.elementwise e handles) r := by
  rw [construct, mapError_eq_ok_iff]
  refine pushOperation_iff_builds (c := .elementwise e handles) rfl ?_ fun gid g device nodes _ _ => ?_
  · -- every elementwise operation has an operand
    intro op s h
    generalize hshapes : ([] : List Shape) = shapes at h
    cases h
    cases e <;> cases hshapes
  · generalize nodes.map (·.2.shape) = shapes
    refine fun op s => ⟨fun h => ?_, ?_⟩
    · cases h with
      | elementwise _ hdefined => exact ⟨rfl, elementwiseShape_eq_ok_iff.mpr ⟨rfl, hdefined⟩⟩
    · rintro ⟨rfl, hrule⟩
      obtain ⟨rfl, hdefined⟩ := elementwiseShape_eq_ok_iff.mp hrule
      exact .elementwise handles hdefined

theorem construct_matMul_iff {lhs rhs : Handle} :
    w.construct (.matMul lhs rhs) = .ok r ↔ w.Builds (.matMul lhs rhs) r := by
  rw [construct, mapError_eq_ok_iff]
  refine pushOperation_iff_builds (c := .matMul lhs rhs) rfl (fun _ _ h => by cases h) fun gid g device nodes _ _ => ?_
  generalize nodes.map (·.2.shape) = shapes
  refine fun op s => ⟨fun h => ?_, ?_⟩
  · cases h with
    | matMul _ _ hproduct => exact ⟨rfl, productShape_eq_ok_iff.mpr hproduct⟩
  · rintro ⟨rfl, hrule⟩
    split at hrule
    · exact .matMul lhs rhs (productShape_eq_ok_iff.mp hrule)
    · cases hrule

theorem construct_matMulAxpby_iff {lhs rhs bias : Handle} {alpha beta : Double} :
    w.construct (.matMulAxpby lhs rhs bias alpha beta) = .ok r ↔ w.Builds (.matMulAxpby lhs rhs bias alpha beta) r := by
  rw [construct, mapError_eq_ok_iff]
  refine pushOperation_iff_builds (c := .matMulAxpby lhs rhs bias alpha beta) rfl (fun _ _ h => by cases h)
    fun gid g device nodes _ _ => ?_
  generalize nodes.map (·.2.shape) = shapes
  refine fun op s => ⟨fun h => ?_, ?_⟩
  · cases h with
    | matMulAxpby _ _ _ _ _ hproduct =>
      refine ⟨rfl, ?_⟩
      simp only [productShape_eq_ok_iff.mpr hproduct]
      exact if_neg fun h => h rfl
  · rintro ⟨rfl, hrule⟩
    split at hrule
    · rename_i l r b
      obtain ⟨product, hproduct, hrule⟩ := bind_eq_ok hrule
      split at hrule
      · cases hrule
      · rename_i hbias
        cases hrule
        obtain rfl : b = s := Decidable.not_not.mp hbias
        exact .matMulAxpby lhs rhs bias alpha beta (productShape_eq_ok_iff.mp hproduct)
    · cases hrule

theorem construct_transpose_iff {x : Handle} :
    w.construct (.transpose x permutation) = .ok r ↔ w.Builds (.transpose x permutation) r := by
  rw [construct, mapError_eq_ok_iff]
  refine pushOperation_iff_builds (c := .transpose x permutation) rfl (fun _ _ h => by cases h)
    fun gid g device nodes _ _ => ?_
  generalize nodes.map (·.2.shape) = shapes
  refine fun op s => ⟨fun h => ?_, ?_⟩
  · cases h with
    | transpose _ hpermuted => exact ⟨rfl, transposeShape_eq_ok_iff.mpr hpermuted⟩
  · rintro ⟨rfl, hrule⟩
    split at hrule
    · exact .transpose x (transposeShape_eq_ok_iff.mp hrule)
    · cases hrule

theorem AreNodes.isNode_of_singleton (hnodes : w.AreNodes [h] gid g device nodes) :
    ∃ id n, nodes = [(id, n)] ∧ w.IsNode gid h n := by
  have hlength := congrArg length hnodes.handles_eq
  rw [length_map] at hlength
  obtain ⟨⟨id, n⟩, rfl⟩ := length_eq_one_iff.mp hlength.symm
  have hn := hnodes.isNode (id, n) (.head _)
  exact ⟨id, n, rfl, g, id, hnodes.graph, hn, (List.cons.inj hnodes.handles_eq).1⟩

theorem IsNode.unique {gid' : GraphId} {n' : Node} (hn : w.IsNode gid h n) (hn' : w.IsNode gid' h n') : n = n' := by
  obtain ⟨g, id, hg, hnode, rfl⟩ := hn
  obtain ⟨g', id', hg', hnode', heq⟩ := hn'
  obtain ⟨rfl, hid⟩ := NodeRef.mk.inj (Option.some.inj heq)
  obtain rfl : id = id' := Int.ofNat.inj hid
  obtain rfl := Option.some.inj (hg.symm.trans hg')
  exact Option.some.inj (hnode.symm.trans hnode')

theorem not_builds_cast_same (hnode : w.IsNode gid h n) : ¬ w.Builds (.cast h n.shape.dtype) r := by
  rintro ⟨gid', g, ⟨op, s, device, inputs⟩, ⟨-, nodes, hnodes, -, hrule⟩, -⟩
  obtain ⟨id, n', rfl, hnode'⟩ := hnodes.isNode_of_singleton
  obtain rfl := hnode.unique hnode'
  cases hrule with
  | cast _ _ hother => exact hother rfl

theorem construct_cast_same (hnode : w.IsNode gid h n) : w.construct (.cast h n.shape.dtype) = .ok (h, w) := by
  obtain ⟨g, id, hg, hn, rfl⟩ := hnode
  have hops : w.operands [some ⟨gid, id⟩] = .ok (gid, g, [(id, n)]) := by
    refine operands_eq_ok_iff.mpr ⟨cons_ne_nil _ _, n.device, hg, rfl, ?_, ?_⟩
    · exact fun p hp => mem_singleton.mp hp ▸ hn
    · exact fun p hp => mem_singleton.mp hp ▸ rfl
  simp only [construct, hops, mapError_ok, any_cons, beq_self_eq_true, bind, Except.bind]
  rfl

/-- A conversion to another data type builds a node if this type is supported, as the dimensions of the operand
are valid. -/
theorem construct_cast_other (hw : w.WellFormed) {dtype : DType}
    (hother : ∀ gid n, w.IsNode gid h n → n.shape.dtype ≠ dtype) :
    w.construct (.cast h dtype) = .ok r ↔ w.Builds (.cast h dtype) r := by
  cases hops : w.operands [h] with
  | error e =>
    refine ⟨fun hc => ?_, ?_⟩
    · obtain ⟨found, hfound, -⟩ := bind_eq_ok hc
      rw [hops] at hfound
      cases hfound
    · rintro ⟨gid, g, n, ⟨-, nodes, hnodes, -, -⟩, -⟩
      obtain ⟨id, n', rfl, -⟩ := hnodes.isNode_of_singleton
      have hfound : w.operands [h] = .ok _ := operands_eq_ok_iff.mpr ⟨cons_ne_nil _ _, _, hnodes⟩
      rw [hfound] at hops
      cases hops
  | ok found =>
    obtain ⟨gid, g, nodes⟩ := found
    obtain ⟨-, device, hnodes⟩ := operands_eq_ok_iff.mp hops
    obtain ⟨id, n, rfl, hnode⟩ := hnodes.isNode_of_singleton
    have hdtype : (n.shape.dtype == dtype) = false := beq_false_of_ne (hother gid n hnode)
    simp only [construct, hops, mapError_ok, any_cons, hdtype, bind, Except.bind]
    refine mapError_eq_ok_iff.trans (pushOperation_iff_builds (c := .cast h dtype) rfl (fun _ _ h => by cases h) ?_)
    intro gid' g' device' nodes' hnodes' _ op s
    obtain ⟨id', n', rfl, hnode'⟩ := hnodes'.isNode_of_singleton
    refine ⟨fun h => ?_, ?_⟩
    · cases h with
      | cast _ hsupported _ =>
        -- the dimensions are those of a node, so only the type can be rejected
        have hvalid : (n'.shape.withDType dtype).Valid :=
          ⟨hsupported, (hnodes'.valid hw (id', n') (.head _)).positive⟩
        refine ⟨rfl, ?_⟩
        simp only [map_cons, map_nil, checkShape_eq_ok_iff.mpr hvalid]
        rfl
    · rintro ⟨rfl, hrule⟩
      obtain ⟨⟨⟩, hcheck, hrule⟩ := bind_eq_ok hrule
      cases hrule
      exact .cast h (checkShape_eq_ok_iff.mp hcheck).supported (hother gid' n' hnode')

/-- Exactly the calls that the rules allow are accepted. They add a node at the end of a graph, or give back
an operand that has the data type already. -/
theorem construct_eq_ok_iff (hw : w.WellFormed) :
    w.construct c = .ok (h, w') ↔ w.Builds c (h, w') ∨ (w.KeepsType c h ∧ w' = w) := by
  by_cases hkeeps : ∃ h, w.KeepsType c h
  · obtain ⟨x, gid, n, hnode, rfl⟩ := hkeeps
    rw [construct_cast_same hnode, or_iff_right (not_builds_cast_same hnode)]
    refine ⟨fun heq => ?_, ?_⟩
    · cases heq
      exact ⟨⟨gid, n, hnode, rfl⟩, rfl⟩
    · rintro ⟨⟨gid', n', -, heq⟩, rfl⟩
      rw [(Construction.cast.inj heq).1]
  · rw [or_iff_left fun hk => hkeeps ⟨h, hk.1⟩]
    cases c with
    | fill graph device s value => exact construct_fill_iff
    | arange graph device s start step => exact construct_arange_iff
    | arangeFromTo graph device s start stop => exact construct_arangeFromTo_iff
    | elementwise e operands => exact construct_elementwise_iff
    | matMul lhs rhs => exact construct_matMul_iff
    | matMulAxpby lhs rhs bias alpha beta => exact construct_matMulAxpby_iff
    | transpose x permutation => exact construct_transpose_iff
    | cast x dtype =>
      refine construct_cast_other hw fun gid n hnode hdtype => hkeeps ⟨x, gid, n, hnode, ?_⟩
      rw [hdtype]

/-! ## New nodes -/

/-- The call added a node that fits at the end of the graph of its operands. -/
def Adds (w : Workspace) (operands : List Handle) (h : Handle) (w' : Workspace) : Prop :=
  ∃ (gid : Nat) (g : Graph) (n : Node), w.graph? gid = some g ∧ g.Fits g.size n ∧ n.op.kind ≠ .fused ∧
    (∀ i : Nat, i ∈ n.inputs → some ⟨gid, i⟩ ∈ operands) ∧
    h = some ⟨gid, g.size⟩ ∧ w' = w.setGraph gid (g.push n).2

/-- A node that the rules allow fits at the end of the graph. -/
theorem Allows.fits (hallows : w.Allows c gid g n) (hw : w.WellFormed) : g.Fits g.size n := by
  obtain ⟨nodes, hnodes, hinputs, hrule⟩ := hallows.operands
  have hshapes : n.inputs.map g.shapeOf = nodes.map (·.2.shape) := by
    rw [hinputs, List.map_map]
    exact map_congr_left fun p hp => Graph.shapeOf_eq_of_node? (hnodes.isNode p hp)
  have hinput : ∀ i ∈ n.inputs, ∃ m, g.node? i = some m ∧ m.device = n.device := by
    intro i hi
    rw [hinputs] at hi
    obtain ⟨p, hp, rfl⟩ := List.mem_map.mp hi
    exact ⟨p.2, hnodes.isNode p hp, hnodes.onDevice p hp⟩
  exact {
    inputs_lt := fun i hi => by
      obtain ⟨m, hm, -⟩ := hinput i hi
      exact Graph.lt_size_of_node? hm
    accepts := hshapes ▸ hrule.accepts
    valid := hrule.valid (forall_mem_map.mpr (hnodes.valid hw))
    device_ok := by
      -- without operands the rule has checked the device, else it is that of an operand
      cases nodes with
      | nil =>
        obtain ⟨graph, device, hsource, hdevice⟩ := hrule.source
        rwa [← (hallows.source graph device hsource).2]
      | cons p nodes =>
        rw [← hnodes.onDevice p (.head _)]
        exact ((hw gid g hnodes.graph).fits p.1 p.2 (hnodes.isNode p (.head _))).device_ok
    same_device := fun i hi => by
      obtain ⟨m, hm, hdevice⟩ := hinput i hi
      rw [Graph.deviceOf_eq_of_node? hm, hdevice]
    distinct := fun hfused => absurd hfused hrule.kind_ne_fused }

/-- All that an accepted call can do. -/
theorem construct_cases (hw : w.WellFormed) (hc : w.construct c = .ok (h, w')) :
    w.Adds c.operands h w' ∨ (w' = w ∧ c.operands = [h]) := by
  rcases (construct_eq_ok_iff hw).mp hc with ⟨gid, g, n, hallows, hpush⟩ | ⟨⟨gid, n, -, rfl⟩, rfl⟩
  · obtain ⟨nodes, hnodes, hinputs, hrule⟩ := hallows.operands
    cases hpush
    refine .inl ⟨gid, g, n, hnodes.graph, hallows.fits hw, hrule.kind_ne_fused, fun i hi => ?_, rfl, rfl⟩
    rw [hinputs] at hi
    obtain ⟨p, hp, rfl⟩ := List.mem_map.mp hi
    rw [hnodes.handles_eq]
    exact List.mem_map.mpr ⟨p, hp, rfl⟩
  · exact .inr ⟨rfl, rfl⟩

theorem WellFormed.construct (hw : w.WellFormed) (hc : w.construct c = .ok (h, w')) :
    w'.WellFormed := by
  rcases construct_cases hw hc with ⟨gid, g, n, hg, hfits, -, -, -, rfl⟩ | ⟨rfl, -⟩
  · intro j g' hj
    rw [graph?_setGraph hg] at hj
    split at hj
    · obtain rfl := Option.some.inj hj
      exact (hw gid g hg).push hfits
    · exact hw j g' hj
  · exact hw

end Workspace

end LazyTensor
