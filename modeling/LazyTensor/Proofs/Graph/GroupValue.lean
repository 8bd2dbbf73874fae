import LazyTensor.Proofs.Graph.Fusion
import LazyTensor.Proofs.Graph.Value

/-!
# The value of a fused group

The program of a group computes in each lane what its members compute one after the other. Unless elements
have 16 bits, they are neither widened nor rounded, so the last step of the program gives the elements of
the terminal node, and the program has no result just if a member has none (`IsGroup.value?_fused`).
-/

namespace LazyTensor

open List Option

namespace Graph

open Kernel

variable {g : Graph} {c : Consumers} {terminal id m : Nat} {members : List Nat} {n : Node} {t : ElementType}
  {l : Layout}

/-! ## Elements of nodes -/

/-- The element of a node at an index, as the word to compute with. -/
def elementAt (g : Graph) (t : ElementType) (i id : Nat) : Option t.Lane :=
  (g.value? id).bind fun v => (v.flat.as? t).bind fun data => data[i]?.map t.widen

theorem elementAt_eq {shape : Shape} {xs : Array t.Elem} (hv : g.value? id = some ⟨shape, .ofElements t xs⟩) (i : Nat) :
    g.elementAt t i id = xs[i]?.map t.widen := by
  rw [elementAt, hv, bind_some, Flat.as?_ofElements, bind_some]

theorem WellFormed.exists_elements (h : g.WellFormed) (ht : (g.shapeOf id).dtype.element? = some t) {v : Value}
    (hv : g.value? id = some v) : ∃ data : Array t.Elem, v.flat = .ofElements t data := by
  cases hn : g.node? id with
  | none =>
    rw [value?_eq_none hn] at hv
    cases hv
  | some n =>
    obtain ⟨-, values, -, hflat⟩ := (h.value?_eq_some_iff hn).mp hv
    rw [shapeOf_eq_of_node? hn] at ht
    rw [Operation.value?, ht] at hflat
    split at hflat
    · rename_i l t' hl ht'
      obtain rfl := Option.some.inj ht'
      obtain ⟨data, -, hdata⟩ := map_eq_some_iff.mp hflat
      exact ⟨data, hdata.symm⟩
    · cases hflat

theorem WellFormed.exists_lanes (h : g.WellFormed) {ids : List Nat} {values : List Value}
    (ht : ∀ j : Nat, j ∈ ids → (g.shapeOf j).dtype.element? = some t) (hvalues : ids.mapM g.value? = some values) :
    ∃ data, (values.mapM fun v => v.flat.as? t) = some data ∧
      ∀ i k : Nat, (lane data.toArray i k).map t.widen = ids[k]?.bind (g.elementAt t i) := by
  induction ids generalizing values with
  | nil =>
    obtain rfl := Option.some.inj hvalues
    exact ⟨[], rfl, fun i k => rfl⟩
  | cons id ids ih =>
    rw [mapM_cons] at hvalues
    obtain ⟨v, hv, hvalues⟩ := bind_eq_some_iff.mp hvalues
    obtain ⟨values', hvalues', heq⟩ := bind_eq_some_iff.mp hvalues
    obtain rfl := Option.some.inj heq
    obtain ⟨data, hdata, hlanes⟩ := ih (fun j hj => ht j (.tail _ hj)) hvalues'
    obtain ⟨first, hfirst⟩ := h.exists_elements (ht id (.head _)) hv
    refine ⟨first :: data, ?_, fun i k => ?_⟩
    · rw [mapM_cons, hfirst, Flat.as?_ofElements, hdata]
      rfl
    · cases k with
      | zero => simp [lane, elementAt, hv, hfirst]
      | succ k =>
        rw [getElem?_cons_succ, ← hlanes, lane, lane, getElem?_toArray, getElem?_toArray,
          getElem?_cons_succ]

/-- The value of a node is computed lane by lane: it has the results of all `count` lanes as elements, or it has no
value and a lane has no result. -/
def Computed (g : Graph) (t : ElementType) (id : Nat) (shape : Shape) (count : Nat) (result : Nat → Option t.Lane) :
    Prop :=
  (∃ xs, g.value? id = some ⟨shape, .ofElements t xs⟩ ∧ xs.size = count ∧
    ∀ i : Nat, i < count → xs[i]?.map t.widen = result i) ∨
  (g.value? id = none ∧ ∃ i : Nat, i < count ∧ result i = none)

theorem Computed.unique {g' : Graph} {id' : Nat} {shape : Shape} {count : Nat} {result : Nat → Option t.Lane}
    (h : g.Computed t id shape count result) (h' : g'.Computed t id' shape count result) (hhalf : t.isHalf = false) :
    g'.value? id' = g.value? id := by
  have hlane : ∀ (xs : Array t.Elem) (i : Nat), xs.size = count → i < count → xs[i]?.map t.widen ≠ none := by
    intro xs i hsize hi
    rw [Array.getElem?_eq_getElem (by omega)]
    exact nofun
  rcases h with ⟨xs, hvalue, hsize, hget⟩ | ⟨hnone, i, hi, hresult⟩
  · rcases h' with ⟨ys, hvalue', hsize', hget'⟩ | ⟨-, i, hi, hresult⟩
    · have heq : ys = xs := by
        refine Array.ext (by omega) fun i hi hi' => ?_
        have hsame := congrArg (Option.map t.narrow) ((hget' i (by omega)).trans (hget i (by omega)).symm)
        rw [Option.map_map, Option.map_map, ElementType.narrow_comp_widen hhalf, Array.getElem?_eq_getElem hi,
          Array.getElem?_eq_getElem hi'] at hsame
        exact Option.some.inj hsame
      rw [hvalue, hvalue', heq]
    · exact absurd ((hget i hi).trans hresult) (hlane xs i hsize hi)
  · rcases h' with ⟨ys, -, hsize', hget'⟩ | ⟨hnone', -⟩
    · exact absurd ((hget' i hi).trans hresult) (hlane ys i hsize' hi)
    · rw [hnone, hnone']

theorem WellFormed.computed_program (h : g.WellFormed) {p : Program} (hn : g.node? id = some n)
    (hp : n.op.program? n.shape.dtype = some p) (ht : n.shape.dtype.element? = some t) (hhalf : t.isHalf = false)
    (hl : Layout.make n.shape.dtype n.shape.size = .ok l)
    (hinputs : ∀ j : Nat, j ∈ n.inputs → g.shapeOf j = n.shape ∧ (g.value? j).isSome = true) :
    g.Computed t id n.shape l.size fun i =>
      (resultsAt (fun k => n.inputs[k]?.bind (g.elementAt t i)) #[] p.steps).bind (·.back?) := by
  let result (i : Nat) := (resultsAt (fun k => n.inputs[k]?.bind (g.elementAt t i)) #[] p.steps).bind (·.back?)
  obtain ⟨values, hvalues⟩ : ∃ values, n.inputs.mapM g.value? = some values := by
    cases hvalues : n.inputs.mapM g.value? with
    | some values => exact ⟨values, rfl⟩
    | none =>
      obtain ⟨j, hj, hnone⟩ := mapM_eq_none_iff.mp hvalues
      have hsome := (hinputs j hj).2
      rw [hnone] at hsome
      cases hsome
  obtain ⟨data, hdata, hlanes⟩ := h.exists_lanes (fun j hj => by rw [(hinputs j hj).1]; exact ht) hvalues
  -- narrowing an element and reading it back changes nothing, as the type is no half type
  have hresult : ∀ i : Nat, programAt t p data.toArray i = (result i).map t.narrow := by
    intro i
    rw [programAt, funext (hlanes i)]
  have hvalue : g.value? id = (programTable? t p data.toArray l.size).map fun xs => ⟨n.shape, .ofElements t xs⟩ := by
    rw [h.value?_eq hn, hvalues, bind_some, Operation.value?, hl, ht]
    simp only [Operation.elements?_of_program? hp, Operation.programElements?, hdata, Option.map_map]
    rfl
  cases htable : programTable? t p data.toArray l.size with
  | none =>
    obtain ⟨i, hi, hnone⟩ := table?_eq_none_iff.mp htable
    refine .inr ⟨by rw [hvalue, htable]; rfl, i, hi, ?_⟩
    rw [hresult, map_eq_none_iff] at hnone
    exact hnone
  | some xs =>
    rw [htable] at hvalue
    obtain ⟨hsize, hget⟩ := table?_eq_some_iff.mp htable
    refine .inl ⟨xs, hvalue, hsize, fun i hi => ?_⟩
    rw [hget i hi, hresult, Option.map_map, ElementType.widen_comp_narrow hhalf, map_id_apply]

/-! ## Members -/

namespace IsGroup

variable (s : g.IsGroup c terminal members) (h : g.WellFormed)

include s h

theorem reaches (hm : m ∈ members) : terminal = m ∨ g.DependsOn terminal m := by
  -- a member is an input of a later one, so the induction is on the distance to the terminal node
  induction hdistance : terminal - m using Nat.strongRecOn generalizing m with
  | ind distance ih =>
    by_cases hterminal : m = terminal
    · exact .inl hterminal.symm
    · obtain ⟨k, hk, hinput⟩ := s.consumed m hm hterminal
      have hlt := h.inputs_lt hinput
      have hle := s.le_terminal k hk
      rcases ih (terminal - k) (by omega) hk rfl with rfl | hreach
      · exact .inr (.input hinput)
      · exact .inr (hreach.trans (.input hinput))

theorem dependsOn_external {x : Nat} (hx : x ∈ g.externals members) : g.DependsOn terminal x := by
  obtain ⟨⟨m, hm, hinput⟩, -⟩ := mem_externals.mp hx
  rcases s.reaches h hm with rfl | hreach
  · exact .input hinput
  · exact hreach.trans (.input hinput)

/-- In a lane, the step of a member is its operation on the elements of its inputs, if the earlier results are the
elements of the earlier members. -/
theorem stepAt_member {k i : Nat} {e : Elementwise}
    (hm : members[k]? = some m) (hmember : g.Member terminal m n e) {column : Array t.Lane}
    (hcolumn : ∀ j : Nat, j < k → column[j]? = members[j]?.bind (g.elementAt t i)) :
    stepAt (fun j => (g.externals members)[j]?.bind (g.elementAt t i)) column
        ⟨.elementwise e, n.inputs.map (stepOperand members (g.externals members))⟩ =
      (n.inputs.mapM (g.elementAt t i)).bind (applyAt (.elementwise e)) := by
  rw [stepAt, mapM_map]
  congr 1
  refine mapM_congr fun j hj => ?_
  rw [← inputs_eq_of_node? hmember.node] at hj
  rcases s.operand h hm hj with ⟨place, hplace, hget, hoperand⟩ | ⟨place, hget, hoperand⟩
  · rw [Function.comp_apply, hoperand, operandAt, Int.toNat_natCast, hcolumn place hplace, hget, bind_some]
  · rw [Function.comp_apply, hoperand, operandAt, Int.toNat_natCast, hget, bind_some]

/-- The first `k` steps of the program of a group in each lane: they give the elements of the first `k` members, or
there is a lane without a result, and a member has no value. -/
theorem take_cases (ht : (g.shapeOf terminal).dtype.element? = some t) (hhalf : t.isHalf = false)
    (hl : Layout.make (g.shapeOf terminal).dtype (g.shapeOf terminal).size = .ok l)
    (hexternals : ∀ x : Nat, x ∈ g.externals members → (g.value? x).isSome = true) {k : Nat}
    (hk : k ≤ members.length) :
    let steps := (g.groupProgram (g.shapeOf terminal).dtype members (g.externals members)).steps
    let inputs (i j : Nat) := (g.externals members)[j]?.bind (g.elementAt t i)
    ((∀ m : Nat, m ∈ members.take k →
        ∃ xs, g.value? m = some ⟨g.shapeOf terminal, .ofElements t xs⟩ ∧ xs.size = l.size) ∧
      ∀ i : Nat, i < l.size → ∃ column, resultsAt (inputs i) #[] (steps.take k) = some column ∧ column.size = k ∧
        ∀ j : Nat, j < k → column[j]? = members[j]?.bind (g.elementAt t i)) ∨
    ((∃ m ∈ members, g.value? m = none) ∧
      ∃ i : Nat, i < l.size ∧ resultsAt (inputs i) #[] (steps.take k) = none) := by
  intro steps inputs
  induction k with
  | zero => exact .inl ⟨nofun, fun i _ => ⟨#[], rfl, rfl, fun j hj => absurd hj (Nat.not_lt_zero j)⟩⟩
  | succ k ih =>
    have hm := getElem?_eq_getElem (Nat.lt_of_succ_le hk)
    generalize members[k] = m at hm
    obtain ⟨n, e, hmember, hstep⟩ := s.getElem?_steps hm
    have htake : steps.take (k + 1) =
        steps.take k ++ [⟨.elementwise e, n.inputs.map (stepOperand members (g.externals members))⟩] := by
      rw [take_add_one, hstep]
      rfl
    simp only [htake, resultsAt_append]
    rcases ih (Nat.le_of_succ_le hk) with ⟨hvalues, hcolumns⟩ | ⟨hnone, i, hi, hresults⟩
    · have hfits := h.fits m n hmember.node
      -- the inputs of the next member have values: they are earlier members or inputs of the group
      have hinputs : ∀ j : Nat, j ∈ n.inputs → g.shapeOf j = n.shape ∧ (g.value? j).isSome = true := by
        intro j hj
        refine ⟨hfits.shapeOf_input hmember.op hj, ?_⟩
        rw [← inputs_eq_of_node? hmember.node] at hj
        rcases s.operand h hm hj with ⟨place, hplace, hget, -⟩ | ⟨place, hget, -⟩
        · have hmem : j ∈ members.take k := by
            refine mem_of_getElem? (i := place) ?_
            rw [getElem?_take_of_lt hplace]
            exact hget
          obtain ⟨xs, hxs, -⟩ := hvalues j hmem
          rw [hxs]
          rfl
        · exact hexternals j (mem_of_getElem? hget)
      have hprogram : n.op.program? n.shape.dtype = some (.single (.elementwise e) n.shape.dtype) := by
        rw [hmember.op]
        rfl
      have hcases := h.computed_program hmember.node hprogram (by rw [hmember.shape]; exact ht) hhalf
        (by rw [hmember.shape]; exact hl) hinputs
      simp only [Computed, resultsAt_single _ _ (hfits.length_inputs hmember.op).1, hmember.shape] at hcases
      rcases hcases with ⟨xs, hvalue, hsize, hget⟩ | ⟨hnone, i, hi, hresult⟩
      · refine .inl ⟨fun m' hm' => ?_, fun i hi => ?_⟩
        · rw [take_add_one, hm, mem_append] at hm'
          rcases hm' with hm' | hm'
          · exact hvalues m' hm'
          · obtain rfl : m' = m := mem_singleton.mp hm'
            exact ⟨xs, hvalue, hsize⟩
        · obtain ⟨column, hcolumn, hcount, hlanes⟩ := hcolumns i hi
          have hi' : i < xs.size := by omega
          have helement := (hget i hi).symm
          rw [Array.getElem?_eq_getElem hi'] at helement
          refine ⟨column.push (t.widen xs[i]), ?_, by rw [Array.size_push, hcount], fun j hj => ?_⟩
          · rw [hcolumn, bind_some, resultsAt, s.stepAt_member h hm hmember hlanes, helement]
            rfl
          · rw [Array.getElem?_push, hcount]
            split
            · rename_i hjk
              rw [hjk, hm, bind_some, elementAt_eq hvalue, Array.getElem?_eq_getElem hi']
              rfl
            · exact hlanes j (by omega)
      · obtain ⟨column, hcolumn, hcount, hlanes⟩ := hcolumns i hi
        refine .inr ⟨⟨m, mem_of_getElem? hm, hnone⟩, i, hi, ?_⟩
        rw [hcolumn, bind_some, resultsAt, s.stepAt_member h hm hmember hlanes, hresult]
        rfl
    · exact .inr ⟨hnone, i, hi, by rw [hresults]; rfl⟩

/-- The terminal node is computed by the program of its group, from the lanes of the inputs of the group. -/
theorem computed_terminal (ht : (g.shapeOf terminal).dtype.element? = some t) (hhalf : t.isHalf = false)
    (hl : Layout.make (g.shapeOf terminal).dtype (g.shapeOf terminal).size = .ok l)
    (hexternals : ∀ x : Nat, x ∈ g.externals members → (g.value? x).isSome = true) :
    g.Computed t terminal (g.shapeOf terminal) l.size fun i =>
      (resultsAt (fun k => (g.externals members)[k]?.bind (g.elementAt t i)) #[]
        (g.groupProgram (g.shapeOf terminal).dtype members (g.externals members)).steps).bind (·.back?) := by
  have hcases := s.take_cases h ht hhalf hl hexternals (Nat.le_refl _)
  have hsteps : (g.groupProgram (g.shapeOf terminal).dtype members (g.externals members)).steps.take members.length =
      (g.groupProgram (g.shapeOf terminal).dtype members (g.externals members)).steps :=
    take_of_length_le (by simp [groupProgram])
  simp only [take_length, hsteps] at hcases
  -- the column of the steps ends with the terminal node, unless a step or a value is missing
  rcases hcases with ⟨hvalues, hcolumns⟩ | ⟨⟨m, hm, hnone⟩, i, hi, hresults⟩
  · obtain ⟨xs, hvalue, hsize⟩ := hvalues terminal s.terminal_mem
    refine .inl ⟨xs, hvalue, hsize, fun i hi => ?_⟩
    obtain ⟨column, hcolumn, hcount, hlanes⟩ := hcolumns i hi
    have hpos := length_pos_of_mem s.terminal_mem
    have hlast : members[members.length - 1]? = some terminal := by
      rw [← getLast?_eq_getElem?, s.eq_dropLast_append, getLast?_concat]
    simp only [hcolumn]
    rw [bind_some, Array.back?_eq_getElem?, hcount, hlanes _ (by omega), hlast, bind_some,
      elementAt_eq hvalue]
  · refine .inr ⟨?_, i, hi, ?_⟩
    · rcases s.reaches h hm with rfl | hreach
      · exact hnone
      · exact h.value?_eq_none_of_dependsOn hnone hreach
    · simp only [hresults]
      rfl

/-- The fused node has the value of the terminal node, if the inputs of the group keep their values. -/
theorem value?_terminal {last : Node}
    (hlast : g.node? terminal = some last) (hhalf : (g.shapeOf terminal).dtype.isHalf = false)
    (hexternals : ∀ x : Nat, x ∈ g.externals members →
      (fusedGraph g c terminal members last).value? x = g.value? x) :
    (fusedGraph g c terminal members last).value? terminal = g.value? terminal := by
  have h' := s.wellFormed_fuseGroup h hlast
  have hfused : (fusedGraph g c terminal members last).node? terminal = some (fusedNode g members last) := by
    rw [node?_fuseGroup hlast, if_pos rfl]
  have hshape := shapeOf_eq_of_node? hlast
  obtain ⟨t, ht⟩ := isSome_iff_exists.mp (h.fits terminal last hlast).valid.supported
  have hhalf' : t.isHalf = false := by
    rw [hshape, DType.isHalf, ht] at hhalf
    exact hhalf
  cases hl : Layout.make last.shape.dtype last.shape.size with
  | error e => rw [h.value?_eq_none_of_layout hlast hl, h'.value?_eq_none_of_layout hfused hl]
  | ok l =>
    by_cases hmissing : ∃ x : Nat, x ∈ g.externals members ∧ g.value? x = none
    · -- an input without a value leaves both without
      obtain ⟨x, hx, hnone⟩ := hmissing
      have hinput : x ∈ (fusedGraph g c terminal members last).inputs terminal := by
        rw [inputs_fuseGroup hlast, if_pos rfl]
        exact hx
      rw [h.value?_eq_none_of_dependsOn hnone (s.dependsOn_external h hx),
        h'.value?_eq_none_of_dependsOn ((hexternals x hx).trans hnone) (.input hinput)]
    · have hvalues : ∀ x : Nat, x ∈ g.externals members → (g.value? x).isSome = true := by
        intro x hx
        rw [isSome_iff_ne_none]
        exact fun hnone => hmissing ⟨x, hx, hnone⟩
      have hplain := s.computed_terminal h (by rw [hshape]; exact ht) hhalf' (by rw [hshape]; exact hl) hvalues
      have hprogram := h'.computed_program (n := fusedNode g members last)
        (p := g.groupProgram last.shape.dtype members (g.externals members)) hfused rfl ht hhalf' hl
        fun x hx => ⟨by rw [shapeOf_fuseGroup hlast, (s.external h hx).2.1, hshape],
          by rw [hexternals x hx]; exact hvalues x hx⟩
      -- the elements of the inputs are the same
      have hlanes : ∀ i k : Nat, ((g.externals members)[k]?.bind
          ((fusedGraph g c terminal members last).elementAt t i)) =
            (g.externals members)[k]?.bind (g.elementAt t i) := by
        intro i k
        cases hk : (g.externals members)[k]? with
        | none => rfl
        | some x =>
          rw [bind_some, bind_some, elementAt, elementAt, hexternals x (mem_of_getElem? hk)]
      simp only [hlanes] at hprogram
      rw [hshape] at hplain
      exact hplain.unique hprogram hhalf'

end IsGroup

end Graph

end LazyTensor
