import LazyTensor.Evaluation
import LazyTensor.Proofs.Graph.Dependency
import Mathlib.Algebra.Ring.Nat

/-!
# The plan of an evaluation

Before anything is executed, an evaluation knows which nodes the outputs need, and how many operands of
needed nodes each node is. Both are computed in one pass from the last node to the first: when the pass is at
a node, all nodes that take its value were passed.
-/

namespace LazyTensor

open List

namespace Graph

variable {g : Graph} {outputs : List Nat} {k j : Nat}

/-- How many operands of needed nodes from number `k` on are the node. -/
def pending (g : Graph) (outputs : List Nat) (k j : Nat) : Nat :=
  (((g.ids.drop k).filter (g.needs outputs)).map fun i => (g.inputs i).count j).sum

theorem ids_drop (hk : k < g.size) : g.ids.drop k = k :: g.ids.drop (k + 1) := by
  have hlength : k < g.ids.length := by simpa [ids] using hk
  rw [drop_eq_getElem_cons hlength]
  simp [ids]

theorem pending_eq_zero_of_le (hk : g.size ≤ k) : g.pending outputs k j = 0 := by
  have hdrop : g.ids.drop k = [] := by simpa [ids] using hk
  rw [pending, hdrop]
  rfl

theorem pending_of_needs (hk : k < g.size) (hneeds : g.needs outputs k = true) :
    g.pending outputs k j = (g.inputs k).count j + g.pending outputs (k + 1) j := by
  rw [pending, ids_drop hk, filter_cons, if_pos hneeds]
  rfl

theorem pending_of_not_needs (hk : k < g.size) (hneeds : g.needs outputs k = false) :
    g.pending outputs k j = g.pending outputs (k + 1) j := by
  rw [pending, ids_drop hk, filter_cons, if_neg (by rw [hneeds]; exact Bool.false_ne_true)]
  rfl

theorem mem_ids_drop {i : Nat} : i ∈ g.ids.drop k ↔ k ≤ i ∧ i < g.size := by
  rw [ids, range_eq_range', drop_range', mem_range'_1]
  omega

theorem pending_pos_iff :
    0 < g.pending outputs k j ↔ ∃ i : Nat, k ≤ i ∧ g.needs outputs i = true ∧ j ∈ g.inputs i := by
  rw [pending, List.sum_pos_iff_exists_pos_nat]
  constructor
  · rintro ⟨count, hcount, hpos⟩
    obtain ⟨i, hi, rfl⟩ := List.mem_map.mp hcount
    obtain ⟨hmem, hneeds⟩ := mem_filter.mp hi
    exact ⟨i, (mem_ids_drop.mp hmem).1, hneeds, count_pos_iff.mp hpos⟩
  · rintro ⟨i, hi, hneeds, hj⟩
    have hmem : i ∈ g.ids.drop k := mem_ids_drop.mpr ⟨hi, lt_size_of_mem_inputs hj⟩
    exact ⟨_, List.mem_map_of_mem (mem_filter.mpr ⟨hmem, hneeds⟩), count_pos_iff.mpr hj⟩

theorem WellFormed.needs_iff_pending (h : g.WellFormed) :
    g.needs outputs k = true ↔ k ∈ outputs ∨ 0 < g.pending outputs (k + 1) k := by
  rw [h.needs_iff_consumer, pending_pos_iff]
  refine or_congr_right ⟨?_, ?_⟩
  · rintro ⟨i, hi, hk⟩
    exact ⟨i, h.inputs_lt hk, hi, hk⟩
  · rintro ⟨i, -, hi, hk⟩
    exact ⟨i, hi, hk⟩

end Graph

namespace Evaluation

open Graph

variable {g : Graph} {outputs : List Nat} {e : Evaluation} {k j : Nat}

theorem getD_marks (outputs : List Nat) (marks : Array Bool) (hj : j < marks.size) :
    (outputs.foldl (fun marks id => marks.setIfInBounds id true) marks).getD j false =
      (marks.getD j false || outputs.contains j) := by
  induction outputs generalizing marks with
  | nil => simp
  | cons o outputs ih =>
    rw [foldl_cons, ih _ (by simpa using hj), contains_cons]
    simp only [Array.getD_eq_getD_getElem?, Array.getElem?_setIfInBounds]
    by_cases hoj : o = j
    · simp [hoj, hj]
    · have hjo : (j == o) = false := by simpa using fun h => hoj h.symm
      rw [if_neg hoj, hjo, Bool.false_or]

theorem size_marks (outputs : List Nat) (marks : Array Bool) :
    (outputs.foldl (fun marks id => marks.setIfInBounds id true) marks).size = marks.size := by
  induction outputs generalizing marks with
  | nil => rfl
  | cons o outputs ih => rw [foldl_cons, ih, Array.size_setIfInBounds]

theorem getD_modify {α : Type} (a : Array α) (i j : Nat) (f : α → α) (x : α) (hj : j < a.size) :
    (a.modify i f).getD j x = if i = j then f (a.getD j x) else a.getD j x := by
  simp only [Array.getD_eq_getD_getElem?, Array.getElem?_modify, Array.getElem?_eq_getElem hj]
  split
  · rfl
  · rfl

/-- What the pass knows when it has passed the nodes from number `k` on. -/
structure Passed (g : Graph) (outputs : List Nat) (k : Nat) (e : Evaluation) : Prop where
  size_needed : e.needed.size = g.size
  size_uses : e.uses.size = g.size
  held_eq : e.held = Array.replicate g.size none
  live_eq : e.live = 0
  maxLive_eq : e.maxLive = 0
  isOutput_eq : ∀ j : Nat, j < g.size → e.isOutput.getD j false = outputs.contains j
  needed_iff : ∀ j : Nat, j < g.size →
    (e.needed.getD j false = true ↔ j ∈ outputs ∨ 0 < g.pending outputs k j)
  uses_eq : ∀ j : Nat, j < g.size → e.uses.getD j 0 = g.pending outputs k j

private theorem foldl_inputs (inputs : List Nat) (e : Evaluation) :
    let e' := inputs.foldl (fun e input => { e with
      needed := e.needed.setIfInBounds input true
      uses := e.uses.modify input (· + 1) }) e
    e'.needed.size = e.needed.size ∧ e'.uses.size = e.uses.size ∧
    (e'.held = e.held ∧ e'.live = e.live ∧ e'.maxLive = e.maxLive) ∧ e'.isOutput = e.isOutput ∧
    (∀ j : Nat, j < e.needed.size → e'.needed.getD j false = (e.needed.getD j false || inputs.contains j)) ∧
    ∀ j : Nat, j < e.uses.size → e'.uses.getD j 0 = inputs.count j + e.uses.getD j 0 := by
  induction inputs generalizing e with
  | nil => simp
  | cons input inputs ih =>
    obtain ⟨hneeded, huses, hheld, houtput, hmarks, hcounts⟩ := ih { e with
      needed := e.needed.setIfInBounds input true
      uses := e.uses.modify input (· + 1) }
    rw [Array.size_setIfInBounds] at hneeded hmarks
    rw [Array.size_modify] at huses hcounts
    refine ⟨hneeded, huses, hheld, houtput, fun j hj => ?_, fun j hj => ?_⟩
    · rw [foldl_cons, hmarks j hj]
      have hmark := getD_marks [input] e.needed hj
      rw [foldl_cons, foldl_nil] at hmark
      rw [hmark, Bool.or_assoc]
      simp
    · rw [foldl_cons, hcounts j hj, getD_modify _ _ _ _ _ hj, count_cons]
      by_cases hij : input = j
      · simp only [hij, if_true, beq_self_eq_true]
        omega
      · have hij' : (input == j) = false := by simpa using hij
        rw [if_neg hij, hij']
        simp

/-- Going back over one node marks its inputs if it is needed. -/
theorem Passed.need (h : g.WellFormed) (hk : k < g.size) (hpassed : Passed g outputs (k + 1) e) :
    Passed g outputs k (e.need g k) := by
  have hneeds : e.needed.getD k false = true ↔ g.needs outputs k = true := by
    rw [hpassed.needed_iff k hk, h.needs_iff_pending]
  cases hneeded : g.needs outputs k with
  | true =>
    -- the inputs of a needed node are marked, and each place among them is one use
    obtain ⟨hsize, huses, hheld, houtput, hmarks, hcounts⟩ := foldl_inputs (g.inputs k) e
    have hneed : e.need g k = (g.inputs k).foldl (fun e input => { e with
        needed := e.needed.setIfInBounds input true
        uses := e.uses.modify input (· + 1) }) e := by
      rw [Evaluation.need, if_pos (hneeds.mpr hneeded)]
    rw [← hneed] at hsize huses hheld houtput hmarks hcounts
    refine ⟨hsize.trans hpassed.size_needed, huses.trans hpassed.size_uses, hheld.1.trans hpassed.held_eq,
      hheld.2.1.trans hpassed.live_eq, hheld.2.2.trans hpassed.maxLive_eq, ?_, ?_, ?_⟩
    · intro j hj
      rw [houtput, hpassed.isOutput_eq j hj]
    · intro j hj
      have hinput : (g.inputs k).contains j = true ↔ 0 < (g.inputs k).count j := by
        rw [contains_iff_mem, count_pos_iff]
      rw [hmarks j (by rwa [hpassed.size_needed]), Bool.or_eq_true, hpassed.needed_iff j hj,
        pending_of_needs hk hneeded, hinput, or_assoc]
      refine or_congr_right ?_
      omega
    · intro j hj
      rw [hcounts j (by rwa [hpassed.size_uses]), hpassed.uses_eq j hj, pending_of_needs hk hneeded]
  | false =>
    have hnot : ¬ e.needed.getD k false = true := by
      rw [hneeds, hneeded]
      exact Bool.false_ne_true
    rw [Evaluation.need, if_neg hnot]
    refine { hpassed with needed_iff := fun j hj => ?_, uses_eq := fun j hj => ?_ }
    · rw [hpassed.needed_iff j hj, pending_of_not_needs hk hneeded]
    · rw [hpassed.uses_eq j hj, pending_of_not_needs hk hneeded]

theorem passed_plan (h : g.WellFormed) (outputs : List Nat) : Passed g outputs 0 (plan g outputs) := by
  let marked := outputs.foldl (fun marks id => marks.setIfInBounds id true) (Array.replicate g.size false)
  let start : Evaluation := ⟨marked, marked, Array.replicate g.size 0, Array.replicate g.size none, 0, 0⟩
  have hmarked : ∀ j : Nat, j < g.size → marked.getD j false = outputs.contains j := by
    intro j hj
    rw [getD_marks _ _ (by simpa using hj)]
    simp [hj]
  have hstart : Passed g outputs g.size start := by
    refine ⟨by simp [start, marked, size_marks], by simp [start], rfl, rfl, rfl, hmarked, fun j hj => ?_, fun j hj => ?_⟩
    · show marked.getD j false = true ↔ _
      rw [hmarked j hj, pending_eq_zero_of_le (Nat.le_refl _)]
      simp
    · rw [pending_eq_zero_of_le (Nat.le_refl _)]
      simp [start, hj]
  -- the induction is on the number of nodes that were passed
  have hpass : ∀ count : Nat, count ≤ g.size →
      Passed g outputs (g.size - count) ((g.ids.drop (g.size - count)).reverse.foldl (Evaluation.need g) start) := by
    intro count
    induction count with
    | zero =>
      intro _
      have hempty : g.ids.drop (g.size - 0) = [] := by simp [ids]
      rwa [hempty]
    | succ count ih =>
      intro hcount
      have hk : g.size - (count + 1) < g.size := by omega
      have hnext : g.size - (count + 1) + 1 = g.size - count := by omega
      rw [ids_drop hk, reverse_cons, foldl_append]
      refine Passed.need h hk ?_
      rw [hnext]
      exact ih (by omega)
  have hall := hpass g.size (Nat.le_refl _)
  rwa [Nat.sub_self] at hall

end Evaluation

end LazyTensor
