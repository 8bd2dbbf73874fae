import LazyTensor.Proofs.Graph.Typing

/-!
# Consumer tables are exact

A table tracks a graph if each of its lists is the increasing list of the live nodes that take a value.
The table made in one pass tracks its graph, and the list of a node is then `Graph.consumers`.
-/

namespace LazyTensor

open List

theorem nodup_eraseDups {α : Type} [BEq α] [LawfulBEq α] (l : List α) : l.eraseDups.Nodup := by
  -- each step filters the rest, so that the induction is on the length
  induction hlen : l.length using Nat.strongRecOn generalizing l with
  | ind len ih =>
    cases l with
    | nil => simp
    | cons a as =>
      rw [eraseDups_cons, nodup_cons]
      refine ⟨by simp [mem_eraseDups], ih _ ?_ _ rfl⟩
      have := length_filter_le (fun b => !b == a) as
      rw [length_cons] at hlen
      omega

variable {l : List Nat}

theorem eq_of_sorted_of_mem_iff {l' : List Nat} (hl : l.Pairwise (· < ·)) (hl' : l'.Pairwise (· < ·))
    (h : ∀ x, x ∈ l ↔ x ∈ l') : l = l' := by
  have hperm : l.Perm l' :=
    (perm_ext_iff_of_nodup (hl.imp Nat.ne_of_lt) (hl'.imp Nat.ne_of_lt)).mpr h
  exact hperm.eq_of_pairwise (fun a b _ _ hab hba => absurd hab (Nat.lt_asymm hba)) hl hl'

namespace Graph

/-- A live node takes the value of a node. -/
def Consumes (g : Graph) (k id : Nat) : Prop := g.isLive k = true ∧ id ∈ g.inputs k

variable {g : Graph} {id k : Nat}

theorem WellFormed.lt_of_consumes (h : g.WellFormed) (hk : g.Consumes k id) : id < k ∧ k < g.size :=
  ⟨h.inputs_lt hk.2, lt_size_of_mem_inputs hk.2⟩

theorem mem_consumers (h : g.WellFormed) : k ∈ g.consumers id ↔ g.Consumes k id := by
  simp only [consumers, mem_filter, mem_ids, Bool.and_eq_true, decide_eq_true_eq, contains_iff_mem]
  constructor
  · rintro ⟨-, ⟨-, hlive⟩, hmem⟩
    exact ⟨hlive, hmem⟩
  · intro hk
    obtain ⟨hlt, hsize⟩ := h.lt_of_consumes hk
    exact ⟨hsize, ⟨hlt, hk.1⟩, hk.2⟩

theorem sorted_consumers : (g.consumers id).Pairwise (· < ·) :=
  List.Pairwise.filter _ pairwise_lt_range

end Graph

namespace Consumers

/-! ## Lists of consumers -/

variable {k : Nat}

theorem mem_without {x : Nat} : x ∈ without k l ↔ x ∈ l ∧ x ≠ k := by
  simp [without]

theorem sorted_without (h : l.Pairwise (· < ·)) : (without k l).Pairwise (· < ·) :=
  h.filter _

theorem mem_including {x : Nat} : x ∈ including k l ↔ x = k ∨ x ∈ l := by
  induction l with
  | nil => simp [including]
  | cons a l ih =>
    simp only [including]
    split
    · simp
    · split
      · rename_i heq
        simp [heq]
      · simp only [mem_cons, ih]
        exact or_left_comm

theorem sorted_including (h : l.Pairwise (· < ·)) : (including k l).Pairwise (· < ·) := by
  induction l with
  | nil => simp [including]
  | cons a l ih =>
    rw [pairwise_cons] at h
    simp only [including]
    split
    · rename_i hlt
      refine pairwise_cons.mpr ⟨?_, pairwise_cons.mpr h⟩
      intro b hb
      rcases mem_cons.mp hb with rfl | hb
      · exact hlt
      · exact Nat.lt_trans hlt (h.1 b hb)
    · split
      · exact pairwise_cons.mpr h
      · rename_i hge hne
        refine pairwise_cons.mpr ⟨?_, ih h.2⟩
        intro b hb
        rcases mem_including.mp hb with rfl | hb
        · exact Nat.lt_of_le_of_ne (Nat.le_of_not_lt hge) (Ne.symm hne)
        · exact h.1 b hb

/-! ## Entries of a table -/

variable {c : Consumers} {id j k : Nat}

private theorem get_modify (f : List NodeId → List NodeId) :
    (Consumers.mk (c.table.modify id f)).get j =
      if id = j ∧ j < c.table.size then f (c.get j) else c.get j := by
  simp only [get, Array.getD_eq_getD_getElem?, Array.getElem?_modify]
  by_cases hid : id = j
  · subst hid
    by_cases hlt : id < c.table.size
    · simp [hlt]
    · simp [hlt]
  · simp [hid]

private theorem get_eq_nil (h : c.table.size ≤ j) : c.get j = [] := by
  simp [get, Array.getElem?_eq_none h]

theorem get_remove : (c.remove id k).get j = if id = j then without k (c.get j) else c.get j := by
  rw [remove, get_modify]
  by_cases hid : id = j
  · by_cases hlt : j < c.table.size
    · simp [hlt]
    · simp [get_eq_nil (Nat.le_of_not_lt hlt), without]
  · simp [hid]

theorem get_clear : (c.clear id).get j = if id = j then [] else c.get j := by
  rw [clear, get_modify]
  by_cases hid : id = j
  · by_cases hlt : j < c.table.size
    · simp [hlt]
    · simp [get_eq_nil (Nat.le_of_not_lt hlt)]
  · simp [hid]

theorem get_add (h : id < c.table.size) :
    (c.add id k).get j = if id = j then including k (c.get j) else c.get j := by
  rw [add, get_modify]
  by_cases hid : id = j
  · simp [hid ▸ h]
  · simp [hid]

theorem get_append (h : id < c.table.size) :
    (c.append id k).get j = if id = j then c.get j ++ [k] else c.get j := by
  rw [append, get_modify]
  by_cases hid : id = j
  · simp [hid ▸ h]
  · simp [hid]

@[simp] theorem size_remove : (c.remove id k).table.size = c.table.size := by simp [remove]

@[simp] theorem size_add : (c.add id k).table.size = c.table.size := by simp [add]

@[simp] theorem size_clear : (c.clear id).table.size = c.table.size := by simp [clear]

@[simp] theorem size_append : (c.append id k).table.size = c.table.size := by simp [append]

/-! ## Tables of graphs -/

/-- Each list of the table has the live consumers of a node, in increasing order. -/
structure Tracks (c : Consumers) (g : Graph) : Prop where
  size : c.table.size = g.size
  sorted : ∀ id : Nat, (c.get id).Pairwise (· < ·)
  mem : ∀ id k : Nat, k ∈ c.get id ↔ g.Consumes k id

theorem Tracks.get_eq {g : Graph} (h : c.Tracks g) (hg : g.WellFormed) (id : Nat) :
    c.get id = g.consumers id :=
  eq_of_sorted_of_mem_iff (h.sorted id) Graph.sorted_consumers
    fun k => (h.mem id k).trans (Graph.mem_consumers hg).symm

private theorem append_inputs (ids : List NodeId) (hnodup : ids.Nodup)
    (hlt : ∀ i : Nat, i ∈ ids → i < c.table.size) :
    (ids.foldl (fun c input => c.append input k) c).table.size = c.table.size ∧
    ∀ j : Nat, (ids.foldl (fun c input => c.append input k) c).get j =
      c.get j ++ if j ∈ ids then [k] else [] := by
  induction ids generalizing c with
  | nil => simp
  | cons i ids ih =>
    rw [nodup_cons] at hnodup
    have hi : i < c.table.size := hlt i (.head _)
    obtain ⟨hsize, hget⟩ := ih (c := c.append i k) hnodup.2
      (fun j hj => by rw [size_append]; exact hlt j (.tail _ hj))
    refine ⟨hsize.trans size_append, fun j => ?_⟩
    rw [foldl_cons, hget, get_append hi]
    by_cases hij : i = j
    · subst hij
      simp [hnodup.1]
    · have hji : ¬ j = i := fun h => hij h.symm
      simp [hij, hji]

/-- The table after nodes in order: each comes to the end of the lists of its inputs. -/
private theorem append_nodes (g : Graph) (ids : List NodeId)
    (hlt : ∀ k ∈ ids, ∀ i : Nat, i ∈ g.inputs k → i < c.table.size) :
    (ids.foldl (fun c id => (g.inputs id).eraseDups.foldl (fun c input => c.append input id) c) c).table.size
      = c.table.size ∧
    ∀ j : Nat,
      (ids.foldl (fun c id => (g.inputs id).eraseDups.foldl (fun c input => c.append input id) c) c).get j
        = c.get j ++ ids.filter fun k => (g.inputs k).contains j := by
  induction ids generalizing c with
  | nil => simp
  | cons k ids ih =>
    obtain ⟨hsize, hget⟩ := append_inputs (c := c) (k := k) (g.inputs k).eraseDups (nodup_eraseDups _)
      (fun i hi => hlt k (.head _) i (mem_eraseDups.mp hi))
    obtain ⟨hsize', hget'⟩ := ih
      (fun k' hk' i hi => by rw [hsize]; exact hlt k' (.tail _ hk') i hi)
    refine ⟨hsize'.trans hsize, fun j => ?_⟩
    rw [foldl_cons, hget', hget]
    by_cases hj : j ∈ g.inputs k
    · simp [hj]
    · simp [hj]

theorem ofGraph_tracks {g : Graph} (h : g.WellFormed) : (ofGraph g).Tracks g := by
  obtain ⟨hsize, hget⟩ := append_nodes (c := ⟨Array.replicate g.size []⟩) g g.liveIds
    (fun k hk i hi => by
      have hik := h.inputs_lt hi
      have hks := (Graph.mem_liveIds.mp hk).1
      simp only [Array.size_replicate]
      omega)
  have hempty : ∀ j : Nat, (Consumers.mk (Array.replicate g.size [])).get j = [] := by
    intro j
    by_cases hj : j < g.size <;> simp [get, hj]
  refine ⟨by rw [ofGraph, hsize, Array.size_replicate], fun j => ?_, fun j k => ?_⟩
  · rw [ofGraph, hget, hempty]
    exact (List.Pairwise.filter _ pairwise_lt_range).filter _
  · rw [ofGraph, hget, hempty, nil_append, mem_filter, Graph.mem_liveIds,
      contains_iff_mem]
    constructor
    · rintro ⟨⟨-, hlive⟩, hmem⟩
      exact ⟨hlive, hmem⟩
    · intro hk
      exact ⟨⟨Graph.lt_size_of_mem_inputs hk.2, hk.1⟩, hk.2⟩

end Consumers

end LazyTensor
