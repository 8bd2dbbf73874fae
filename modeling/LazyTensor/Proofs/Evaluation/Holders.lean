import LazyTensor.Proofs.Account
import LazyTensor.Proofs.Evaluation.Plan

/-!
# Nodes that hold buffers

An evaluation counts the nodes that hold a buffer, and the host counts the buffers and their bytes. Both counts are
of a set of nodes: what a node gets or loses changes the set by the node and the count by its share.
-/

namespace LazyTensor

open List Option

/-! ## Counted sets -/

/-- The list has each number of the set once. -/
structure Enumerates (l : List Nat) (p : Nat → Prop) : Prop where
  nodup : l.Nodup
  mem_iff : ∀ j : Nat, j ∈ l ↔ p j

namespace Enumerates

variable {l l' : List Nat} {p q : Nat → Prop} {j : Nat}

theorem congr (h : Enumerates l p) (hpq : ∀ i : Nat, p i ↔ q i) : Enumerates l q :=
  ⟨h.nodup, fun i => (h.mem_iff i).trans (hpq i)⟩

theorem perm (h : Enumerates l p) (h' : Enumerates l' p) : l.Perm l' := by
  rw [perm_ext_iff_of_nodup h.nodup h'.nodup]
  intro i
  rw [h.mem_iff, h'.mem_iff]

theorem insert (h : Enumerates l p) (hj : ¬ p j) : Enumerates (j :: l) fun i => i = j ∨ p i where
  nodup := nodup_cons.mpr ⟨fun hmem => hj ((h.mem_iff j).mp hmem), h.nodup⟩
  mem_iff i := by rw [mem_cons, h.mem_iff]

theorem erase (h : Enumerates l p) (j : Nat) : Enumerates (l.erase j) fun i => i ≠ j ∧ p i where
  nodup := h.nodup.erase j
  mem_iff i := by rw [h.nodup.mem_erase_iff, h.mem_iff]

end Enumerates

namespace Graph

variable {g : Graph} {base a a' : Account} {p q : Nat → Prop} {j k : Nat}

/-- The account counts a buffer for each node of a set beside what `base` counts. -/
def Counted (g : Graph) (base : Account) (p : Nat → Prop) (a : Account) : Prop :=
  ∃ nodes, Enumerates nodes p ∧ base.Adds a (nodes.map g.shapeOf)

theorem Counted.congr (h : g.Counted base p a) (hpq : ∀ i : Nat, p i ↔ q i) : g.Counted base q a := by
  obtain ⟨nodes, hnodes, hadds⟩ := h
  exact ⟨nodes, hnodes.congr hpq, hadds⟩

theorem Counted.sameUse (h : g.Counted base p a) (hsame : a.SameUse a') : g.Counted base p a' := by
  obtain ⟨nodes, hnodes, hadds⟩ := h
  exact ⟨nodes, hnodes, hadds.congr hsame⟩

theorem Counted.adds (h : g.Counted base p a) {nodes : List Nat} (hnodes : Enumerates nodes p) :
    base.Adds a (nodes.map g.shapeOf) := by
  obtain ⟨nodes', hnodes', hadds⟩ := h
  exact hadds.perm ((hnodes'.perm hnodes).map g.shapeOf)

theorem Counted.allocate (h : g.Counted base p a) (hk : ¬ p k) (ha : a.allocate (g.shapeOf k).footprint = .ok a') :
    g.Counted base (fun i => i = k ∨ p i) a' := by
  obtain ⟨nodes, hnodes, hadds⟩ := h
  exact ⟨k :: nodes, hnodes.insert hk, hadds.allocate ha⟩

theorem Counted.free (h : g.Counted base p a) (hj : p j) :
    g.Counted base (fun i => i ≠ j ∧ p i) (a.free (g.shapeOf j).footprint) := by
  obtain ⟨nodes, hnodes, hadds⟩ := h
  have hperm := (perm_cons_erase ((hnodes.mem_iff j).mpr hj)).map g.shapeOf
  exact ⟨nodes.erase j, hnodes.erase j, (hadds.perm hperm).free⟩

theorem Counted.move (h : g.Counted base p a) (hj : p j) (hk : ¬ p k) (hshape : g.shapeOf j = g.shapeOf k) :
    g.Counted base (fun i => i = k ∨ (i ≠ j ∧ p i)) a := by
  obtain ⟨nodes, hnodes, hadds⟩ := h
  have hperm := (perm_cons_erase ((hnodes.mem_iff j).mpr hj)).map g.shapeOf
  rw [map_cons, hshape] at hperm
  exact ⟨k :: nodes.erase j, (hnodes.erase j).insert fun hmem => hk hmem.2, hadds.perm hperm⟩

end Graph

/-! ## Holders -/

namespace Evaluation

variable {e : Evaluation} {i j k : Nat} {held : Held}

theorem held?_drop (e : Evaluation) (i j : Nat) : (e.drop i).held? j = if j = i then none else e.held? j := by
  simp only [held?, drop, Array.getD_eq_getD_getElem?, Array.getElem?_setIfInBounds]
  by_cases hij : j = i
  · subst hij
    by_cases hlt : j < e.held.size
    · simp [hlt]
    · simp [hlt]
  · rw [if_neg (fun h => hij h.symm), if_neg hij]

theorem held?_of_drop (h : (e.drop i).held? j = some held) : j ≠ i ∧ e.held? j = some held := by
  rw [held?_drop] at h
  split at h
  · cases h
  · rename_i hne
    exact ⟨hne, h⟩

theorem held?_hold (hi : i < e.held.size) (held : Held) (j : Nat) :
    (e.hold i held).held? j = if j = i then some held else e.held? j := by
  simp only [held?, hold, Array.getD_eq_getD_getElem?, Array.getElem?_setIfInBounds]
  by_cases hij : j = i
  · subst hij
    simp [hi]
  · rw [if_neg (fun h => hij h.symm), if_neg hij]

theorem lt_size_of_held? (h : e.held? j = some held) : j < e.held.size := by
  rcases Nat.lt_or_ge j e.held.size with hlt | hge
  · exact hlt
  · rw [held?, Array.getD_eq_getD_getElem?, Array.getElem?_eq_none hge] at h
    cases h

/-- The nodes that hold a buffer. -/
def holders (e : Evaluation) : List Nat := (List.range e.held.size).filter fun j => (e.held? j).isSome

theorem mem_holders : j ∈ e.holders ↔ (e.held? j).isSome = true := by
  rw [holders, mem_filter, mem_range]
  refine ⟨fun h => h.2, fun h => ⟨?_, h⟩⟩
  obtain ⟨held, hheld⟩ := isSome_iff_exists.mp h
  exact lt_size_of_held? hheld

theorem enumerates_holders (e : Evaluation) : Enumerates e.holders fun j => (e.held? j).isSome = true :=
  ⟨nodup_range.filter _, fun _ => mem_holders⟩

theorem length_holders_hold (hk : k < e.held.size) (hnone : e.held? k = none) (held : Held) :
    (e.hold k held).holders.length = e.holders.length + 1 := by
  have hmore := (enumerates_holders e).insert (j := k) (by rw [hnone]; exact Bool.false_ne_true)
  refine ((enumerates_holders (e.hold k held)).perm (hmore.congr fun i => ?_)).length_eq
  rw [held?_hold hk]
  by_cases hik : i = k
  · simp [hik]
  · simp [hik]

theorem length_holders_drop (hheld : e.held? i = some held) : (e.drop i).holders.length + 1 = e.holders.length := by
  have hmem : i ∈ e.holders := mem_holders.mpr (by rw [hheld]; rfl)
  have hless := (enumerates_holders e).erase i
  have hperm := (enumerates_holders (e.drop i)).perm (hless.congr fun j => by
    rw [held?_drop]
    by_cases hji : j = i
    · simp [hji]
    · simp [hji])
  rw [hperm.length_eq, length_erase_of_mem hmem]
  have := length_pos_of_mem hmem
  omega

/-- The node holds a buffer with its own value: one that holds `out` does only if it was executed last. -/
def Owns (e : Evaluation) (k : Nat) (out : Option Nat) (j : Nat) : Prop :=
  ∃ held, e.held? j = some held ∧ (some held.buffer ≠ out ∨ j + 1 = k)

theorem owns_none : e.Owns k none j ↔ (e.held? j).isSome = true := by
  rw [isSome_iff_exists]
  refine exists_congr fun held => and_iff_left (.inl nofun)

end Evaluation

end LazyTensor
