import LazyTensor.Proofs.Graph.NormalForm
import Mathlib.Data.List.Basic
import Mathlib.Logic.Function.Iterate
import Mathlib.Logic.Relation

/-!
# The iterations of an optimisation

A pass of optimisation keeps one table of consumers and changes it whenever it changes the graph. Before each of its
iterations the table is the one that would be made from the graph as it is then (`Session.table_exact_run`), and so the
groups that are collected with it are closed (`Session.group_closed_run`).
-/

namespace LazyTensor

theorem Consumers.Tracks.eq_ofGraph {c : Consumers} {g : Graph} (h : c.Tracks g) (hg : g.WellFormed) :
    c = ofGraph g := by
  have htracks := ofGraph_tracks hg
  have htable : c.table = (ofGraph g).table := by
    refine Array.ext (h.size.trans htracks.size.symm) fun i hi hi' => ?_
    have hget : c.get i = (ofGraph g).get i := (h.get_eq hg i).trans (htracks.get_eq hg i).symm
    simpa [get, hi, hi'] using hget
  exact congrArg Consumers.mk htable

namespace Graph

variable {g g' : Graph} {c : Consumers}

/-- The graph and the table before an iteration of the passes of an optimisation, or after the last one: `k` iterations
of the pass for multiply-adds, or `k` iterations of a pass of fusion that comes after `n` others. -/
inductive Iteration (g : Graph) : Graph → Consumers → Prop where
  | mulAdds (k : Nat) : Iteration g (g.mulAddFold (.ofGraph g) (g.ids.take k)).1
      (g.mulAddFold (.ofGraph g) (g.ids.take k)).2.1
  | fusion (n k : Nat) {g₀ : Graph} (start : g₀ = (fun g => g.fuseChains.1)^[n] g.substituteMulAdds.1) :
      Iteration g (g₀.fuseFold (.ofGraph g₀) (g₀.ids.take k)).1 (g₀.fuseFold (.ofGraph g₀) (g₀.ids.take k)).2.1

theorem WellFormed.iterate_fuseChains (h : g.WellFormed) (n : Nat) : ((fun g => g.fuseChains.1)^[n] g).WellFormed := by
  induction n generalizing g with
  | zero => exact h
  | succ n ih => exact ih (fuseChains_induction (motive := fun _ => True) h trivial fun _ _ _ _ _ _ _ _ => trivial).1

/-- Every iteration starts from a well-formed graph and its table: a step keeps both, so a part of a pass does. -/
theorem Iteration.sound (h : g.WellFormed) (hit : g.Iteration g' c) : g'.Sound c := by
  cases hit with
  | mulAdds k =>
    rw [mulAddFold_eq_pass]
    exact pass_induction mulAddStep? (motive := fun g' c' _ => g'.Sound c') (fun _ _ _ _ _ _ hs hstep =>
      (hs.mulAddStep hstep).1) _ ⟨h, Consumers.ofGraph_tracks h⟩
  | fusion n k hstart =>
    have hstart := hstart ▸ h.substituteMulAdds.1.iterate_fuseChains n
    rw [fuseFold_eq_pass]
    exact pass_induction fuseStep? (motive := fun g' c' _ => g'.Sound c') (fun _ _ _ _ _ _ hs hstep =>
      (hs.fuseStep hstep).1) _ ⟨hstart, Consumers.ofGraph_tracks hstart⟩

end Graph

namespace Session

/-- At every iteration of every pass over a graph of a run, the table that the pass keeps is the one of the graph as it is
then: each of its lists is the increasing list of the live nodes that take a value. -/
theorem table_exact_run (environment : Option String) (calls : List Call) (gid : Nat) (g : Graph)
    (hg : (run calls (start environment)).workspace.graph? gid = some g) (g' : Graph) (c : Consumers)
    (hit : g.Iteration g' c) :
    c = .ofGraph g' ∧ c.table.size = g'.size ∧ ∀ id : Nat, c.get id = g'.consumers id ∧
      (c.get id).Pairwise (· < ·) ∧ ∀ k : Nat, k ∈ c.get id ↔ g'.isLive k = true ∧ id ∈ g'.inputs k := by
  have hsound := hit.sound (wellFormed_run calls (wellFormed_start environment) gid g hg)
  refine ⟨hsound.tracks.eq_ofGraph hsound.wellFormed, hsound.tracks.size, fun id => ?_⟩
  exact ⟨hsound.tracks.get_eq hsound.wellFormed id, hsound.tracks.sorted id, hsound.tracks.mem id⟩

/-- A product that a sum takes twice as factor of others: the table before the fourth iteration of the pass. -/
theorem table_exact_run_sum :
    let x : Shape := ⟨.float32, [2]⟩
    let node (id : Int) : Handle := some ⟨0, id⟩
    let calls : List Call := [.newGraph "g", .construct (.fill (some 0) .cpu x .zero),
      .construct (.elementwise (.binary .mul) [node 0, node 0]),
      .construct (.elementwise (.binary .add) [node 0, node 1])]
    ∃ g g' c, (run calls (start none)).workspace.graph? 0 = some g ∧ g.Iteration g' c ∧ g'.isLive 1 = false ∧
      g'.inputs 2 = [0, 0, 0] ∧ c.get 0 = [2] ∧ c = .ofGraph g' := by
  intro x node calls
  have hrun : ((run calls (start none)).workspace.graph? 0).any (fun g =>
      let s := g.mulAddFold (.ofGraph g) (g.ids.take 3)
      !s.1.isLive 1 && s.1.inputs 2 == [0, 0, 0] && s.2.1.get 0 == [2]) = true := by decide +kernel
  obtain ⟨g, hg, hfacts⟩ := (Option.any_eq_true _ _).mp hrun
  simp only [Bool.and_eq_true, beq_iff_eq, Bool.not_eq_true'] at hfacts
  exact ⟨g, _, _, hg, .mulAdds 3, hfacts.1.1, hfacts.1.2, hfacts.2,
    (table_exact_run none calls 0 g hg _ _ (.mulAdds 3)).1⟩

end Session

/-! ## Groups -/

theorem pairwise_idxOf_eraseDups (l : List Nat) (p : Nat → Bool) :
    (l.filter p).eraseDups.Pairwise fun i j => l.idxOf i < l.idxOf j := by
  induction l generalizing p with
  | nil => exact .nil
  | cons a l ih =>
    -- in both cases the elements that come later are kept by a test that the head fails
    have hlater : ∀ q : Nat → Bool, q a = false →
        (l.filter q).eraseDups.Pairwise fun i j => (a :: l).idxOf i < (a :: l).idxOf j := by
      intro q hq
      have hne : ∀ i : Nat, i ∈ (l.filter q).eraseDups → a ≠ i := by
        rintro i hi rfl
        simp [hq] at hi
      refine (ih q).imp_of_mem fun {i j} hi hj hlt => ?_
      rw [List.idxOf_cons_ne _ (hne i hi), List.idxOf_cons_ne _ (hne j hj)]
      exact Nat.succ_lt_succ hlt
    cases ha : p a with
    | false =>
      rw [List.filter_cons_of_neg (by simp [ha])]
      exact hlater p ha
    | true =>
      rw [List.filter_cons_of_pos ha, List.eraseDups_cons, List.filter_filter]
      refine List.pairwise_cons.mpr ⟨fun j hj => ?_, hlater _ (by simp)⟩
      have hne : a ≠ j := by
        rintro rfl
        simp at hj
      rw [List.idxOf_cons_self, List.idxOf_cons_ne _ hne]
      exact Nat.succ_pos _

namespace Graph

variable {g : Graph} {c : Consumers} {terminal id m i : Nat} {members : List Nat}

namespace IsGroup

/-- What is reached from a member along edges to live consumers is a member, or comes after the terminal node. -/
theorem mem_or_lt_of_reaches (s : g.IsGroup c terminal members) (h : g.Sound c) (hm : m ∈ members)
    (hreach : Relation.ReflTransGen (fun a b => b ∈ g.consumers a) m i) : i ∈ members ∨ terminal < i := by
  induction hreach with
  | refl => exact .inl hm
  | @tail j k _ hjk ih =>
    have hcons := (mem_consumers h.wellFormed).mp hjk
    have hlt := (h.wellFormed.lt_of_consumes hcons).1
    rcases ih with hj | hj
    · by_cases hne : j = terminal
      · exact .inr (hne ▸ hlt)
      · exact .inl ((s.consumer_mem h hj hne).2 k hcons)
    · exact .inr (Nat.lt_trans hj hlt)

theorem consumers_eq (s : g.IsGroup c terminal members) (h : g.Sound c) (hm : m ∈ members) (hne : m ≠ terminal) :
    g.isPinned m = false ∧ ∃ k : Nat, g.consumers m = [k] ∧ k ∈ members ∧ m < k := by
  obtain ⟨k, hk, hinput⟩ := s.consumed m hm hne
  obtain ⟨n, e, hmem⟩ := s.member k hk
  obtain ⟨hget, -, hpin⟩ := h.single_observer (s.observer m hm hne) ⟨hmem.live, hinput⟩
  exact ⟨hpin, k, (h.tracks.get_eq h.wellFormed m) ▸ hget, hk, h.wellFormed.inputs_lt hinput⟩

end IsGroup

end Graph

namespace Session

open Graph in
/-- The group collected for a live elementwise node, in every graph that an optimisation goes through from a graph of a
run, is closed: only its last node has consumers outside, and none of its inputs is computed from a member. -/
theorem group_closed_run (environment : Option String) (calls : List Call) (gid : Nat) (g : Graph)
    (hg : (run calls (start environment)).workspace.graph? gid = some g) (g' : Graph) (c : Consumers)
    (hit : g.Iteration g' c) (terminal : Nat) (last : Node) (hlast : g'.node? terminal = some last)
    (hlive : g'.isLive terminal = true) (helementwise : last.isElementwise = true) :
    let members := g'.group c terminal
    let externals := g'.externals members
    let uses := members.flatMap g'.inputs
    -- collection ends: more fuel gives no other group
    (∀ fuel : Nat, terminal < fuel → g'.growGroup c terminal fuel terminal [terminal] = members) ∧
    members.Pairwise (· < ·) ∧ members.getLast? = some terminal ∧
    (∀ m : Nat, m ∈ members → g'.isLive m = true ∧ ∃ n : Node, g'.node? m = some n ∧ n.isElementwise = true ∧
      n.shape = last.shape ∧ n.device = last.device) ∧
    (∀ m : Nat, m ∈ members → m ≠ terminal → g'.isPinned m = false ∧
      ∃ k : Nat, g'.consumers m = [k] ∧ k ∈ members ∧ m < k) ∧
    externals.Nodup ∧ (∀ i : Nat, i ∈ externals ↔ i ∈ uses ∧ i ∉ members) ∧
    externals.Pairwise (fun i j => uses.idxOf i < uses.idxOf j) ∧ externals.length ≤ 7 ∧
    ∀ i : Nat, i ∈ externals → i < terminal ∧
      ∀ m : Nat, m ∈ members → ¬ Relation.ReflTransGen (fun a b => b ∈ g'.consumers a) m i := by
  intro members externals uses
  have hsound := hit.sound (wellFormed_run calls (wellFormed_start environment) gid g hg)
  have hfusable : g'.isFusable terminal = true := by simp [isFusable, hlive, hlast, helementwise]
  have s : g'.IsGroup c terminal members := hsound.wellFormed.isGroup_group hfusable
  refine ⟨fun fuel hfuel => hsound.wellFormed.growGroup_eq (Nat.lt_succ_self _) hfuel _, s.sorted, ?_, fun m hm => ?_,
    fun m hm hne => s.consumers_eq hsound hm hne, nodup_externals, fun i => ?_, pairwise_idxOf_eraseDups _ _,
    s.externals_le, fun i hi => ⟨(s.external hsound.wellFormed hi).1, fun m hm hreach => ?_⟩⟩
  · rw [s.eq_dropLast_append, List.getLast?_append, List.getLast?_singleton, Option.some_or]
  · obtain ⟨n, e, hmem⟩ := s.member m hm
    refine ⟨hmem.live, n, hmem.node, by rw [Node.isElementwise, hmem.op]; rfl, ?_, ?_⟩
    · rw [hmem.shape, shapeOf_eq_of_node? hlast]
    · rw [hmem.device, deviceOf_eq_of_node? hlast]
  · rw [mem_externals, List.mem_flatMap]
  · have hlt := (s.external hsound.wellFormed hi).1
    rcases s.mem_or_lt_of_reaches hsound hm hreach with hmem | hgt
    · exact (mem_externals.mp hi).2 hmem
    · omega

/-- A sum of a product with itself: the group of the sum has both nodes, and the value they are made from is its input. -/
theorem group_closed_run_sum :
    let node (id : Int) : Handle := some ⟨0, id⟩
    let calls : List Call := [.newGraph "g", .construct (.fill (some 0) .cpu ⟨.float32, [2]⟩ .zero),
      .construct (.elementwise (.binary .mul) [node 0, node 0]),
      .construct (.elementwise (.binary .add) [node 1, node 1])]
    ∃ g, (run calls (start none)).workspace.graph? 0 = some g ∧ g.group (.ofGraph g) 2 = [1, 2] ∧
      g.externals [1, 2] = [0] ∧ g.consumers 1 = [2] := by
  intro node calls
  have hrun : ((run calls (start none)).workspace.graph? 0).any (fun g =>
      g.isLive 2 && (g.node? 2).any (·.isElementwise) && g.group (.ofGraph g) 2 == [1, 2] &&
        g.externals [1, 2] == [0]) = true := by decide +kernel
  obtain ⟨g, hg, hfacts⟩ := (Option.any_eq_true _ _).mp hrun
  simp only [Bool.and_eq_true, beq_iff_eq] at hfacts
  obtain ⟨⟨⟨hlive, hnode⟩, hgroup⟩, hexternals⟩ := hfacts
  obtain ⟨last, hlast, helementwise⟩ := (Option.any_eq_true _ _).mp hnode
  have hother : ∀ m : Nat, m ∈ g.group (.ofGraph g) 2 → m ≠ 2 → g.isPinned m = false ∧
      ∃ k : Nat, g.consumers m = [k] ∧ k ∈ g.group (.ofGraph g) 2 ∧ m < k :=
    (group_closed_run none calls 0 g hg _ _ (.mulAdds 0) 2 last hlast hlive helementwise).2.2.2.2.1
  rw [hgroup] at hother
  obtain ⟨-, k, hk, hmem, hlt⟩ := hother 1 (by decide) (by decide)
  obtain rfl : k = 2 := by
    simp only [List.mem_cons, List.not_mem_nil, or_false] at hmem
    omega
  exact ⟨g, hg, hgroup, hexternals, hk⟩

end Session

end LazyTensor
