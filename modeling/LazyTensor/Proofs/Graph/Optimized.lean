import LazyTensor.Proofs.Graph.GroupValue

/-!
# Optimisation keeps values

Fusion keeps the value of every node that depends on no elements of 16 bits: of the node that becomes a
program, of those that are absorbed, and of all that are computed from them. The substitution of multiply-adds
rounds once less, so it only keeps the values of nodes that are computed from no floating point values. Neither
makes a node depend on more nodes than before.
-/

namespace LazyTensor.Graph

variable {g g' g'' : Graph} {c c' : Consumers} {id : Nat}

/-! ## Dependencies -/

/-- No node of `g'` depends on more nodes than in `g`, and no more nodes leave their outputs as they are. -/
structure Narrows (g g' : Graph) : Prop where
  shapeOf_eq : g'.shapeOf = g.shapeOf
  inputs : ∀ id j : Nat, j ∈ g'.inputs id → g.DependsOn id j
  skips : ∀ id : Nat, g'.skips id = true → g.skips id = true

theorem Narrows.refl (g : Graph) : g.Narrows g := ⟨rfl, fun _ _ hj => .input hj, fun _ h => h⟩

theorem Narrows.dependsOn (h : g.Narrows g') {j : Nat} (hj : g'.DependsOn id j) : g.DependsOn id j := by
  induction hj with
  | input hi => exact h.inputs _ _ hi
  | step hi _ ih => exact (h.inputs _ _ hi).trans ih

theorem Narrows.trans (h : g.Narrows g') (h' : g'.Narrows g'') : g.Narrows g'' where
  shapeOf_eq := h'.shapeOf_eq.trans h.shapeOf_eq
  inputs id j hj := h.dependsOn (h'.inputs id j hj)
  skips id hid := h.skips id (h'.skips id hid)

theorem Narrows.determined (h : g.Narrows g') (hid : g.Determined id) : g'.Determined id := by
  intro j hj
  have hfalse := hid j (hj.imp_right h.dependsOn)
  rw [Bool.eq_false_iff] at hfalse ⊢
  exact fun htrue => hfalse (h.skips j htrue)

theorem Narrows.of_replaced {terminal : Nat} {n : Node} (hshape : g'.shapeOf = g.shapeOf)
    (hnode : ∀ j : Nat, g'.node? j = if j = terminal then some n else g.node? j)
    (hinputs : ∀ j : Nat, j ∈ n.inputs → g.DependsOn terminal j)
    (hskips : ∀ shapes, n.op.skipsOutput shapes n.shape = false) : g.Narrows g' where
  shapeOf_eq := hshape
  inputs id j hj := by
    rw [Graph.inputs, hnode] at hj
    split at hj
    · rename_i hid
      subst hid
      exact hinputs j hj
    · exact .input hj
  skips id hid := by
    rw [Graph.skips, hnode, hshape] at hid
    split at hid
    · rw [Option.any_some, hskips] at hid
      cases hid
    · exact hid

theorem Sound.narrows_fuseStep (h : g.Sound c) (hstep : g.fuseStep? c id = some (g', c')) : g.Narrows g' := by
  obtain ⟨terminal, members, last, s, -, hlast, heq⟩ := fuseStep?_cases h.wellFormed hstep
  have hg' : g' = IsGroup.fusedGraph g c terminal members last := congrArg Prod.fst heq
  rw [hg']
  exact .of_replaced (IsGroup.shapeOf_fuseGroup hlast) (IsGroup.node?_fuseGroup hlast)
    (fun x hx => s.dependsOn_external h.wellFormed hx) fun _ => rfl

theorem Sound.narrows_mulAddStep (_ : g.Sound c) (hstep : g.mulAddStep? c id = some (g', c')) : g.Narrows g' := by
  obtain ⟨sum, product, a, b, other, s, heq⟩ := mulAddStep?_cases hstep
  obtain ⟨rfl, rfl⟩ := Prod.mk.inj heq
  have hproduct : g.DependsOn id product := .input (s.mem_inputs.mpr (.inl rfl))
  refine .of_replaced s.shapeOf_substitute s.node?_substitute (fun j hj => ?_) fun _ => rfl
  -- the factors are inputs of the product
  have hj : j = a ∨ j = b ∨ j = other := by simpa using hj
  rcases hj with rfl | rfl | rfl
  · exact hproduct.trans (.input (by rw [s.factors]; simp))
  · exact hproduct.trans (.input (by rw [s.factors]; simp))
  · exact .input (s.mem_inputs.mpr (.inr rfl))

theorem WellFormed.narrows_fuseAll (h : g.WellFormed) (fuel : Nat) : g.Narrows (Graph.fuseAll fuel g).1 :=
  (fuseAll_induction (fun _ _ _ _ _ hs hstep hr => hr.trans (hs.narrows_fuseStep hstep)) fuel h (.refl g)).2

theorem WellFormed.narrows_substituteMulAdds (h : g.WellFormed) : g.Narrows g.substituteMulAdds.1 :=
  (substituteMulAdds_induction h (.refl g) fun _ _ _ _ _ hs hstep hr => hr.trans (hs.narrows_mulAddStep hstep)).2

theorem WellFormed.narrows_optimize (h : g.WellFormed) : g.Narrows g.optimize := by
  have hfuse := h.substituteMulAdds.1.narrows_fuseAll g.substituteMulAdds.1.size
  have hcount : (Graph.fuseAll g.substituteMulAdds.1.size g.substituteMulAdds.1).1.Narrows g.optimize :=
    ⟨rfl, fun _ _ hj => .input hj, fun _ hid => hid⟩
  exact (h.narrows_substituteMulAdds.trans hfuse).trans hcount

/-! ## Fusion -/

/-- Neither the node nor what it depends on has elements of 16 bits. -/
def HalfFree (g : Graph) (id : Nat) : Prop :=
  ∀ j : Nat, id = j ∨ g.DependsOn id j → (g.shapeOf j).dtype.isHalf = false

theorem HalfFree.input {j : Nat} (h : g.HalfFree id) (hj : j ∈ g.inputs id) : g.HalfFree j := by
  rintro i (rfl | hi)
  · exact h _ (.inr (.input hj))
  · exact h _ (.inr (.step hj hi))

theorem Narrows.halfFree (h : g.Narrows g') (hid : g.HalfFree id) : g'.HalfFree id := by
  intro j hj
  rw [h.shapeOf_eq]
  exact hid j (hj.imp_right h.dependsOn)

/-- One fusion changes no value that does not depend on half types. -/
theorem Sound.value?_fuseStep (h : g.Sound c) {start : Nat} (hstep : g.fuseStep? c start = some (g', c'))
    (hid : g.HalfFree id) : g'.value? id = g.value? id := by
  obtain ⟨terminal, members, last, s, -, hlast, heq⟩ := fuseStep?_cases h.wellFormed hstep
  have hg' : g' = IsGroup.fusedGraph g c terminal members last := congrArg Prod.fst heq
  have hwf := h.wellFormed
  have hwf' := s.wellFormed_fuseGroup hwf hlast
  rw [hg']
  -- on the number of the node: all it depends on has smaller ones
  induction id using Nat.strongRecOn with
  | ind id ih =>
    by_cases hterminal : id = terminal
    · subst hterminal
      refine s.value?_terminal hwf hlast (hid id (.inl rfl)) fun x hx => ?_
      refine ih x (s.external hwf hx).1 fun j hj => hid j (.inr ?_)
      have hx' := s.dependsOn_external hwf hx
      rcases hj with rfl | hj
      · exact hx'
      · exact hx'.trans hj
    · have hsame : (IsGroup.fusedGraph g c terminal members last).node? id = g.node? id := by
        rw [IsGroup.node?_fuseGroup hlast, if_neg hterminal]
      cases hn : g.node? id with
      | none => rw [value?_eq_none hn, value?_eq_none (hsame.trans hn)]
      | some n =>
        rw [hwf.value?_eq hn, hwf'.value?_eq (hsame.trans hn)]
        congr 1
        refine mapM_congr fun i hi => ?_
        rw [← inputs_eq_of_node? hn] at hi
        exact ih i (hwf.inputs_lt hi) (hid.input hi)

theorem WellFormed.value?_fuseAll (h : g.WellFormed) (fuel : Nat) (hid : g.HalfFree id) :
    (Graph.fuseAll fuel g).1.value? id = g.value? id := by
  refine (fuseAll_induction (motive := fun g' => g.Narrows g' ∧ g'.value? id = g.value? id) ?_ fuel h
    ⟨.refl g, rfl⟩).2.2
  intro g₁ c₁ start g₂ c₂ hsound hstep hg₁
  exact ⟨hg₁.1.trans (hsound.narrows_fuseStep hstep),
    (hsound.value?_fuseStep hstep (hg₁.1.halfFree hid)).trans hg₁.2⟩

/-! ## Multiply-adds -/

/-- The node is computed from no floating point values. -/
def FloatFree (g : Graph) (id : Nat) : Prop :=
  ∀ j : Nat, g.DependsOn id j → (g.shapeOf j).dtype.isFloat = false

/-- Substitutions change no value that does not depend on floats. -/
theorem WellFormed.value?_substituteMulAdds (h : g.WellFormed) (hid : g.FloatFree id) :
    g.substituteMulAdds.1.value? id = g.value? id := by
  obtain ⟨hwf', hrewritten⟩ := h.substituteMulAdds
  induction id using Nat.strongRecOn with
  | ind id ih =>
    cases hn : g.node? id with
    | none =>
      cases hn' : g.substituteMulAdds.1.node? id with
      | none => rw [value?_eq_none hn, value?_eq_none hn']
      | some n' =>
        have hlt := lt_size_of_node? hn'
        rw [hrewritten.size_eq] at hlt
        obtain ⟨n, hn''⟩ := exists_node?_of_lt hlt
        exact nomatch hn.symm.trans hn''
    | some n =>
      have hsame : g.substituteMulAdds.1.node? id = some n := by
        refine h.node?_substituteMulAdds hn fun hadd => ?_
        -- the operands of a sum have its type
        have hfits := h.fits id n hn
        have hpos : 0 < n.inputs.length := by
          rw [(hfits.length_inputs hadd).1]
          exact Nat.zero_lt_succ 1
        obtain ⟨i, hi⟩ := List.exists_mem_of_length_pos hpos
        rw [← hfits.shapeOf_input hadd hi]
        refine hid i (.input ?_)
        rwa [inputs_eq_of_node? hn]
      rw [h.value?_eq hn, hwf'.value?_eq hsame]
      congr 1
      refine mapM_congr fun i hi => ?_
      rw [← inputs_eq_of_node? hn] at hi
      exact ih i (h.inputs_lt hi) fun j hj => hid j (.step hi hj)

/-- Optimisation keeps the values of nodes that are computed from no floating point values and have no elements of
16 bits. -/
theorem WellFormed.value?_optimize (h : g.WellFormed) (hhalf : g.HalfFree id) (hfloat : g.FloatFree id) :
    g.optimize.value? id = g.value? id := by
  obtain ⟨hwf, -⟩ := h.substituteMulAdds
  have hfuse := hwf.value?_fuseAll g.substituteMulAdds.1.size (h.narrows_substituteMulAdds.halfFree hhalf)
  have hcount : g.optimize.value? = (Graph.fuseAll g.substituteMulAdds.1.size g.substituteMulAdds.1).1.value? :=
    -- the number of rewrites is no part of a node
    value?_congr fun _ => rfl
  rw [hcount, hfuse, h.value?_substituteMulAdds hfloat]

end LazyTensor.Graph
