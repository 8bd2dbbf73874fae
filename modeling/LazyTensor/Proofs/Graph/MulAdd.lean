import LazyTensor.Proofs.Graph.Rewriting

/-!
# Substitution of multiply-adds

A step replaces a live sum of floating point values by a multiply-add and absorbs the product, which the
sum alone consumes (`mulAddStep?_cases`). It keeps the graph well formed and the table exact, and so does
the whole pass; nodes other than such sums are as before.
-/

namespace LazyTensor.Graph

/-- The live sum with a number has a product as operand that it alone consumes. -/
structure MulAddSite (g : Graph) (c : Consumers) (id : Nat) (sum : Node) (product a b other : Nat) :
    Prop where
  sum_node : g.node? id = some sum
  sum_op : sum.op = .elementwise (.binary .add)
  sum_inputs : sum.inputs = [product, other] ∨ sum.inputs = [other, product]
  sum_live : g.isLive id = true
  sum_float : sum.shape.dtype.isFloat = true
  product_node : ∃ n, g.node? product = some n ∧ n.op = .elementwise (.binary .mul) ∧
    n.inputs = [a, b] ∧ n.shape = sum.shape
  product_ne : product ≠ other
  product_live : g.isLive product = true
  observer : g.hasSingleObserver c product = true

variable {g g' : Graph} {c c' : Consumers} {id : Nat}

private theorem absorbableProduct?_cases {sum : Node} {product other a b : Nat}
    (h : g.absorbableProduct? c sum product other = some (a, b)) :
    (∃ n, g.node? product = some n ∧ n.op = .elementwise (.binary .mul) ∧ n.inputs = [a, b] ∧
      n.shape = sum.shape) ∧
    product ≠ other ∧ g.isLive product = true ∧ g.hasSingleObserver c product = true := by
  simp only [absorbableProduct?] at h
  split at h
  · rename_i n hn
    split at h
    · rename_i x y hop hinputs
      split at h
      · rename_i hcond
        obtain ⟨hne, hlive, hobs, hcompat⟩ := hcond
        obtain ⟨rfl, rfl⟩ := h
        simp only [Node.compatible, Bool.and_eq_true, beq_iff_eq] at hcompat
        exact ⟨⟨n, hn, hop, hinputs, hcompat.2⟩, hne, hlive, hobs⟩
      · cases h
    · cases h
  · cases h

theorem mulAddStep?_cases (h : g.mulAddStep? c id = some (g', c')) :
    ∃ sum product a b other, g.MulAddSite c id sum product a b other ∧
      (g', c') = g.substitute c id sum product a b other := by
  simp only [mulAddStep?] at h
  -- the left operand is tried as the product first, then the right one
  split at h
  · rename_i sum hsum
    split at h
    · rename_i l r hop hinputs
      split at h
      · cases h
      · rename_i hlive
        simp only [Bool.or_eq_true, Bool.not_eq_true', not_or, Bool.not_eq_false] at hlive
        split at h
        · rename_i a b hab
          obtain ⟨hn, hne, hl, ho⟩ := absorbableProduct?_cases hab
          exact ⟨sum, l, a, b, r, ⟨hsum, hop, .inl hinputs, hlive.1, hlive.2, hn, hne, hl, ho⟩,
            (Option.some.inj h).symm⟩
        · split at h
          · rename_i a b hab
            obtain ⟨hn, hne, hl, ho⟩ := absorbableProduct?_cases hab
            exact ⟨sum, r, a, b, l, ⟨hsum, hop, .inr hinputs, hlive.1, hlive.2, hn, hne, hl, ho⟩,
              (Option.some.inj h).symm⟩
          · cases h
    · cases h
  · cases h

namespace MulAddSite

variable {sum : Node} {product a b other : Nat}

/-- The multiply-add that takes the place of the sum. -/
abbrev mulAdd (sum : Node) (a b other : Nat) : Node :=
  { sum with op := .elementwise .fusedMulAdd, inputs := [a, b, other] }

variable (s : g.MulAddSite c id sum product a b other)

include s

theorem consumes : g.Consumes id product := by
  refine ⟨s.sum_live, ?_⟩
  rw [inputs_eq_of_node? s.sum_node]
  rcases s.sum_inputs with h | h <;> simp [h]

theorem mem_inputs {i : Nat} : i ∈ g.inputs id ↔ i = product ∨ i = other := by
  rw [inputs_eq_of_node? s.sum_node]
  rcases s.sum_inputs with h | h
  · simp [h]
  · simp [h, or_comm]

theorem node?_substitute (j : Nat) : (g.substitute c id sum product a b other).1.node? j =
      if j = id then some (mulAdd sum a b other) else g.node? j := by
  rw [substitute, node?_absorb, node?_replace (lt_size_of_node? s.sum_node)]

theorem inputs_substitute (j : Nat) : (g.substitute c id sum product a b other).1.inputs j =
      if j = id then [a, b, other] else g.inputs j := by
  simp only [inputs, s.node?_substitute]
  split <;> rfl

theorem isLive_substitute (h : g.WellFormed) (j : Nat) :
    (g.substitute c id sum product a b other).1.isLive j = (g.isLive j && j != product) := by
  obtain ⟨hlt, hsize⟩ := h.lt_of_consumes s.consumes
  rw [substitute, isLive_absorb _ (by rw [size_replace]; omega), isLive_replace]

theorem shapeOf_substitute : (g.substitute c id sum product a b other).1.shapeOf = g.shapeOf := by
  rw [substitute, shapeOf_absorb]
  exact shapeOf_replace s.sum_node rfl

theorem deviceOf_substitute : (g.substitute c id sum product a b other).1.deviceOf = g.deviceOf := by
  rw [substitute, deviceOf_absorb]
  exact deviceOf_replace s.sum_node rfl

theorem factors : g.inputs product = [a, b] := by
  obtain ⟨n, hn, -, hinputs, -⟩ := s.product_node
  rw [inputs_eq_of_node? hn, hinputs]

theorem lt (h : g.WellFormed) : a < product ∧ b < product ∧ product < id ∧ other < id ∧ id < g.size := by
  have ha : a < product := h.inputs_lt (by rw [s.factors]; simp)
  have hb : b < product := h.inputs_lt (by rw [s.factors]; simp)
  have hp : product < id := (h.lt_of_consumes s.consumes).1
  have ho : other < id := h.inputs_lt (s.mem_inputs.mpr (.inr rfl))
  exact ⟨ha, hb, hp, ho, lt_size_of_node? s.sum_node⟩

/-- The multiply-add can stand in the place of the sum. -/
theorem fits (h : g.WellFormed) : g.Fits id (mulAdd sum a b other) := by
  obtain ⟨ha, hb, hp, ho, hsize⟩ := s.lt h
  obtain ⟨n, hn, hmul, hfactors, hshape⟩ := s.product_node
  have hsum := h.fits id sum s.sum_node
  have hproduct := h.fits product n hn
  have hother : other ∈ sum.inputs := by rcases s.sum_inputs with h | h <;> simp [h]
  have hprod_mem : product ∈ sum.inputs := by rcases s.sum_inputs with h | h <;> simp [h]
  have hdev : n.device = sum.device := by
    rw [← deviceOf_eq_of_node? hn, hsum.same_device product hprod_mem]
  -- the inputs are those of the sum and of the product, which have one shape and device
  have hinput : ∀ i : Nat, i ∈ [a, b, other] → i < id ∧ g.shapeOf i = sum.shape ∧
      g.deviceOf i = sum.device := by
    intro i hi
    by_cases hio : i = other
    · subst hio
      exact ⟨ho, hsum.shapeOf_input s.sum_op hother, hsum.same_device i hother⟩
    · have hi' : i ∈ n.inputs := by
        rw [hfactors]
        simp only [List.mem_cons, List.not_mem_nil, or_false] at hi ⊢
        omega
      refine ⟨Nat.lt_trans (hproduct.inputs_lt i hi') hp, ?_, ?_⟩
      · rw [hproduct.shapeOf_input hmul hi', hshape]
      · rw [hproduct.same_device i hi', hdev]
  exact {
    inputs_lt := fun i hi => (hinput i hi).1
    accepts := by
      have hmap : [a, b, other].map g.shapeOf = List.replicate Elementwise.fusedMulAdd.arity sum.shape := by
        simp [Elementwise.arity, (hinput a (by simp)).2.1, (hinput b (by simp)).2.1,
          (hinput other (by simp)).2.1]
      rw [hmap]
      exact .elementwise .fusedMulAdd sum.shape ⟨nofun, nofun⟩
    valid := hsum.valid
    device_ok := hsum.device_ok
    same_device := fun i hi => (hinput i hi).2.2
    distinct := nofun }

theorem not_consumes_product (h : g.Sound c) (k : Nat) :
    ¬ (g.substitute c id sum product a b other).1.Consumes k product := by
  obtain ⟨ha, hb, hp, ho, hsize⟩ := s.lt h.wellFormed
  obtain ⟨-, honly, -⟩ := h.single_observer s.observer s.consumes
  rintro ⟨hlive, hmem⟩
  rw [s.isLive_substitute h.wellFormed, Bool.and_eq_true] at hlive
  rw [s.inputs_substitute] at hmem
  split at hmem
  · simp only [List.mem_cons, List.not_mem_nil, or_false] at hmem
    have := s.product_ne
    omega
  · rename_i hk
    exact hk (honly k ⟨hlive.1, hmem⟩)

/-- One substitution keeps the graph well formed. -/
theorem wellFormed (h : g.WellFormed) : (g.substitute c id sum product a b other).1.WellFormed := by
  obtain ⟨ha, hb, hp, ho, hsize⟩ := s.lt h
  have hlive := isLive_iff.mp s.sum_live
  refine h.rewrite ?_ ?_ ?_ ?_ ?_
  · exact s.shapeOf_substitute
  · exact s.deviceOf_substitute
  · intro j n hn
    rw [s.node?_substitute] at hn
    split at hn
    · rename_i hj
      obtain rfl := Option.some.inj hn
      exact .inr (hj ▸ s.fits h)
    · exact .inl hn
  · intro j
    rw [substitute, constructed?_absorb, constructed?_replace]
  · intro j t hj
    rw [substitute, into?_absorb _ (by rw [size_replace]; omega), into?_replace] at hj
    rw [substitute, size_absorb, size_replace, into?_absorb _ (by rw [size_replace]; omega), into?_replace]
    -- the sum is live, so nothing that goes into it goes on into the product
    have hid : ¬ (id = product ∨ g.into? id = some product) := by
      rw [hlive]
      simp
      omega
    split at hj
    · rename_i hcase
      obtain rfl := Option.some.inj hj
      refine ⟨?_, hsize, by rw [if_neg hid, hlive]⟩
      rcases hcase with rfl | hinto
      · exact hp
      · exact Nat.lt_trans (h.into_live j product hinto).1 hp
    · rename_i hcase
      obtain ⟨hjt, ht, htlive⟩ := h.into_live j t hj
      refine ⟨hjt, ht, ?_⟩
      have htp : ¬ (t = product ∨ g.into? t = some product) := by
        rw [htlive]
        rintro (rfl | hnone)
        · exact hcase (.inr hj)
        · cases hnone
      rw [if_neg htp, htlive]

theorem get_substitute (h : g.Sound c) (j : Nat) : (g.substitute c id sum product a b other).2.get j =
      if j = product then [] else
        let one := if a = j then Consumers.including id (Consumers.without product (c.get j)) else c.get j
        if b = j then Consumers.including id (Consumers.without product one) else one := by
  obtain ⟨ha, hb, hp, ho, hsize⟩ := s.lt h.wellFormed
  have hsz := h.tracks.size
  simp only [substitute, List.foldl_cons, List.foldl_nil]
  rw [Consumers.get_add (by simp; omega), Consumers.get_remove,
    Consumers.get_add (by simp; omega), Consumers.get_remove, Consumers.get_clear]
  by_cases hj : j = product
  · subst hj
    have haj : ¬ a = j := by omega
    have hbj : ¬ b = j := by omega
    simp [haj, hbj]
  · have hj' : ¬ product = j := fun h => hj h.symm
    simp only [hj, hj']
    by_cases haj : a = j <;> by_cases hbj : b = j <;> simp [haj, hbj]

/-- One substitution keeps the table of consumers in step with the graph. -/
theorem tracks (h : g.Sound c) :
    (g.substitute c id sum product a b other).2.Tracks (g.substitute c id sum product a b other).1 where
  size := by
    have := h.tracks.size
    simp [substitute, this]
  sorted j := by
    rw [s.get_substitute h]
    have hsorted := h.tracks.sorted j
    have hone := Consumers.sorted_including (k := id) (Consumers.sorted_without (k := product) hsorted)
    split
    · exact List.Pairwise.nil
    · dsimp only
      split <;> split
      · exact Consumers.sorted_including (Consumers.sorted_without hone)
      · exact hone
      · exact hone
      · exact hsorted
  mem j k := by
    obtain ⟨ha, hb, hp, ho, hsize⟩ := s.lt h.wellFormed
    -- no node takes the product any more, and its factors are now taken by the sum
    by_cases hj : j = product
    · rw [s.get_substitute h, hj]
      simpa using s.not_consumes_product h k
    · have hinputs : ∀ i, i ∈ g.inputs product ↔ i = a ∨ i = b := by
        rw [s.factors]
        simp
      have hget : k ∈ (g.substitute c id sum product a b other).2.get j ↔
          if j = a ∨ j = b then k = id ∨ (g.Consumes k j ∧ k ≠ product) else g.Consumes k j := by
        rw [s.get_substitute h, ← h.tracks.mem j k]
        by_cases haj : a = j <;> by_cases hbj : b = j <;>
          simp [haj, hbj, Consumers.mem_including, Consumers.mem_without] <;> grind
      rw [hget]
      unfold Consumes
      rw [s.isLive_substitute h.wellFormed, s.inputs_substitute]
      have hid : g.isLive id = true := s.sum_live
      have hmem := s.mem_inputs (i := j)
      have hpj := hinputs j
      by_cases hk : k = id
      · subst hk
        grind
      · by_cases hkp : k = product
        · subst hkp
          grind
        · simp [hk, hkp]

theorem rewritten (h : g.Sound c) : g.Rewritten (g.substitute c id sum product a b other).1 where
  size_eq := by rw [substitute, size_absorb, size_replace]
  shapeOf_eq := s.shapeOf_substitute
  deviceOf_eq := s.deviceOf_substitute
  constructed?_eq j := by rw [substitute, constructed?_absorb, constructed?_replace]
  isPinned_eq j := by rw [substitute, isPinned_absorb, isPinned_replace]
  live_of_live j hj := by
    rw [s.isLive_substitute h.wellFormed, Bool.and_eq_true] at hj
    exact hj.1
  live_of_pinned j hlive hpin := by
    obtain ⟨-, -, hunpinned⟩ := h.single_observer s.observer s.consumes
    rw [s.isLive_substitute h.wellFormed, hlive, Bool.true_and, bne_iff_ne]
    rintro rfl
    rw [hunpinned] at hpin
    cases hpin
  inputsLive hg k i hk hi := by
    have hip : i ≠ product := by
      rintro rfl
      exact s.not_consumes_product h k ⟨hk, hi⟩
    rw [s.isLive_substitute h.wellFormed, Bool.and_eq_true] at hk ⊢
    refine ⟨?_, by simpa using hip⟩
    rw [s.inputs_substitute] at hi
    split at hi
    · simp only [List.mem_cons, List.not_mem_nil, or_false] at hi
      -- the factors are inputs of the live product, the other operand is one of the live sum
      rcases hi with rfl | rfl | rfl
      · exact hg product i s.product_live (by rw [s.factors]; simp)
      · exact hg product i s.product_live (by rw [s.factors]; simp)
      · exact hg id i s.sum_live (s.mem_inputs.mpr (.inr rfl))
    · exact hg k i hk.1 hi

end MulAddSite

/-! ## The pass -/

theorem Sound.mulAddStep (h : g.Sound c) (hstep : g.mulAddStep? c id = some (g', c')) :
    g'.Sound c' ∧ g.Rewritten g' := by
  obtain ⟨sum, product, a, b, other, s, heq⟩ := mulAddStep?_cases hstep
  obtain ⟨rfl, rfl⟩ := Prod.mk.inj heq
  exact ⟨⟨s.wellFormed h.wellFormed, s.tracks h⟩, s.rewritten h⟩

theorem substituteMulAdds_induction {motive : Graph → Prop} (h : g.WellFormed) (hg : motive g)
    (hstep : ∀ (g₁ : Graph) (c₁ : Consumers) (id : Nat) (g₂ : Graph) (c₂ : Consumers), g₁.Sound c₁ →
      g₁.mulAddStep? c₁ id = some (g₂, c₂) → motive g₁ → motive g₂) :
    g.substituteMulAdds.1.WellFormed ∧ motive g.substituteMulAdds.1 := by
  have hpass := pass_induction mulAddStep? (motive := fun g' c' _ => g'.Sound c' ∧ motive g')
    (fun g₁ c₁ _ id g₂ c₂ h₁ hs =>
      ⟨(h₁.1.mulAddStep hs).1, hstep g₁ c₁ id g₂ c₂ h₁.1 hs h₁.2⟩)
    g.ids (s := (g, Consumers.ofGraph g, 0)) ⟨⟨h, Consumers.ofGraph_tracks h⟩, hg⟩
  have heq : g.substituteMulAdds.1 = (pass mulAddStep? g.ids (g, Consumers.ofGraph g, 0)).1 := by
    rfl
  exact ⟨hpass.1.wellFormed, hpass.2⟩

theorem WellFormed.substituteMulAdds (h : g.WellFormed) :
    g.substituteMulAdds.1.WellFormed ∧ g.Rewritten g.substituteMulAdds.1 :=
  substituteMulAdds_induction h (.refl g) fun _ _ _ _ _ hs hstep hr => hr.trans (hs.mulAddStep hstep).2

theorem WellFormed.node?_substituteMulAdds (h : g.WellFormed) {n : Node} (hn : g.node? id = some n)
    (hop : n.op = .elementwise (.binary .add) → n.shape.dtype.isFloat = false) :
    g.substituteMulAdds.1.node? id = some n := by
  refine (substituteMulAdds_induction (motive := fun g' => g'.node? id = some n) h hn ?_).2
  intro g₁ c₁ j g₂ c₂ _ hstep h₁
  obtain ⟨sum, product, a, b, other, s, heq⟩ := mulAddStep?_cases hstep
  have hg₂ : g₂ = (g₁.substitute c₁ j sum product a b other).1 := congrArg Prod.fst heq
  rw [hg₂, s.node?_substitute]
  split
  · rename_i hid
    subst hid
    obtain rfl := Option.some.inj (h₁.symm.trans s.sum_node)
    have hinteger := hop s.sum_op
    rw [s.sum_float] at hinteger
    cases hinteger
  · exact h₁

end LazyTensor.Graph
