import LazyTensor.Proofs.Graph.Compute
import LazyTensor.Proofs.Graph.Idempotence
import LazyTensor.Proofs.Run

/-!
# Multiply-adds in exact arithmetic

Substitution of multiply-adds changes how results are rounded, and nothing else: in every interpretation
of the operations in which a multiply-add is the sum of a product and sums are commutative, each node has
the same meaning before and after it. The pass also does no more than it should. What it replaces are live
sums of floating point values, and what it absorbs are products that one of these sums alone takes.
-/

namespace LazyTensor

/-! ## Interpretations -/

/-- Elements by their index, and the shape they have. -/
structure Meaning (α : Type) where
  shape : Shape
  element : Nat → α

/-- What the operations compute. The elementwise ones are functions of elements, for each data type; everything
else, constants, products of matrices, transpositions, casts and fused programs, is any function of the whole
operands. -/
structure Interpretation (α : Type) where
  unary : DType → UnaryOp → α → α
  binary : DType → BinaryOp → α → α → α
  mulAdd : DType → α → α → α → α
  other : Operation → List (Meaning α) → Shape → Nat → α

namespace Interpretation

variable {α : Type}

/-- A multiply-add is the sum of a product and a third operand, and sums are commutative. -/
structure Exact (I : Interpretation α) : Prop where
  mulAdd_eq : ∀ t a b c, I.mulAdd t a b c = I.binary t .add (I.binary t .mul a b) c
  add_comm : ∀ t a b, I.binary t .add a b = I.binary t .add b a

/-- The elements of an operation on its operands. An elementwise one has none for the wrong number of operands. -/
def elements? (I : Interpretation α) (op : Operation) (args : List (Meaning α)) (shape : Shape) :
    Option (Nat → α) :=
  match op, args with
  | .elementwise (.unary op), [x] => some fun i => I.unary shape.dtype op (x.element i)
  | .elementwise (.binary op), [x, y] => some fun i => I.binary shape.dtype op (x.element i) (y.element i)
  | .elementwise .fusedMulAdd, [x, y, z] =>
    some fun i => I.mulAdd shape.dtype (x.element i) (y.element i) (z.element i)
  | .elementwise _, _ => none
  | op, args => some (I.other op args shape)

/-- What a node means, given what its inputs mean. -/
def meaningOf? (I : Interpretation α) (n : Node) (args : List (Meaning α)) : Option (Meaning α) :=
  (I.elements? n.op args n.shape).map (Meaning.mk n.shape)

end Interpretation

/-- What a node means. -/
def Graph.meaning? {α : Type} (g : Graph) (I : Interpretation α) : Nat → Option (Meaning α) := g.compute? I.meaningOf?

namespace Graph

variable {α : Type} {I : Interpretation α} {g g' : Graph} {c c' : Consumers} {id product other : Nat} {sum : Node}

theorem WellFormed.meaning?_isSome (h : g.WellFormed) (hid : id < g.size) : (g.meaning? I id).isSome = true := by
  apply h.compute?_isSome _ hid
  intro id n args hn hlength
  -- only elementwise nodes care how many operands they have, and they have the right number
  cases hop : n.op with
  | elementwise e =>
    have harity : args.length = e.arity := hlength.trans ((h.fits id n hn).length_inputs hop).1
    cases e with
    | unary op =>
      match args, harity with
      | [x], _ => simp [Interpretation.meaningOf?, Interpretation.elements?, hop]
    | binary op =>
      match args, harity with
      | [x, y], _ => simp [Interpretation.meaningOf?, Interpretation.elements?, hop]
    | fusedMulAdd =>
      match args, harity with
      | [x, y, z], _ => simp [Interpretation.meaningOf?, Interpretation.elements?, hop]
  | _ => simp [Interpretation.meaningOf?, Interpretation.elements?, hop]

/-! ## One substitution -/

/-- A sum of a product and another operand, in either order, means the same as the multiply-add. -/
theorem MulAddSite.meaning?_mulAdd {a b : Nat} (s : g.MulAddSite c id sum product a b other) (h : g.WellFormed)
    (hI : I.Exact) :
    ((mulAdd sum a b other).inputs.mapM (g.meaning? I)).bind (I.meaningOf? (mulAdd sum a b other)) =
      g.meaning? I id := by
  obtain ⟨ha, hb, hp, ho, hsize⟩ := s.lt h
  obtain ⟨n, hn, hmul, hfactors, hshape⟩ := s.product_node
  have hmeaning : ∀ j : Nat, j < g.size → ∃ m, g.meaning? I j = some m := fun j hj =>
    Option.isSome_iff_exists.mp (h.meaning?_isSome hj)
  obtain ⟨ma, hma⟩ := hmeaning a (by omega)
  obtain ⟨mb, hmb⟩ := hmeaning b (by omega)
  obtain ⟨mo, hmo⟩ := hmeaning other (by omega)
  -- the product has the shape of the sum, and so the same data type
  have hproduct : g.meaning? I product =
      some ⟨sum.shape, fun i => I.binary sum.shape.dtype .mul (ma.element i) (mb.element i)⟩ := by
    unfold meaning? at hma hmb ⊢
    simp [h.compute?_eq hn, hfactors, hma, hmb, Interpretation.meaningOf?, Interpretation.elements?, hmul, hshape]
  have hsum := h.compute?_eq (f := I.meaningOf?) s.sum_node
  unfold meaning? at hproduct hma hmb hmo ⊢
  rw [hsum]
  rcases s.sum_inputs with hinputs | hinputs
  · simp [hinputs, hma, hmb, hmo, hproduct, Interpretation.meaningOf?, Interpretation.elements?, s.sum_op, hI.mulAdd_eq]
  · -- the product is the right operand
    have hcomm : ∀ i : Nat, I.binary sum.shape.dtype .add (mo.element i)
        (I.binary sum.shape.dtype .mul (ma.element i) (mb.element i)) =
          I.binary sum.shape.dtype .add (I.binary sum.shape.dtype .mul (ma.element i) (mb.element i))
            (mo.element i) := fun i => hI.add_comm _ _ _
    simp [hinputs, hma, hmb, hmo, hproduct, Interpretation.meaningOf?, Interpretation.elements?, s.sum_op, hI.mulAdd_eq,
      hcomm]

theorem MulAddSite.meaning?_substitute {a b : Nat} (s : g.MulAddSite c id sum product a b other) (h : g.WellFormed)
    (hI : I.Exact) : (g.substitute c id sum product a b other).1.meaning? I = g.meaning? I := by
  have hnode : ∀ j : Nat, j ≠ id → (g.substitute c id sum product a b other).1.node? j = g.node? j := by
    intro j hj
    rw [s.node?_substitute, if_neg hj]
  apply h.compute?_replaced (s.wellFormed h) hnode
  · rw [s.node?_substitute, if_pos rfl]
  · exact s.meaning?_mulAdd h hI

/-! ## The pass -/

theorem WellFormed.meaning?_substituteMulAdds (h : g.WellFormed) (hI : I.Exact) :
    g.substituteMulAdds.1.meaning? I = g.meaning? I := by
  apply (substituteMulAdds_induction (motive := fun g' => g'.meaning? I = g.meaning? I) h rfl _).2
  intro g₁ c₁ id g₂ c₂ hs hstep hmeaning
  obtain ⟨sum, product, a, b, other, s, heq⟩ := mulAddStep?_cases hstep
  have hg₂ : g₂ = (g₁.substitute c₁ id sum product a b other).1 := congrArg Prod.fst heq
  rw [hg₂, s.meaning?_substitute hs.wellFormed hI, hmeaning]

/-- What a pass has done so far. A node that was replaced has become a multiply-add, and was a live sum of floating
point values. A node that was absorbed is a product that one of these sums alone took. All of it is told in the
graph before the pass, to which sums of products lead back. -/
structure Substituted (g g' : Graph) : Prop where
  replaced : ∀ (id : Nat) (n : Node), g'.node? id = some n → g.node? id = some n ∨
    n.op = .elementwise .fusedMulAdd ∧ g.isLive id = true ∧
      ∃ sum, g.node? id = some sum ∧ sum.op = .elementwise (.binary .add) ∧ sum.shape.dtype.isFloat = true
  live_of_live : ∀ id : Nat, g'.isLive id = true → g.isLive id = true
  absorbed : ∀ id : Nat, g.isLive id = true → g'.isLive id = false →
    ∃ sum, g'.into? id = some sum ∧ (g'.node? sum).any (·.op.kind == .elementwise .fusedMulAdd) = true ∧
      g.SumOfProduct sum id
  sumOfProduct : ∀ sum product : Nat, g'.SumOfProduct sum product → g.SumOfProduct sum product

theorem Substituted.refl (g : Graph) : g.Substituted g where
  replaced _ _ hn := .inl hn
  live_of_live _ h := h
  absorbed id hlive hdead := by simp [hlive] at hdead
  sumOfProduct _ _ h := h

/-- One more substitution relates to the graph as the ones before it do. -/
theorem Substituted.substitute {g₁ : Graph} {a b : Nat} (hsub : g.Substituted g₁) (h : g₁.Sound c)
    (s : g₁.MulAddSite c id sum product a b other) : g.Substituted (g₁.substitute c id sum product a b other).1 := by
  have hmerges := s.merges h
  have hsite := hsub.sumOfProduct id product (s.sumOfProduct h)
  have hlive := s.isLive_substitute h.wellFormed
  obtain ⟨-, -, hp, -, hsize⟩ := s.lt h.wellFormed
  refine ⟨?_, ?_, ?_, fun sum' product' hsum => hsub.sumOfProduct sum' product' (hmerges.sumOfProduct hsum)⟩
  · intro j n hn
    rw [s.node?_substitute] at hn
    split at hn
    · rename_i hj
      subst hj
      obtain rfl := Option.some.inj hn
      obtain ⟨node, other', hnode, hop, hfloat, -⟩ := hsite.sum_node
      exact .inr ⟨rfl, hsite.consumes.1, node, hnode, hop, hfloat⟩
    · exact hsub.replaced j n hn
  · intro j hj
    rw [hlive, Bool.and_eq_true] at hj
    exact hsub.live_of_live j hj.1
  · intro j hj hdead
    rw [hlive] at hdead
    have hinto : ((g₁.replace id (MulAddSite.mulAdd sum a b other)).absorb product id).into? j =
        if j = product ∨ g₁.into? j = some product then some id else g₁.into? j := by
      rw [into?_absorb id (by rw [size_replace]; omega), into?_replace]
    by_cases hjp : j = product
    · -- the product itself, which now goes into the sum
      subst hjp
      refine ⟨id, ?_, ?_, hsite⟩
      · rw [Graph.substitute, hinto, if_pos (.inl rfl)]
      · simp [s.node?_substitute, Operation.kind]
    · have hdead₁ : g₁.isLive j = false := by simpa [hjp] using hdead
      obtain ⟨sum', hsum', hkind, hsite'⟩ := hsub.absorbed j hj hdead₁
      refine ⟨sum', ?_, ?_, hsite'⟩
      · -- what has absorbed nodes is a multiply-add, and so not the product
        have hne : sum' ≠ product := by
          rintro rfl
          obtain ⟨n, hn, hop, -⟩ := s.product_node
          simp [hn, hop, Operation.kind] at hkind
        rw [Graph.substitute, hinto, if_neg (by simp [hjp, hsum', hne]), hsum']
      · rw [s.node?_substitute]
        split
        · simp [Operation.kind]
        · exact hkind

theorem WellFormed.substituted (h : g.WellFormed) : g.Substituted g.substituteMulAdds.1 := by
  apply (substituteMulAdds_induction h (.refl g) _).2
  intro g₁ c₁ id g₂ c₂ hs hstep hsub
  obtain ⟨sum, product, a, b, other, s, heq⟩ := mulAddStep?_cases hstep
  have hg₂ : g₂ = (g₁.substitute c₁ id sum product a b other).1 := congrArg Prod.fst heq
  rw [hg₂]
  exact hsub.substitute hs s

theorem SumOfProduct.consumers_eq {sum : Nat} (p : g.SumOfProduct sum product) (h : g.WellFormed) :
    g.consumers product = [sum] := by
  apply eq_of_sorted_of_mem_iff sorted_consumers (List.pairwise_singleton _ _)
  intro k
  rw [mem_consumers h, List.mem_singleton]
  constructor
  · exact p.only k
  · rintro rfl
    exact p.consumes

/-! ## Counting -/

theorem MulAddSite.numNodes_substitute {a b : Nat} (s : g.MulAddSite c id sum product a b other) (h : g.Sound c) :
    (g.substitute c id sum product a b other).1.numNodes + 1 = g.numNodes := by
  obtain ⟨n, hn, -⟩ := s.product_node
  have hmem : product ∈ g.liveIds := mem_liveIds.mpr ⟨lt_size_of_node? hn, s.product_live⟩
  have hids : (g.substitute c id sum product a b other).1.liveIds = g.liveIds.erase product := by
    rw [(nodup_liveIds g).erase_eq_filter]
    simp only [liveIds, ids, (s.rewritten h).size_eq, List.filter_filter]
    apply List.filter_congr
    intro j _
    rw [s.isLive_substitute h.wellFormed, Bool.and_comm]
  have hlength := List.length_erase_of_mem hmem
  have hpos := List.length_pos_of_mem hmem
  rw [numNodes_eq, numNodes_eq, hids]
  omega

theorem WellFormed.numNodes_substituteMulAdds (h : g.WellFormed) :
    g.substituteMulAdds.1.numNodes + g.substituteMulAdds.2 = g.numNodes := by
  apply (pass_induction mulAddStep? (motive := fun g' c' count => g'.Sound c' ∧ g'.numNodes + count = g.numNodes)
    _ g.ids (s := (g, Consumers.ofGraph g, 0)) ⟨⟨h, Consumers.ofGraph_tracks h⟩, rfl⟩).2
  intro g₁ c₁ count id g₂ c₂ ⟨hs, hcount⟩ hstep
  obtain ⟨sum, product, a, b, other, s, heq⟩ := mulAddStep?_cases hstep
  have hg₂ : g₂ = (g₁.substitute c₁ id sum product a b other).1 := congrArg Prod.fst heq
  have hnodes := s.numNodes_substitute hs
  rw [← hg₂] at hnodes
  exact ⟨(hs.mulAddStep hstep).1, by omega⟩

theorem WellFormed.count_substituteMulAdds (h : g.WellFormed) :
    g.substituteMulAdds.2 = (g.liveIds.filter fun id => !g.substituteMulAdds.1.isLive id).length := by
  have hrewritten := h.substituteMulAdds.2
  -- what is live afterwards was live before
  have hlive : g.substituteMulAdds.1.liveIds = g.liveIds.filter g.substituteMulAdds.1.isLive := by
    simp only [liveIds, ids, hrewritten.size_eq, List.filter_filter]
    apply List.filter_congr
    intro id _
    have := hrewritten.live_of_live id
    grind
  have hnodes := h.numNodes_substituteMulAdds
  have hsplit := List.length_eq_countP_add_countP g.substituteMulAdds.1.isLive (l := g.liveIds)
  simp only [numNodes_eq, hlive, ← List.countP_eq_length_filter] at hnodes ⊢
  simp only [Bool.not_eq_true, Bool.decide_eq_false] at hsplit
  omega

end Graph

/-! ## Substitution in the graphs of a session -/

namespace Session

open Graph

/-- Whatever calls were made before, and in every exact interpretation: the pass keeps what each node means, live or
absorbed. Each node that it replaces was a live sum of floating point values and becomes a multiply-add; each node that
it absorbs is a product and no output, and the only live consumer that it had is the sum it goes into; and it counts
these nodes. Nothing is left to substitute. -/
theorem substitution_keeps_meaning (environment : Option String) (calls : List Call) (gid : GraphId) (g : Graph)
    (hg : (run calls (start environment)).workspace.graph? gid = some g) {α : Type} (I : Interpretation α)
    (hI : I.Exact) :
    let g' := g.substituteMulAdds.1
    (∀ id : Nat, id < g.size → ∃ m, g.meaning? I id = some m ∧ g'.meaning? I id = some m) ∧
    (∀ (id : Nat) (n n' : Node), g.node? id = some n → g'.node? id = some n' → n' ≠ n →
      n'.op = .elementwise .fusedMulAdd ∧ g.isLive id = true ∧ n.op = .elementwise (.binary .add) ∧
        n.shape.dtype.isFloat = true) ∧
    (∀ id : Nat, g.isLive id = true → g'.isLive id = false → g.isPinned id = false ∧
      ∃ product sum s, g.node? id = some product ∧ product.op = .elementwise (.binary .mul) ∧
        g'.into? id = some sum ∧ g.node? sum = some s ∧ s.op = .elementwise (.binary .add) ∧
        s.shape.dtype.isFloat = true ∧ g.consumers id = [sum]) ∧
    g.substituteMulAdds.2 = (g.liveIds.filter fun id => !g'.isLive id).length ∧
    ∀ sum product : Nat, ¬ g'.SumOfProduct sum product := by
  have hwf := wellFormed_run calls (wellFormed_start environment) gid g hg
  have hsub := hwf.substituted
  intro g'
  refine ⟨?_, ?_, ?_, hwf.count_substituteMulAdds, fun _ _ => hwf.not_sumOfProduct_substituteMulAdds⟩
  · intro id hid
    obtain ⟨m, hm⟩ := Option.isSome_iff_exists.mp (hwf.meaning?_isSome (I := I) hid)
    exact ⟨m, hm, by rw [hwf.meaning?_substituteMulAdds hI, hm]⟩
  · intro id n n' hn hn' hne
    rcases hsub.replaced id n' hn' with hsame | ⟨hop', hlive, sum, hsum, hop, hfloat⟩
    · exact absurd (Option.some.inj (hsame.symm.trans hn)) hne
    · obtain rfl := Option.some.inj (hsum.symm.trans hn)
      exact ⟨hop', hlive, hop, hfloat⟩
  · intro id hlive hdead
    obtain ⟨sum, hinto, -, p⟩ := hsub.absorbed id hlive hdead
    obtain ⟨product, hproduct, hmul⟩ := p.product_node
    obtain ⟨s, -, hs, hop, hfloat, -⟩ := p.sum_node
    exact ⟨p.unpinned, product, sum, s, hproduct, hmul, hinto, hs, hop, hfloat, p.consumers_eq hwf⟩

/-- In integers, with constants that are all three: a sum whose right operand is a product becomes a multiply-add, and
means twelve as before. Another product is an output, and stays. -/
theorem substitution_in_integers :
    let x : Shape := ⟨.float32, [2]⟩
    let term (v : Int) : Call := .construct (.fill (some 0) .cpu x (.ofInt v))
    let op (o : BinaryOp) (a b : Int) : Call := .construct (.elementwise (.binary o) [some ⟨0, a⟩, some ⟨0, b⟩])
    let calls : List Call := [.newGraph "g", term 1, term 2, op .mul 0 1, op .add 0 2, op .mul 1 1, op .add 4 0,
      .markOutputs (some 0) [some ⟨0, 4⟩]]
    let I : Interpretation Int :=
      { unary := fun _ _ a => a
        binary := fun _ o a b => match o with
          | .add => a + b
          | .mul => a * b
          | _ => a - b
        mulAdd := fun _ a b c => a * b + c
        other := fun _ _ _ _ => 3 }
    ∃ g, (run calls (start none)).workspace.graph? 0 = some g ∧ I.Exact ∧ g.substituteMulAdds.2 = 1 ∧
      g.isLive 2 = true ∧ g.substituteMulAdds.1.into? 2 = some 3 ∧ g.consumers 2 = [3] ∧
      ∃ m, g.meaning? I 3 = some m ∧ g.substituteMulAdds.1.meaning? I 3 = some m ∧ m.element 0 = 12 := by
  intro x term op calls I
  have hchecks : ((run calls (start none)).workspace.graph? 0).any (fun g =>
      g.substituteMulAdds.2 == 1 && g.isLive 2 && g.substituteMulAdds.1.into? 2 == some 3 && decide (3 < g.size) &&
      (g.meaning? I 3).any (·.element 0 == 12)) = true := by decide +kernel
  obtain ⟨g, hg, hchecks⟩ := (Option.any_eq_true _ _).mp hchecks
  simp only [Bool.and_eq_true, beq_iff_eq, decide_eq_true_eq, Option.any_eq_true] at hchecks
  obtain ⟨⟨⟨⟨hcount, hlive⟩, hinto⟩, hsize⟩, m, hm, htwelve⟩ := hchecks
  have hI : I.Exact := ⟨fun _ _ _ _ => rfl, fun _ => Int.add_comm⟩
  obtain ⟨hmeaning, -, habsorbed, -⟩ := substitution_keeps_meaning none calls 0 g hg I hI
  obtain ⟨m', hm', hafter⟩ := hmeaning 3 hsize
  obtain rfl := Option.some.inj (hm.symm.trans hm')
  obtain ⟨-, product, sum, s, -, -, hsum, -, -, -, hconsumers⟩ := habsorbed 2 hlive (by simp [isLive, hinto])
  obtain rfl := Option.some.inj (hsum.symm.trans hinto)
  exact ⟨g, hg, hI, hcount, hlive, hinto, hconsumers, m, hm, hafter, htwelve⟩

end Session

end LazyTensor
