import LazyTensor.Proofs.Host.Reach
import LazyTensor.Proofs.Kernel.Order

/-!
# Results do not depend on the division of work

A host divides the work of an operation into ranges by its workers and by the least number of elements of a
range, and the ranges come in some order. Two hosts that differ in these only, and that execute an operation on
the same memory, both fail for the same kind of reason or both succeed and leave the same memory.

The proof runs an operation on both at once. Steps that do not look at the division do the same on both
(`Equivariant`); kernels are run over two coverings of the same indices, for which they have the same results or
both have a fault.
-/

namespace LazyTensor

open List

/-- The dimensions are positive, and so many elements can be counted. -/
structure Shape.Bounded (s : Shape) : Prop where
  positive : ∀ d ∈ s.dims, 0 < d
  small : s.dims.prod < wordLimit

namespace ProductDims

/-- The dimensions of matrices are positive, and a row of the product can be counted. -/
structure Bounded (d : ProductDims) : Prop where
  m_pos : 0 < d.m
  k_pos : 0 < d.k
  n_pos : 0 < d.n
  n_lt : d.n < wordLimit

theorem Bounded.badDims_eq_none {d : ProductDims} (h : d.Bounded) : Kernel.badDims d = none :=
  Kernel.badDims_eq_none h.m_pos h.k_pos h.n_pos

theorem bounded_of_ofShapes {l r : Shape} {d : ProductDims} (hl : l.Bounded) (hr : r.Bounded)
    (h : ofShapes l r = .ok d) : d.Bounded := by
  have hlpos := hl.positive
  have hrpos := hr.positive
  have hsmall := hr.small
  rcases ofShapes_eq_ok h with ⟨hldims, hrdims, -⟩ | ⟨hldims, hrdims⟩
  · rw [hldims] at hlpos
    rw [hrdims] at hrpos hsmall
    have hn : [d.n].prod ≤ [d.k, d.n].prod := prod_le_prod_cons hrpos
    simp only [mem_cons, not_mem_nil, or_false, forall_eq_or_imp, forall_eq] at hlpos hrpos
    refine ⟨hlpos.1, hlpos.2, hrpos.2, Int.lt_of_le_of_lt ?_ hsmall⟩
    simpa using hn
  · rw [hldims] at hlpos
    rw [hrdims] at hrpos hsmall
    have hn : [d.n].prod ≤ [d.k, d.n].prod := prod_le_prod_cons fun d' hd' => hrpos d' (.tail _ hd')
    have hkn : [d.k, d.n].prod ≤ [d.batch, d.k, d.n].prod := prod_le_prod_cons hrpos
    simp only [mem_cons, not_mem_nil, or_false, forall_eq_or_imp, forall_eq] at hlpos hrpos
    refine ⟨hlpos.2.1, hlpos.2.2, hrpos.2.2, Int.lt_of_le_of_lt ?_ hsmall⟩
    simpa using Int.le_trans hn hkn

end ProductDims

namespace HostM

open HostState Kernel

variable {ε α β : Type} {limit : UInt64} {P P' : HostState → Prop} {Q Q' : α → HostState → Prop}
  {R : β → HostState → Prop} {x x' : HostM Stop α}

/-! ## Steps on two hosts -/

/-- Two failures of one kind, or one value in states that differ in the division of work only. -/
inductive Alike (p p' : Partition) (Q : α → HostState → Prop) :
    Except Stop α × HostState → Except Stop α × HostState → Prop where
  | error {e e' : Stop} {s s' : HostState} (kind : e.kind = e'.kind) : Alike p p' Q (.error e, s) (.error e', s')
  | ok {a : α} {s : HostState} (value : Q a s) : Alike p p' Q (.ok a, s.dividedBy p) (.ok a, s.dividedBy p')

/-- From a state that `P` allows, in any two divisions of work, two steps are alike. -/
def Steady (P : HostState → Prop) (x x' : HostM Stop α) (Q : α → HostState → Prop) : Prop :=
  ∀ s, P s → ∀ p p', Alike p p' Q (exec x (s.dividedBy p)) (exec x' (s.dividedBy p'))

/-- From a state that `P` allows, the step is alike in any two divisions of work. -/
abbrev Steadily (P : HostState → Prop) (x : HostM Stop α) (Q : α → HostState → Prop) : Prop := Steady P x x Q

theorem Steady.bind {f f' : α → HostM Stop β} (hx : Steady P x x' Q) (hf : ∀ a, Steady (Q a) (f a) (f' a) R) :
    Steady P (x >>= f) (x' >>= f') R := by
  intro s hs p p'
  have h := hx s hs p p'
  rcases hexec : exec x (s.dividedBy p) with ⟨r, t⟩
  rcases hexec' : exec x' (s.dividedBy p') with ⟨r', t'⟩
  rw [hexec, hexec'] at h
  cases h with
  | error hkind =>
    rw [exec_bind_error hexec, exec_bind_error hexec']
    exact .error hkind
  | ok hvalue =>
    rw [exec_bind_ok hexec, exec_bind_ok hexec']
    exact hf _ _ hvalue p p'

theorem Alike.imp {p p' : Partition} {r r' : Except Stop α × HostState} (h : Alike p p' Q r r')
    (hQ : ∀ a s, Q a s → Q' a s) : Alike p p' Q' r r' := by
  cases h with
  | error hkind => exact .error hkind
  | ok hvalue => exact .ok (hQ _ _ hvalue)

theorem Steady.imp (h : Steady P x x' Q) (hP : ∀ s, P' s → P s) (hQ : ∀ a s, Q a s → Q' a s) : Steady P' x x' Q' :=
  fun s hs p p' => (h s (hP s hs) p p').imp hQ

theorem steady_pure {a : α} (h : ∀ s, P s → Q a s) : Steady P (pure a) (pure a) Q :=
  fun s hs _ _ => .ok (h s hs)

theorem steady_throw {e e' : Stop} (h : e.kind = e'.kind) : Steady P (throw e : HostM Stop α) (throw e') Q :=
  fun _ _ _ _ => .error h

theorem steady_get_bind {f f' : HostState → HostM Stop β} (hf : ∀ s s', Steady P (f s) (f' s') R) :
    Steady P (get >>= f) (get >>= f') R :=
  fun s hs p p' => hf (s.dividedBy p) (s.dividedBy p') s hs p p'

theorem steady_and {φ : Prop} (h : φ → Steady P x x' Q) : Steady (fun s => P s ∧ φ) x x' Q :=
  fun s hs => h hs.2 s hs.1

/-! ## Steps that do not look at the division -/

theorem Equivariant.steady (hx : Equivariant x) (h : Keeps limit P x Q) : Steady P x x Q := by
  intro s hs p p'
  have hleaves := h s hs
  rw [hx s p, hx s p']
  rcases hexec : exec x s with ⟨e | a, s'⟩
  · exact .error rfl
  · rw [hexec] at hleaves
    exact .ok hleaves

theorem Fixed.equivariant (hx : Fixed x) : Equivariant x := by
  obtain ⟨r, hx⟩ := hx
  intro s p
  rw [hx, hx]

/-! ## Faults of kernels -/

/-- The step fails in every state, and its failure is one of execution. -/
def Stops (x : HostM Stop α) : Prop := ∀ s, ∃ e s', exec x s = (.error e, s') ∧ e.kind = .execution

theorem stops_throw {e : Stop} (h : e.kind = .execution) : Stops (throw e : HostM Stop α) :=
  fun s => ⟨e, s, rfl, h⟩

theorem Stops.bind {f : α → HostM Stop β} (hx : Stops x) : Stops (x >>= f) := by
  intro s
  obtain ⟨e, s', hexec, hkind⟩ := hx s
  exact ⟨e, s', exec_bind_error hexec, hkind⟩

theorem kind_ofFault (fault : Fault) : (ofFault fault).kind = .execution := by
  cases fault <;> rfl

theorem Stops.after {f : α → HostM Stop β} (hx : ∀ s, ∃ a s', exec x s = (.ok a, s')) (hf : ∀ a, Stops (f a)) :
    Stops (x >>= f) := by
  intro s
  obtain ⟨a, s', hexec⟩ := hx s
  rw [exec_bind_ok hexec]
  exact hf a s'

theorem Stops.write {f : Unit → HostM Stop α} (hf : ∀ a, Stops (f a)) (out : BufferId) (flat : Flat) :
    Stops (write out flat >>= f) := by
  refine .after (fun s => ?_) hf
  rw [HostM.write, exec_bind_ok (exec_get s)]
  cases s.heap.get? out with
  | none | some b => exact ⟨_, _, rfl⟩

theorem Stops.recycle {f : Unit → HostM Stop α} (hf : ∀ a, Stops (f a)) (out : BufferId) :
    Stops (recycle out >>= f) := by
  refine .after (fun s => ?_) hf
  rw [HostM.recycle, exec_bind_ok (exec_get s)]
  cases s.heap.get? out with
  | none | some b => exact ⟨_, _, rfl⟩

theorem Stops.steady (h : Stops x) (h' : Stops x') : Steady P x x' Q := by
  intro s _ p p'
  obtain ⟨e, t, hexec, hkind⟩ := h (s.dividedBy p)
  obtain ⟨e', t', hexec', hkind'⟩ := h' (s.dividedBy p')
  rw [hexec, hexec']
  exact .error (hkind.trans hkind'.symm)

/-! ## Operations -/

variable {output : Shape} {out : Nat} {t : ElementType} {ids : List Nat} {owned : List Bool} {s : HostState}

theorem steady_newBuffer (output : Shape) :
    Steadily (Intact limit) (newBuffer output) fun out => Ready limit output out :=
  (equivariant_newBuffer output).steady (keeps_newBuffer output)

theorem apart_of_ran {causes : Stop → Prop} {right : Flat → Prop} {r : Except Stop BufferId × HostState}
    (h : Ran s [] output causes right r) (hs : Inputs limit ids s) :
    Leaves limit (fun out s' => Ready limit output out s' ∧ out ∉ ids) r := by
  have hready := ready_of_ran h hs.1
  cases h with
  | error e _ hsound hframe _ _ => exact hready
  | ok out _ flat hmade _ =>
    refine ⟨hready, fun hmem => ?_⟩
    obtain ⟨b, hb⟩ := hs.2 out hmem
    cases hmade.place with
    | new hfresh _ => exact hfresh b hb
    | given hmem _ _ => cases hmem

theorem steady_elementType (hP : ∀ s, P s → Intact limit s) (output : Shape) :
    Steadily P (elementType output) fun t s => P s ∧ output.dtype.element? = some t :=
  (fixed_elementType output).equivariant.steady (keeps_elementType hP output)

theorem steady_write (ht : output.dtype.element? = some t) {data : Array t.Elem}
    (hsize : (data.size : Int) = output.size) :
    Steadily (Ready limit output out) (write out (.ofElements t data))
      fun _ => Ready limit output out :=
  (equivariant_write out _).steady (keeps_write ht hsize)

theorem steady_output_bind (ht : output.dtype.element? = some t) {f f' : Array t.Elem → HostM Stop β}
    (hf : ∀ data : Array t.Elem, (data.size : Int) = output.size →
      Steady (Ready limit output out) (f data) (f' data) R) :
    Steady (Ready limit output out) (do f (← elements t (← buffer out))) (do f' (← elements t (← buffer out))) R := by
  rintro s ⟨hintact, flat, hlive⟩ p p'
  obtain ⟨data, hdata, hsize, -⟩ := (hintact.sound.buffers out _ hlive.1).exists_elements ht
  have hread : ∀ (p : Partition) (f : Array t.Elem → HostM Stop β),
      exec (do f (← elements t (← buffer out))) (s.dividedBy p) = exec (f data) (s.dividedBy p) := by
    intro p f
    rw [exec_bind_ok (exec_buffer (s := s.dividedBy p) hlive.1), exec_bind_ok (exec_elements t hdata _)]
  rw [hread, hread]
  exact hf data hsize s ⟨hintact, flat, hlive⟩ p p'

theorem isEmpty_ranges_eq (h h' : Host) (n : Int) : (h.ranges n).isEmpty = (h'.ranges n).isEmpty := by
  have hranges := Workers.covers_ranges h.workers n h.minParallel
  have hranges' := Workers.covers_ranges h'.workers n h'.minParallel
  exact hranges.isEmpty_eq.trans hranges'.isEmpty_eq.symm

theorem steady_tabulate (output : Shape) (value : (t : ElementType) → Nat → t.Elem) :
    Steadily (Intact limit) (tabulate output value) fun out => Ready limit output out := by
  refine (steady_newBuffer output).bind fun out => ?_
  refine (steady_elementType (fun _ hs => hs.intact) output).bind fun t => steady_and fun ht => ?_
  refine steady_output_bind ht fun data hsize => steady_get_bind fun s₀ s₀' => ?_
  dsimp only
  rw [Kernel.tabulate_eq_ofFn (value t) (covers_ranges s₀.host hsize),
    Kernel.tabulate_eq_ofFn (value t) (covers_ranges s₀'.host hsize)]
  refine (steady_write ht ?_).bind fun _ => steady_pure fun _ hs => hs
  rw [Array.size_ofFn, hsize]

theorem steady_cast (id : Nat) (output : Shape) :
    Steadily (fun s => Intact limit s ∧ ∃ b, s.Live id b) (cast id output)
      fun out => Ready limit output out := by
  rintro s ⟨hintact, b, hb⟩ p p'
  rw [cast, exec_bind_ok (exec_buffer (s := s.dividedBy p) hb.1), exec_bind_ok (exec_buffer (s := s.dividedBy p') hb.1)]
  by_cases hdims : b.shape.dims ≠ output.dims
  · rw [if_pos hdims]
    exact .error rfl
  · rw [if_neg hdims]
    by_cases hdtype : b.shape.dtype = output.dtype
    · rw [if_pos hdtype]
      have hshape : b.shape = output := by
        obtain ⟨⟨dtype, dims⟩, flat, finalized⟩ := b
        obtain rfl : dtype = output.dtype := hdtype
        obtain rfl : dims = output.dims := Decidable.not_not.mp hdims
        rfl
      rw [← hshape]
      exact (equivariant_clone id).steady keeps_clone s ⟨hintact, hb⟩ p p'
    · rw [if_neg hdtype]
      obtain ⟨shape, ⟨type, data⟩, finalized⟩ := b
      cases type with
      | element u => exact steady_tabulate output _ s hintact p p'
      | inert u =>
        -- the ranges are asked for only to see whether there are any
        refine (steady_newBuffer output).bind (fun out => steady_get_bind fun s₀ s₀' => ?_) s hintact p p'
        rw [isEmpty_ranges_eq s₀.host s₀'.host]
        split
        · exact steady_throw rfl
        · exact steady_pure fun _ hs => hs

theorem steady_transpose (permutation : List Int) (id : Nat) (hpos : ∀ d ∈ output.dims, 0 < d) :
    Steadily (Intact limit) (transpose permutation id output)
      fun out => Ready limit output out := by
  refine ((equivariant_buffer id).steady (keeps_buffer (fun _ hs => hs) id)).bind fun b => ?_
  dsimp only
  split
  · exact steady_throw rfl
  · split
    · rename_i strides _
      refine Steady.imp ?_ (fun s hs => hs.1) fun _ _ h => h
      refine (steady_newBuffer output).bind fun out => steady_get_bind fun s₀ s₀' => ?_
      rw [isEmpty_ranges_eq s₀.host s₀'.host]
      split
      · exact steady_pure fun _ hs => hs
      · refine (steady_elementType (fun _ hs => hs.intact) output).bind fun t => steady_and fun ht => ?_
        refine ((fixed_elements t b).equivariant.steady (keeps_elements (fun _ hs => hs.intact) t b)).bind fun src =>
          steady_and fun _ => ?_
        refine steady_output_bind ht fun data hsize => ?_
        -- the two hosts read the same operand over two coverings of the output
        have hsize₀ := size_overRanges (covers_ranges s₀.host hsize).toApart (Nat.le_refl _)
          fun r _ => size_transpose_le src output.dims strides r
        rcases completed?_cases (overRanges_transpose_congr src strides hpos (covers_ranges s₀.host hsize)
          (covers_ranges s₀'.host hsize)) with ⟨result, hrun, hrun'⟩ | ⟨result, fault, result', fault', hrun, hrun'⟩
        · rw [hrun] at hsize₀
          rw [hrun, hrun']
          exact (steady_write ht (by rw [hsize₀, hsize])).bind fun _ => steady_pure fun _ hs => hs
        · rw [hrun, hrun']
          exact Stops.steady (.write (fun _ => stops_throw (kind_ofFault _)) _ _)
            (.write (fun _ => stops_throw (kind_ofFault _)) _ _)
    · exact steady_throw rfl

/-! ## Programs -/

theorem steady_runInto {kernel : Program} (hkernel : kernel.steps ≠ []) (inputs : List (BufferId × HostBuffer))
    (reused : Option BufferId) :
    Steadily (Ready limit output out) (runInto kernel inputs reused output out)
      fun out => Ready limit output out := by
  refine (steady_elementType (fun _ hs => hs.intact) output).bind fun t => steady_and fun ht => ?_
  have hsources : Fixed (inputs.mapM (source t out)) := fixed_mapM (fixed_source t out)
  refine (hsources.equivariant.steady (hsources.keeps fun _ hs => hs.intact)).bind fun sources => steady_get_bind
    fun s₀ s₀' => steady_output_bind ht fun old hsize => ?_
  have hsize₀ := size_inPlace_runProgram kernel sources.toArray (covers_ranges s₀.host hsize)
  -- a new buffer is given back after a fault
  have hstops : ∀ (result : Array t.Elem) (fault : Fault), Stops (do
      write out (.ofElements t result)
      if reused.isNone then recycle out
      throw (ofFault fault) : HostM Stop BufferId) := by
    intro result fault
    refine .write (fun _ => ?_) _ _
    split
    · exact .recycle (fun _ => stops_throw (kind_ofFault fault)) _
    · exact stops_throw (kind_ofFault fault)
  rcases completed?_cases (inPlace_runProgram_congr sources.toArray hkernel (covers_ranges s₀.host hsize)
    (covers_ranges s₀'.host hsize)) with ⟨result, hrun, hrun'⟩ | ⟨result, fault, result', fault', hrun, hrun'⟩
  · rw [hrun] at hsize₀
    rw [hrun, hrun']
    exact (steady_write ht (by rw [hsize₀, hsize])).bind fun _ => steady_pure fun _ hs => hs
  · rw [hrun, hrun']
    exact (hstops result fault).steady (hstops result' fault')

theorem steady_fused (program : Option Program) (owned : List Bool) (output : Shape) :
    Steadily (Inputs limit ids) (fused program ids owned output)
      fun out => Ready limit output out := by
  rintro s ⟨hintact, hlive⟩ p p'
  obtain ⟨values, hin⟩ := exists_holds hlive
  cases fused_cases hintact.sound hin program owned output with
  | rejected e kernels _ _ hexec =>
    rw [hexec, hexec]
    exact .error rfl
  | runs program t kernels hkernels hvalid _ _ _ _ _ hexec =>
    have hintact₁ := hintact.withKernels hkernels
    rw [hexec, hexec, runKernel]
    cases hreused : reusable? (ids.zip (values.map (·.buffer))) owned output with
    | some id =>
      obtain ⟨-, flat, hid⟩ := reusable?_eq_some hin hreused
      exact steady_runInto hvalid.steps_ne_nil _ (some id) _ ⟨hintact₁, flat, hid⟩ p p'
    | none =>
      exact (steady_newBuffer output).bind (fun out => steady_runInto hvalid.steps_ne_nil _ none) _ hintact₁ p p'

/-! ## Products -/

section Products

variable {d : ProductDims} {lhsId rhsId : Nat} {lhs rhs : HostBuffer}

theorem steady_source {id : Nat} {b : HostBuffer} (hid : id ≠ out) :
    Steadily (Ready limit output out) (source t out (id, b))
      fun operand s => Ready limit output out s ∧ ∃ data, operand = .apart data := by
  refine (fixed_source t out (id, b)).equivariant.steady ((keeps_elements (fun _ hs => hs.intact) t b).bind
    fun data => ?_)
  exact keeps_pure fun _ hs => ⟨hs.1, data, if_neg hid⟩

theorem size_lt_wordLimit {data : Array α} (h : (data.size : Int) = output.size) : (data.size : Int) < wordLimit := by
  rw [h, Shape.size_eq_wrap64]
  exact wrap64_lt_wordLimit _

theorem steady_floatProduct {f : FloatFormat} (h : t.Elem = FloatWord f) (ht : output.dtype.element? = some t)
    (hd : d.Bounded) (hlhs : lhsId ≠ out) (hrhs : rhsId ≠ out) (alpha beta : FloatWord f) :
    Steadily (Ready limit output out) (floatProduct t h d (lhsId, lhs) (rhsId, rhs) out alpha beta)
      fun _ => Ready limit output out := by
  refine (steady_source hlhs).bind fun operand => steady_and fun hl => ?_
  obtain ⟨l, rfl⟩ := hl
  refine (steady_source hrhs).bind fun operand => steady_and fun hr => ?_
  obtain ⟨r, rfl⟩ := hr
  refine steady_output_bind ht fun old hsize => steady_get_bind fun s₀ s₀' => ?_
  dsimp only
  rw [apart_cast, apart_cast]
  have hsize₀ := size_floatProduct (s₀.host.workers.ranges d.batch 1) d (.apart (h ▸ l)) (.apart (h ▸ r)) alpha beta
    (h ▸ old)
  have hout : ((h ▸ old : Array (FloatWord f)).size : Int) < wordLimit := by
    rw [size_cast]
    exact size_lt_wordLimit hsize
  have hstops : ∀ data fault, fault = .outOfBounds → Stops (do
      write out (.ofElements t data)
      checkFloatFault (some fault)) := by
    rintro data _ rfl
    exact .write (fun _ => stops_throw rfl) _ _
  -- both divisions complete, with the same elements, or both stop
  rcases completed?_cases (floatProduct_eq (Workers.covers_ranges s₀.host.workers d.batch 1)
    (Workers.covers_ranges s₀'.host.workers d.batch 1) hd.badDims_eq_none hd.m_pos hd.n_pos hout)
    with ⟨data, hrun, hrun'⟩ | ⟨data, fault, data', fault', hrun, hrun'⟩
  · rw [hrun] at hsize₀
    rw [hrun, hrun']
    refine (steady_write ht ?_).bind fun _ => steady_pure fun _ hs => hs
    rw [size_cast, hsize₀, size_cast, hsize]
  · have hfault := floatProduct_fault hd.badDims_eq_none (congrArg Prod.snd hrun)
    have hfault' := floatProduct_fault hd.badDims_eq_none (congrArg Prod.snd hrun')
    rw [hrun, hrun']
    exact (hstops _ fault hfault).steady (hstops _ fault' hfault')

theorem steady_integerProduct {f : IntFormat} (h : t.Elem = IntWord f) (ht : output.dtype.element? = some t)
    (hd : d.Bounded) (hlhs : lhsId ≠ out) (hrhs : rhsId ≠ out) (coefficients : Option (Double × Double)) :
    Steadily (Ready limit output out) (integerProduct t h d (lhsId, lhs) (rhsId, rhs) out coefficients)
      fun _ => Ready limit output out := by
  refine steady_get_bind fun s₀ s₀' => ?_
  have hranges : Covers (s₀.host.ranges (wrap64 (d.batch * d.m))) _ := Workers.covers_ranges _ _ _
  have hranges' : Covers (s₀'.host.ranges (wrap64 (d.batch * d.m))) _ := Workers.covers_ranges _ _ _
  dsimp only
  -- whether there are rows does not depend on the division
  rw [isEmpty_ranges_eq s₀.host s₀'.host]
  split
  · exact steady_pure fun _ hs => hs
  · refine (steady_source hlhs).bind fun operand => steady_and fun hl => ?_
    obtain ⟨l, rfl⟩ := hl
    refine (steady_source hrhs).bind fun operand => steady_and fun hr => ?_
    obtain ⟨r, rfl⟩ := hr
    refine steady_output_bind ht fun old hsize => ?_
    generalize coefficients.map _ = words
    rw [apart_cast, apart_cast]
    have hsize₀ := size_integerProduct (s₀.host.ranges (wrap64 (d.batch * d.m))) d (.apart (h ▸ l)) (.apart (h ▸ r)) words
      (h ▸ old)
    have hout : ((h ▸ old : Array (IntWord f)).size : Int) < wordLimit := by
      rw [size_cast]
      exact size_lt_wordLimit hsize
    rcases completed?_cases (integerProduct_eq hranges hranges' hd.n_pos hd.n_lt hout)
      with ⟨data, hrun, hrun'⟩ | ⟨data, fault, data', fault', hrun, hrun'⟩
    · rw [hrun] at hsize₀
      rw [hrun, hrun']
      refine (steady_write ht ?_).bind fun _ => steady_pure fun _ hs => hs
      rw [size_cast, hsize₀, size_cast, hsize]
    · rw [hrun, hrun']
      exact Stops.steady (.write (fun _ => stops_throw (kind_ofFault fault)) _ _)
        (.write (fun _ => stops_throw (kind_ofFault fault')) _ _)

theorem steady_widened (b : HostBuffer) (hP : ∀ s, P s → Intact limit s) :
    Steadily P (widened b) fun data s => P s ∧ data.size = b.flat.size :=
  (fixed_widened b).equivariant.steady (keeps_widened hP b)

theorem steady_bias_bind (ht : output.dtype.element? = some t) {hasBias : Bool} {f f' : Array Single → HostM Stop β}
    (hf : ∀ old : Array Single, (old.size : Int) = output.size →
      Steady (Ready limit output out) (f old) (f' old) R) :
    Steady (Ready limit output out)
      (if hasBias = true then buffer out >>= fun b => widened b >>= f
        else pure (Array.replicate output.size.toNat FloatWord.zero) >>= f)
      (if hasBias = true then buffer out >>= fun b => widened b >>= f'
        else pure (Array.replicate output.size.toNat FloatWord.zero) >>= f') R := by
  rintro s ⟨hintact, flat, hlive⟩ p p'
  obtain ⟨data, rfl, hsize, -⟩ : ∃ data : Array t.Elem, flat = .ofElements t data ∧ (data.size : Int) = output.size ∧ _ :=
    (hintact.sound.buffers out _ hlive.1).exists_elements ht
  have hready : Ready limit output out s := ⟨hintact, _, hlive⟩
  cases hasBias with
  | true =>
    rw [if_pos rfl, if_pos rfl, exec_bind_ok (exec_buffer (s := s.dividedBy p) hlive.1),
      exec_bind_ok (exec_buffer (s := s.dividedBy p') hlive.1)]
    refine ((steady_widened _ fun _ hs => hs.intact).bind fun old => steady_and fun hold => hf old ?_) s hready p p'
    rwa [hold]
  | false =>
    refine hf _ ?_ s hready p p'
    rw [Array.size_replicate]
    omega

theorem steady_halfProduct {narrow : Single → t.Elem} (ht : output.dtype.element? = some t) (hd : d.Bounded)
    (hasBias : Bool) (alpha beta : Single) :
    Steadily (Ready limit output out) (halfProduct t narrow d lhs rhs out output hasBias alpha beta)
      fun _ => Ready limit output out := by
  refine steady_bias_bind ht fun old hold => ?_
  refine (steady_widened lhs fun _ hs => hs.intact).bind fun l => steady_and fun _ => ?_
  refine (steady_widened rhs fun _ hs => hs.intact).bind fun r => steady_and fun _ => steady_get_bind fun s₀ s₀' => ?_
  have hsize₀ := size_floatProduct (s₀.host.workers.ranges d.batch 1) d (.apart l) (.apart r) alpha beta old
  dsimp only
  rcases completed?_cases (floatProduct_eq (Workers.covers_ranges s₀.host.workers d.batch 1)
    (Workers.covers_ranges s₀'.host.workers d.batch 1) hd.badDims_eq_none hd.m_pos hd.n_pos (size_lt_wordLimit hold))
    with ⟨data, hrun, hrun'⟩ | ⟨data, fault, data', fault', hrun, hrun'⟩
  · rw [hrun] at hsize₀
    rw [hrun, hrun']
    refine Steady.bind (steady_pure fun _ hs => hs) fun _ => steady_write ht ?_
    rw [Array.size_map, hsize₀, hold]
  · obtain rfl := floatProduct_fault hd.badDims_eq_none (congrArg Prod.snd hrun)
    obtain rfl := floatProduct_fault hd.badDims_eq_none (congrArg Prod.snd hrun')
    rw [hrun, hrun']
    exact (Stops.bind (stops_throw rfl)).steady (.bind (stops_throw rfl))

theorem steady_multiply (ht : output.dtype.element? = some t) (hd : d.Bounded) (hlhs : lhsId ≠ out) (hrhs : rhsId ≠ out)
    (hasBias : Bool) (alpha beta : Double) :
    Steadily (Ready limit output out) (multiply d (lhsId, lhs) (rhsId, rhs) out output hasBias alpha beta t) fun out =>
      Ready limit output out := by
  have hdone : ∀ {x : HostM Stop Unit}, Steadily (Ready limit output out) x (fun _ => Ready limit output out) →
      Steadily (Ready limit output out) (do x; return out) fun out => Ready limit output out :=
    fun hx => hx.bind fun _ => steady_pure fun _ hs => hs
  cases t with
  | float32 | float64 => exact hdone (steady_floatProduct rfl ht hd hlhs hrhs _ _)
  | float16 | bfloat16 => exact hdone (steady_halfProduct ht hd hasBias _ _)
  | uint8 | uint32 | int32 | int64 => exact hdone (steady_integerProduct rfl ht hd hlhs hrhs _)

theorem steady_newBuffer_apart (output : Shape) :
    Steadily (Inputs limit ids) (newBuffer output)
      fun out s => Ready limit output out s ∧ out ∉ ids := by
  suffices hkeeps : Keeps limit (Inputs limit ids) (newBuffer output)
      fun out s => Ready limit output out s ∧ out ∉ ids from (equivariant_newBuffer output).steady hkeeps
  intro s hs
  exact apart_of_ran (ran_newBuffer hs.1.sound output) hs

theorem steady_clone_apart {id : Nat} {b : HostBuffer} :
    Steadily (fun s => Inputs limit ids s ∧ s.Live id b) (clone id)
      fun out s => Ready limit b.shape out s ∧ out ∉ ids := by
  suffices hkeeps : Keeps limit (fun s => Inputs limit ids s ∧ s.Live id b) (clone id)
      fun out s => Ready limit b.shape out s ∧ out ∉ ids from (equivariant_clone id).steady hkeeps
  intro s hs
  exact apart_of_ran (ran_clone hs.1.1.sound hs.2) hs.1

/-- The inputs are live, and their shapes can be counted. -/
def BoundedInputs (limit : UInt64) (ids : List Nat) (s : HostState) : Prop :=
  Inputs limit ids s ∧ ∀ id ∈ ids, ∀ b, s.Live id b → b.shape.Bounded

/-- The product goes into a buffer that is neither operand: a new one, a copy of the bias, or the bias if it is given
away. -/
theorem steady_matMul (alpha beta : Double) (hasBias : Bool) (hfirst : FirstOnly ids owned) (output : Shape) :
    Steadily (BoundedInputs limit ids) (matMul alpha beta hasBias ids owned output) fun out => Ready limit output
      out := by
  refine ((fixed_input ids 0).equivariant.steady (keeps_input (fun _ hs => hs.1.1) ids 0)).bind fun lhsId =>
    steady_and fun hlhsId => ?_
  refine ((fixed_input ids 1).equivariant.steady (keeps_input (fun _ hs => hs.1.1) ids 1)).bind fun rhsId =>
    steady_and fun hrhsId => ?_
  refine ((equivariant_buffer lhsId).steady (keeps_buffer (fun _ hs => hs.1.1) lhsId)).bind fun lhs => ?_
  refine ((equivariant_buffer rhsId).steady (keeps_buffer (fun _ hs => hs.1.1.1) rhsId)).bind fun rhs => ?_
  rintro s ⟨⟨⟨hinputs, hbounded⟩, hlhs⟩, hrhs⟩ p p'
  have hshape : ∀ {i id : Nat} {b : HostBuffer}, ids[i]? = some id → s.heap.get? id = some b → b.shape.Bounded := by
    intro i id b hid hb
    obtain ⟨c, hc⟩ := hinputs.2 id (mem_of_getElem? hid)
    obtain rfl := Option.some.inj (hc.1.symm.trans hb)
    exact hbounded id (mem_of_getElem? hid) c hc
  cases hdims : ProductDims.ofShapes lhs.shape rhs.shape with
  | error e => exact .error rfl
  | ok d =>
    have hd := ProductDims.bounded_of_ofShapes (hshape hlhsId hlhs) (hshape hrhsId hrhs) hdims
    -- what is done once there is a buffer for the output
    have hinto (hasBias : Bool) (alpha beta : Double) {out : BufferId} (hl : lhsId ≠ out) (hr : rhsId ≠ out) :
        Steadily (Ready limit output out)
          (elementType output >>= multiply d (lhsId, lhs) (rhsId, rhs) out output hasBias alpha beta)
          fun out => Ready limit output out :=
      (steady_elementType (fun _ hs => hs.intact) output).bind fun t => steady_and fun ht =>
        steady_multiply ht hd hl hr hasBias alpha beta
    have happart : ∀ {i id out : Nat}, ids[i]? = some id → out ∉ ids → id ≠ out := by
      rintro i id out hid hout rfl
      exact hout (mem_of_getElem? hid)
    cases hasBias with
    | false =>
      refine ((steady_newBuffer_apart output).bind fun out => steady_and fun hout => ?_) s hinputs p p'
      exact hinto false .zero (.ofInt 1) (happart hlhsId hout) (happart hrhsId hout)
    | true =>
      refine (((fixed_input ids 2).equivariant.steady
        (keeps_input (fun _ hs => hs.1) ids 2)).bind
        fun biasId => steady_and fun hid => ?_) s hinputs p p'
      rintro s ⟨hintact, hlive⟩ p p'
      obtain ⟨⟨shape, flat, finalized⟩, hbias⟩ := hlive biasId (mem_of_getElem? hid)
      obtain rfl : finalized = false := hbias.2
      rw [exec_bind_ok (exec_buffer (s := s.dividedBy p) hbias.1), exec_bind_ok (exec_buffer (s := s.dividedBy p') hbias.1)]
      by_cases hshape : shape = output
      · subst hshape
        rw [if_neg (fun h => h rfl)]
        cases howned : owned.getD 2 false with
        | true =>
          -- a bias that stands for an operand too is not given away
          have hother : ∀ {i id : Nat}, i < 2 → ids[i]? = some id → id ≠ biasId := by
            rintro i id hi hi' rfl
            exact hfirst 2 id howned hid i hi hi'
          exact hinto true alpha beta (hother (by omega) hlhsId) (hother (by omega) hrhsId) s ⟨hintact, flat, hbias⟩ p p'
        | false =>
          refine (steady_clone_apart.bind fun out => steady_and fun hout => ?_) s ⟨⟨hintact, hlive⟩, hbias⟩ p p'
          exact hinto true alpha beta (happart hlhsId hout) (happart hrhsId hout)
      · rw [if_pos hshape]
        exact .error rfl

end Products

/-! ## Executions -/

theorem steady_runOperation (op : Operation) (hfirst : FirstOnly ids owned) (hpos : ∀ d ∈ output.dims, 0 < d) :
    Steadily (BoundedInputs limit ids) (runOperation op ids owned output)
      fun out => Ready limit output out := by
  have hintact : ∀ s, BoundedInputs limit ids s → Intact limit s := fun _ hs => hs.1.1
  cases op with
  | fill value | arange start step => exact (steady_tabulate output _).imp hintact fun _ _ h => h
  | fused program => exact (steady_fused program owned output).imp (fun _ hs => hs.1) fun _ _ h => h
  | elementwise e =>
    exact (steady_fused (some (Program.single (.elementwise e) output.dtype)) owned output).imp (fun _ hs => hs.1)
      fun _ _ h => h
  | matMul alpha beta hasBias => exact steady_matMul alpha beta hasBias hfirst output
  | transpose permutation =>
    refine ((fixed_input ids 0).equivariant.steady (keeps_input hintact ids 0)).bind fun id => steady_and fun _ => ?_
    exact (steady_transpose permutation id hpos).imp hintact fun _ _ h => h
  | cast dtype =>
    refine ((fixed_input ids 0).equivariant.steady (keeps_input hintact ids 0)).bind fun id => steady_and fun hid => ?_
    exact (steady_cast id output).imp (fun s hs => ⟨hs.1.1, hs.1.2 id (mem_of_getElem? hid)⟩) fun _ _ h => h
  | other kind => exact steady_throw rfl

theorem firstOnly_of_refs {inputs : List BufferRef} (hids : inputs = ids.map .host)
    (hfirst : ∀ (i : Nat) (ref : BufferRef), owned.getD i false = true → inputs[i]? = some ref →
      ∀ j : Nat, j < i → inputs[j]? ≠ some ref) :
    FirstOnly ids (if owned.length = inputs.length then owned else inputs.map fun _ => false) := by
  intro i id howned hid j hj hjd
  split at howned
  · refine hfirst i (.host id) howned ?_ j hj ?_
    · rw [hids, getElem?_map, hid]
      rfl
    · rw [hids, getElem?_map, hjd]
      rfl
  · rw [getD_eq_getElem?_getD, getElem?_map] at howned
    cases hi : inputs[i]? with
    | none | some ref =>
      rw [hi] at howned
      cases howned

end HostM

namespace HostState

open HostM

/-- Whatever host was configured and whatever was called before: two hosts that hold the same memory but divide their
work in different ways, and take its parts in different orders, execute an operation alike. Both fail for reasons of
one kind, or both succeed and have the same elements in every buffer. The shapes must be such that their elements can be
counted, and a buffer must not be given away where it stands for a second time. All orders of the ranges are among
those that a host may take. -/
theorem execute_of_partition (configuration : String) (host : Host) (hhost : Host.ofConfiguration configuration = .ok host)
    (calls : List HostCall) (op : Operation) (inputs : List BufferRef) (owned : List Bool) (output : Shape)
    (houtput : ∀ d ∈ output.dims, 0 < d)
    (hinputs : ∀ ref ∈ inputs, ∀ id b, (run ⟨host, {}⟩ calls).heap.live ref = .ok (id, b) → b.shape.Bounded)
    (hfirst : ∀ (i : Nat) (ref : BufferRef), owned.getD i false = true → inputs[i]? = some ref →
      ∀ j : Nat, j < i → inputs[j]? ≠ some ref) :
    (∀ (w : Workers) (n least : Int) (order : List Range), order.Perm (w.division n least) →
      ∃ turns, { w with turns }.ranges n least = order) ∧
    ∀ p p' : Partition,
      let s := run ⟨host, {}⟩ calls
      let once := exec (execute op inputs owned output) (s.dividedBy p)
      let other := exec (execute op inputs owned output) (s.dividedBy p')
      (∃ e e', once.1 = .error e ∧ other.1 = .error e' ∧ Failure.kind e = Failure.kind e') ∨
      ∃ out b, once.1 = .ok out ∧ other.1 = .ok out ∧ once.2.Live out b ∧ b.shape = output ∧
        once.2.heap = other.2.heap := by
  refine ⟨fun w n least order horder => Workers.exists_turns horder, fun p p' => ?_⟩
  intro s once other
  have hintact : Intact host.account.limit s := intact_run calls ⟨sound_configured hhost, rfl⟩
  cases execute_cases op inputs owned output s with
  | rejected e _ hexec => exact .inl ⟨e, e, congrArg Prod.fst (hexec p), congrArg Prod.fst (hexec p'), rfl⟩
  | runs ids hrefs hlive hexec =>
    have hbounded : BoundedInputs host.account.limit ids s := by
      refine ⟨⟨hintact, hlive⟩, fun id hid b hb => hinputs (.host id) ?_ id b hb.live_eq⟩
      rw [hrefs]
      exact List.mem_map_of_mem hid
    -- both divisions run alike, which leaves their errors to compare by kind
    have halike := steady_runOperation op (firstOnly_of_refs hrefs hfirst) houtput s hbounded p p'
    have honce : once = _ := (hexec p).trans (exec_adapt ..)
    have hother : other = _ := (hexec p').trans (exec_adapt ..)
    rcases hrun : exec (runOperation op ids _ output) (s.dividedBy p) with ⟨r, t⟩
    rcases hrun' : exec (runOperation op ids _ output) (s.dividedBy p') with ⟨r', t'⟩
    rw [hrun] at honce halike
    rw [hrun'] at hother halike
    rw [honce, hother]
    cases halike with
    | error hkind => exact .inl ⟨_, _, rfl, rfl, hkind⟩
    | ok hready =>
      obtain ⟨flat, hlive⟩ := hready.live
      exact .inr ⟨_, _, rfl, rfl, hlive, rfl, rfl⟩

/-- Two batches of products are added to a bias that is given away: all rows by one worker, or row by row, the third
first. -/
theorem execute_rows_in_turn :
    let x : Shape := ⟨.int32, [2, 2, 2]⟩
    let op : Operation := .matMul (.ofInt 3) (.ofInt 1) true
    let calls : List HostCall := List.replicate 3 (.execute (.arange (.ofInt 2) (.ofInt 1)) [] [] x)
    let inputs : List BufferRef := [.host 0, .host 1, .host 2]
    let owned := [false, false, true]
    let p : Partition := ⟨{ parallelism := 0, processors := 1 }, 1⟩
    let p' : Partition := ⟨{ parallelism := -1, processors := 4, turns := [2, 7, 0] }, 1⟩
    ∃ host, Host.ofConfiguration "" = .ok host ∧
      let s := run ⟨host, {}⟩ calls
      let once := exec (execute op inputs owned x) (s.dividedBy p)
      let other := exec (execute op inputs owned x) (s.dividedBy p')
      p.workers.ranges 4 p.minParallel = [⟨0, 4⟩] ∧
      p'.workers.ranges 4 p'.minParallel = [⟨2, 3⟩, ⟨0, 1⟩, ⟨1, 2⟩, ⟨3, 4⟩] ∧
      once.1.toOption = some 2 ∧ other.1.toOption = some 2 ∧ once.2.heap = other.2.heap := by
  intro x op calls inputs owned p p'
  let host := Host.plain
  have hhost := Host.ofConfiguration_empty
  have hshape : inputs.all (fun ref => ((run ⟨host, {}⟩ calls).heap.live ref).toOption.all fun found =>
      found.2.shape == x) = true := by decide +kernel
  have hbounded : x.Bounded := ⟨by decide, by decide⟩
  have hinputs : ∀ ref ∈ inputs, ∀ id b, (run ⟨host, {}⟩ calls).heap.live ref = .ok (id, b) → b.shape.Bounded := by
    intro ref href id b hlive
    have hfound := List.all_eq_true.mp hshape ref href
    rw [hlive] at hfound
    rw [show b.shape = x from beq_iff_eq.mp hfound]
    exact hbounded
  have hfirst : ∀ (i : Nat) (ref : BufferRef), owned.getD i false = true → inputs[i]? = some ref →
      ∀ j : Nat, j < i → inputs[j]? ≠ some ref := by
    intro i ref howned hi j hj
    match i, j with
    | 0, _ => cases howned
    | 1, _ => cases howned
    | 2, 0 => rw [← hi]; decide
    | 2, 1 => rw [← hi]; decide
    | 2, j + 2 => omega
    | i + 3, _ => cases howned
  have honce : (exec (execute op inputs owned x) ((run ⟨host, {}⟩ calls).dividedBy p)).1.toOption =
      some 2 := by decide +kernel
  have hranges : p.workers.ranges 4 p.minParallel = [⟨0, 4⟩] := by decide +kernel
  have hranges' : p'.workers.ranges 4 p'.minParallel = [⟨2, 3⟩, ⟨0, 1⟩, ⟨1, 2⟩, ⟨3, 4⟩] := by decide +kernel
  obtain ⟨-, hsame⟩ := execute_of_partition "" host hhost calls op inputs owned x hbounded.positive
    hinputs hfirst
  rcases hsame p p' with ⟨e, -, herror, -⟩ | ⟨out, b, hout, hother, -, -, hheap⟩
  · rw [herror] at honce
    cases honce
  · obtain rfl : out = 2 := by
      rw [hout] at honce
      exact Option.some.inj honce
    exact ⟨host, hhost, hranges, hranges', honce, congrArg Except.toOption hother, hheap⟩

end HostState

end LazyTensor
