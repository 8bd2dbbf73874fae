import LazyTensor.Proofs.Total

/-!
# Where a divisor is zero

A kernel that divides an integer by zero says at which position this was. It works range by range, and within a range
step by step, so the position is the first one with a zero divisor in the range of a worker: it counts from the start
of that range and not from the first element of the output.
-/

namespace LazyTensor.Kernel

section Steps

variable {α : Type} [Arithmetic α] {out : Array α} {position : Nat}

/-! ## Steps on a range -/

theorem zeroDivisor?_eq_some_iff {kind : OpKind} {args : List (Source α)} :
    zeroDivisor? kind args out = some position ↔
      (∃ op, kind = .elementwise (.binary op)) ∧ position < out.size ∧ resultAt kind args out position = none ∧
        ∀ i < position, (resultAt kind args out i).isSome = true := by
  unfold zeroDivisor?
  split
  · rename_i op
    simp [and_left_comm]
  · rename_i hother
    constructor
    · intro h
      cases h
    · rintro ⟨⟨op, rfl⟩, -⟩
      exact absurd rfl (hother op)

theorem applyStep_divisionByZero {kind : OpKind} {args : List (Source α)}
    (h : (applyStep kind args out).2 = some (.divisionByZero position)) :
    zeroDivisor? kind args out = some position := by
  unfold applyStep at h
  cases hzero : zeroDivisor? kind args out with
  | some i =>
    rw [hzero] at h
    obtain rfl : i = position := by simpa using h
    rfl
  | none =>
    -- what is written element by element has other faults only
    rw [hzero] at h
    obtain ⟨-, -, hfail⟩ := writeEach_spec (resultAt kind args)
      (fun _ _ _ h => resultAt_congr kind args h) out.size 0 out (by omega)
    have hfault := (hfail _ h).1
    cases hfault

/-- A step that stops at a position: the steps before it have results at all positions, and it has results at those
before. -/
structure StopsAt (elements : Nat → Nat → Option α) (results : Array (Array α)) (size : Nat) (before : List Step)
    (s : Step) (position : Nat) : Prop where
  lt : position < size
  binary : ∃ op, s.kind = .elementwise (.binary op)
  column : ∀ (i : Nat) (column : Array α), i < size → Column results i column →
    ∃ column', resultsAt (elements i) column before = some column' ∧
      (i < position → (stepAt (elements i) column' s).isSome = true) ∧
      (i = position → stepAt (elements i) column' s = none)

theorem runSteps_divisionByZero {inputs : Array (Source α)} {results : Array (Array α)} {steps : List Step}
    (h : (runSteps inputs out results steps).2 = some (.divisionByZero position)) :
    ∃ before s after, steps = before ++ s :: after ∧
      StopsAt (lane (inputs.map (·.data out))) results out.size before s position := by
  induction steps generalizing results with
  | nil => cases h
  | cons s steps ih =>
    -- the first step may be the one, whether or not it writes to the output
    have hfirst : ∀ source : Operand → Source α,
        (∀ o, (source o).data out = (operandSource inputs results o).data out) →
        (applyStep s.kind (s.operands.map source) out).2 = some (.divisionByZero position) →
        StopsAt (lane (inputs.map (·.data out))) results out.size [] s position := by
      intro source hsource hstep
      obtain ⟨hkind, hlt, hnone, hsome⟩ := zeroDivisor?_eq_some_iff.mp (applyStep_divisionByZero hstep)
      refine ⟨hlt, hkind, fun i column _ hcolumn => ⟨column, rfl, fun hi => ?_, fun hi => ?_⟩⟩
      · rw [← resultAt_eq_stepAt hcolumn s source hsource]
        exact hsome i hi
      · rwa [← resultAt_eq_stepAt hcolumn s source hsource, hi]
    cases steps with
    | nil => exact ⟨[], s, [], rfl, hfirst _ (fun _ => rfl) h⟩
    | cons t steps =>
      simp only [runSteps] at h
      split at h
      · rename_i y fault hr
        exact ⟨[], s, t :: steps, rfl,
          hfirst (operandApart inputs out results) (fun _ => rfl) ((congrArg Prod.snd hr).trans h)⟩
      · rename_i y hr
        obtain ⟨before, s', after, hsteps, hstops⟩ := ih h
        refine ⟨s :: before, s', after, by rw [hsteps, List.cons_append], hstops.lt, hstops.binary, ?_⟩
        intro i column hi hcolumn
        obtain ⟨b, hb, hcolumn'⟩ := hcolumn.step hi (operandApart inputs out results) (fun _ => rfl) hr
        rw [resultsAt, hb]
        exact hstops.column i (column.push b) hi hcolumn'

end Steps

/-! ## Divisors -/

variable {t : ElementType}

/-- The divisor of a step, given the steps before it. -/
def divisorAt (t : ElementType) (inputs : Nat → Option t.Lane) (before : List Step) (s : Step) : Option Scalar :=
  (resultsAt inputs #[] before).bind fun results =>
    (s.operands[1]?.bind (operandAt inputs results)).map fun y => t.toScalar (t.narrow y)

/-- If some elements of a type cannot be divided then it is one of integers, and those that cannot be divided by are
zero. -/
theorem exists_integer_of_binary_eq_none {x y : t.Lane} (h : Arithmetic.binary .div x y = none) (y' : t.Lane) :
    ∃ n, t.toScalar (t.narrow y') = .integer n ∧ ∀ x', Arithmetic.binary .div x' y' = none ↔ n = 0 := by
  have hint : ∀ {f : IntFormat} (x' y' : IntWord f), IntWord.binary .div x' y' = none ↔ y'.value = 0 := by
    simp [IntWord.binary, IntWord.div?]
  cases t with
  | uint8 | uint32 | int32 | int64 => exact ⟨y'.value, rfl, fun x' => hint x' y'⟩
  | float16 | bfloat16 | float32 | float64 => cases h

/-- A division is the first step of a range to have no result, at a position of the range: its divisor is zero there,
and not before. -/
structure FirstZeroDivisor (t : ElementType) (p : Program) (data : Array (Array t.Elem)) (r : Range)
    (before : List Step) (s : Step) (position : Nat) : Prop where
  steps : ∃ after, p.steps = before ++ s :: after
  kind : s.kind = .elementwise (.binary .div)
  lt : position < r.stop - r.start
  earlier : ∀ i < r.stop - r.start,
    (resultsAt (fun k => (lane data (r.start + i) k).map t.widen) #[] before).isSome = true
  nonzero : ∀ i < position,
    ∃ n, divisorAt t (fun k => (lane data (r.start + i) k).map t.widen) before s = some (.integer n) ∧ n ≠ 0
  zero : divisorAt t (fun k => (lane data (r.start + position) k).map t.widen) before s = some (.integer 0)

section Programs

variable {p : Program} {inputs : Array (Source t.Elem)} {out : Array t.Elem} {position : Nat}

theorem exists_divisor {numInputs : Int} {lanes : Nat → Option t.Lane} {before : List Step} {s : Step} {op : BinaryOp}
    {column : Array t.Lane} (hvalid : s.ValidAt numInputs before.length) (hkind : s.kind = .elementwise (.binary op))
    (hlanes : ∀ k : Nat, (k : Int) < numInputs → (lanes k).isSome = true)
    (hcolumn : resultsAt lanes #[] before = some column) :
    ∃ x y, stepAt lanes column s = Arithmetic.binary op x y ∧
      divisorAt t lanes before s = some (t.toScalar (t.narrow y)) := by
  have hsize : column.size = before.length := by simp [size_resultsAt hcolumn]
  obtain ⟨args, hargs, hlength⟩ := exists_operands_at (hsize ▸ hvalid) hlanes
  have harity : s.operands.length = 2 := by rw [hvalid.arity, hkind]; rfl
  rw [hkind] at hlength
  obtain ⟨a, b, hoperands⟩ := List.length_eq_two.mp harity
  obtain ⟨x, y, rfl⟩ := List.length_eq_two.mp hlength
  have hget := mapM_eq_some_iff.mp hargs
  rw [hoperands] at hget
  obtain ⟨-, hb⟩ : operandAt lanes column a = some x ∧ operandAt lanes column b = some y := by simpa using hget
  refine ⟨x, y, by rw [stepAt, hargs, hkind]; rfl, ?_⟩
  simp [divisorAt, hcolumn, hoperands, hb]

theorem exists_stopsAt {r : Range} (hstop : r.stop ≤ out.size)
    (h : (runProgram t p inputs out r).2 = some (.divisionByZero position)) :
    ∃ before s after, p.steps = before ++ s :: after ∧
      StopsAt (fun i k => (lane (inputs.map (·.data out)) (r.start + i) k).map t.widen) #[] (r.stop - r.start) before s
        position := by
  have hrun : (runSteps (inputs.map (·.part t.widen r)) ((out.extract r.start r.stop).map t.widen) #[] p.steps).2 =
      some (.divisionByZero position) := h
  obtain ⟨before, s, after, hsteps, hstops⟩ := runSteps_divisionByZero hrun
  have hsize : ((out.extract r.start r.stop).map t.widen).size = r.stop - r.start := by
    simp only [Array.size_map, Array.size_extract]
    omega
  rw [hsize] at hstops
  refine ⟨before, s, after, hsteps, hstops.lt, hstops.binary, fun i column hi hcolumn => ?_⟩
  have hat := hstops.column i column hi hcolumn
  rwa [lane_part inputs out hi] at hat

/-- The zero divisor that is reported is the first one of the range. -/
theorem runProgram_divisionByZero {r : Range} (hp : p.Valid) (hcount : (inputs.size : Int) = p.numInputs)
    (hsize : ∀ x ∈ inputs, (x.data out).size = out.size) (hstop : r.stop ≤ out.size)
    (h : (runProgram t p inputs out r).2 = some (.divisionByZero position)) :
    ∃ before s, FirstZeroDivisor t p (inputs.map (·.data out)) r before s position := by
  obtain ⟨before, s, after, hsteps, hstops⟩ := exists_stopsAt hstop h
  obtain ⟨op, hkind⟩ := hstops.binary
  have hlt := hstops.lt
  have hvalid : s.ValidAt p.numInputs before.length := hp.steps _ s (by rw [hsteps]; simp)
  have hlanes : ∀ i < r.stop - r.start, ∀ k : Nat, (k : Int) < p.numInputs →
      ((lane (inputs.map (·.data out)) (r.start + i) k).map t.widen).isSome = true := by
    intro i hi k hk
    have hk' : k < inputs.size := by omega
    have hout := hsize inputs[k] (Array.getElem_mem hk')
    simp [lane, hk']
    omega
  have hcolumn : ∀ i, Column (#[] : Array (Array t.Lane)) i #[] := fun i => ⟨rfl, fun k => by simp [lane]⟩
  -- it is a division, as no other step of two operands is without result
  obtain ⟨column, hbefore, -, hnone⟩ := hstops.column position #[] hlt (hcolumn position)
  obtain ⟨x, y, hstep, hdivisor⟩ := exists_divisor hvalid hkind (hlanes position hlt) hbefore
  have happly : applyAt (.elementwise (.binary op)) [x, y] = none := hstep.symm.trans (hnone rfl)
  obtain ⟨-, -, hdiv, -, -⟩ := applyAt_eq_none rfl rfl (fun _ h => by cases h) happly
  cases hdiv
  refine ⟨before, s, ⟨after, hsteps⟩, hkind, hlt, fun i hi => ?_, fun i hi => ?_, ?_⟩
  · obtain ⟨column, hbefore, -⟩ := hstops.column i #[] hi (hcolumn i)
    rw [hbefore]
    rfl
  · obtain ⟨column, hbefore, hsome, -⟩ := hstops.column i #[] (by omega) (hcolumn i)
    obtain ⟨x', y', hstep', hdivisor'⟩ := exists_divisor hvalid hkind (hlanes i (by omega)) hbefore
    obtain ⟨n, hn, hzero⟩ := exists_integer_of_binary_eq_none happly y'
    refine ⟨n, by rw [hdivisor', hn], fun h0 => ?_⟩
    have hresult := hsome hi
    rw [hstep', (hzero x').mpr h0] at hresult
    cases hresult
  · obtain ⟨n, hn, hzero⟩ := exists_integer_of_binary_eq_none happly y
    rw [hdivisor, hn, (hzero x).mp happly]

/-- The ranges are run one after the other, and the first in which the program has no results has its zero divisor
at the position. -/
structure StopsIn (t : ElementType) (p : Program) (data : Array (Array t.Elem)) (ranges : List Range) (r : Range)
    (position : Nat) : Prop where
  first : ∃ before after, ranges = before ++ r :: after ∧
    ∀ r' ∈ before, ∀ i : Nat, r'.start ≤ i → i < r'.stop → (programAt t p data i).isSome = true
  divisor : ∃ before s, FirstZeroDivisor t p data r before s position

theorem inPlace_divisionByZero {ranges : List Range} (hranges : Covers ranges out.size) (hp : p.Valid)
    (hcount : (inputs.size : Int) = p.numInputs) (hsize : ∀ x ∈ inputs, (x.data out).size = out.size)
    (h : (inPlace ranges (runProgram t p inputs) out).2 = some (.divisionByZero position)) :
    ∃ r, StopsIn t p (inputs.map (·.data out)) ranges r position := by
  rw [inPlace_runProgram_eq p inputs hranges, overRanges_snd, List.findSome?_eq_some_iff] at h
  obtain ⟨before, r, after, rfl, hfault, hnone⟩ := h
  refine ⟨r, ⟨before, after, rfl, fun r' hr' i hstart hend => ?_⟩,
    runProgram_divisionByZero hp hcount hsize (hranges.bounds r (by simp)).2 hfault⟩
  -- a range without fault has a result at every index
  have hmem : r' ∈ before ++ r :: after := List.mem_append_left _ hr'
  have hpoint := pointwise_runProgram inputs hp.steps_ne_nil (hranges.bounds r' hmem).2
  have hlength := hpoint.size_eq (hnone r' hr')
  rw [← hpoint.get (hnone r' hr') i hstart hend, Array.getElem?_eq_getElem (by omega)]
  rfl

end Programs

end LazyTensor.Kernel
