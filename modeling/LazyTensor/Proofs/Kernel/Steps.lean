import LazyTensor.Kernel.Steps
import LazyTensor.Proofs.Kernel.Range
import LazyTensor.Proofs.Program

/-!
# Programs element by element

The steps of a program are run on whole ranges, but each element only depends on the elements at its
own index. `resultsAt` runs the steps on single elements, and `runSteps_spec` says that a kernel does
this at every index, and fails if it fails at one. So it does not matter that the last step may overwrite
what it reads (`writeEach_spec`), and that ranges are run on an output in which others have been written
already (`inPlace_runProgram`).
-/

namespace LazyTensor

open List Option

/-! ## Words that are not rounded -/

namespace ElementType

variable {t : ElementType}

theorem widen_comp_narrow (h : t.isHalf = false) : t.widen ∘ t.narrow = id := by
  cases t with
  | float16 | bfloat16 => cases h
  | _ => rfl

theorem narrow_comp_widen (h : t.isHalf = false) : t.narrow ∘ t.widen = id := by
  cases t with
  | float16 | bfloat16 => cases h
  | _ => rfl

end ElementType

namespace Kernel

variable {α : Type} [Arithmetic α] {steps : List Step}

/-! ## Steps on single elements -/

/-- An operand of a step, given the program inputs and the results so far. -/
def operandAt (inputs : Nat → Option α) (results : Array α) : Operand → Option α
  | .input i => inputs i.toNat
  | .step i => results[i.toNat]?

def stepAt (inputs : Nat → Option α) (results : Array α) (s : Step) : Option α :=
  (s.operands.mapM (operandAt inputs results)).bind (applyAt s.kind)

/-- The results of all steps, given those of the earlier ones. -/
def resultsAt (inputs : Nat → Option α) : (results : Array α) → List Step → Option (Array α)
  | results, [] => some results
  | results, s :: steps => (stepAt inputs results s).bind fun y => resultsAt inputs (results.push y) steps

/-- The elements at an index. -/
def lane (inputs : Array (Array α)) (i k : Nat) : Option α := inputs[k]?.bind (·[i]?)

theorem resultsAt_append (inputs : Nat → Option α) (results : Array α) (steps steps' : List Step) :
    resultsAt inputs results (steps ++ steps') =
      (resultsAt inputs results steps).bind fun results' => resultsAt inputs results' steps' := by
  induction steps generalizing results with
  | nil => rfl
  | cons s steps ih =>
    rw [cons_append, resultsAt, resultsAt]
    cases stepAt inputs results s with
    | none => rfl
    | some y => exact ih (results.push y)

theorem size_resultsAt {inputs : Nat → Option α} {results all : Array α} {steps : List Step}
    (h : resultsAt inputs results steps = some all) :
    all.size = results.size + steps.length := by
  induction steps generalizing results with
  | nil =>
    obtain rfl := Option.some.inj h
    rfl
  | cons s steps ih =>
    rw [resultsAt, bind_eq_some_iff] at h
    obtain ⟨y, -, hrest⟩ := h
    rw [ih hrest, Array.size_push, length_cons]
    omega

theorem resultsAt_single {β : Type} (f : β → Option α) {ids : List β} {e : Elementwise} (dtype : DType)
    (hlength : ids.length = e.arity) :
    (resultsAt (fun k => ids[k]?.bind f) #[] (Program.single (.elementwise e) dtype).steps).bind (·.back?) =
      (ids.mapM f).bind (applyAt (.elementwise e)) := by
  -- the operands of the only step are the inputs, in their order
  have hoperands : ((range e.arity).map fun (i : Nat) => Operand.input i).mapM
      (operandAt (fun k => ids[k]?.bind f) #[]) = ids.mapM f := by
    have hmap : (range e.arity).map (fun k => ids[k]?.bind f) = ids.map f := by
      refine ext_getElem (by simp [hlength]) fun k hk hk' => ?_
      rw [length_map] at hk'
      simp [getElem?_eq_getElem hk']
    have hid : ∀ {γ : Type} (l : List γ) (f' : γ → Option α), l.mapM f' = (l.map f').mapM id := by
      intro γ l f'
      rw [mapM_map]
      rfl
    rw [hid ids, ← hmap, ← hid, mapM_map]
    rfl
  have hstep : stepAt (fun k => ids[k]?.bind f) #[]
      ⟨.elementwise e, (range e.arity).map fun (i : Nat) => .input i⟩ =
        (ids.mapM f).bind (applyAt (.elementwise e)) := by
    rw [stepAt, hoperands]
  have hsteps : (Program.single (.elementwise e) dtype).steps =
      [⟨.elementwise e, (range e.arity).map fun (i : Nat) => .input i⟩] := rfl
  rw [hsteps, resultsAt, hstep]
  cases (ids.mapM f).bind (applyAt (.elementwise e)) with
  | none => rfl
  | some y => simp [resultsAt]

/-! ## Writing in place -/

variable {out out' column : Array α} {i : Nat} {results : Array (Array α)} {t : ElementType} {ranges : List Range}
  {kind : OpKind}

omit [Arithmetic α] in
/-- Elements that depend on the output at their own index only: each is computed from what was there, as those
before it are written elsewhere. -/
theorem writeEach_spec (value : Array α → Nat → Option α)
    (hlocal : ∀ (out out' : Array α) (i : Nat), out'[i]? = out[i]? → value out' i = value out i) (count i : Nat)
    (out : Array α) (hle : i + count ≤ out.size) :
    (writeEach value count i out).1.size = out.size ∧
    ((writeEach value count i out).2 = none → ∀ j : Nat,
      (writeEach value count i out).1[j]? = if i ≤ j ∧ j < i + count then value out j else out[j]?) ∧
    ∀ fault, (writeEach value count i out).2 = some fault →
      fault = .outOfBounds ∧ ∃ j : Nat, i ≤ j ∧ j < i + count ∧ value out j = none := by
  induction count generalizing i out with
  | zero =>
    refine ⟨rfl, fun _ j => ?_, fun fault h => ?_⟩
    · rw [if_neg (by omega)]
      rfl
    · cases h
  | succ count ih =>
    rw [writeEach]
    cases hy : value out i with
    | none =>
      exact ⟨rfl, fun h => absurd h (some_ne_none _), fun fault h =>
        ⟨(Option.some.inj h).symm, i, Nat.le_refl i, by omega, hy⟩⟩
    | some y =>
      have hsize : (out.setIfInBounds i y).size = out.size := Array.size_setIfInBounds
      -- later elements are still to be written
      have hlater : ∀ j : Nat, i ≠ j → value (out.setIfInBounds i y) j = value out j := fun j hj =>
        hlocal _ _ j (Array.getElem?_setIfInBounds_ne hj)
      obtain ⟨hcount, hok, hfail⟩ := ih (i + 1) (out.setIfInBounds i y) (by omega)
      refine ⟨hcount.trans hsize, fun h j => ?_, fun fault h => ?_⟩
      · simp only
        rw [hok h j]
        by_cases hj : i = j
        · subst hj
          rw [if_neg (by omega), if_pos (by omega), hy, Array.getElem?_setIfInBounds_self_of_lt (by omega)]
        · rw [hlater j hj, Array.getElem?_setIfInBounds_ne hj]
          simp only [show (i + 1 ≤ j ∧ j < i + 1 + count) ↔ (i ≤ j ∧ j < i + (count + 1)) by omega]
      · obtain ⟨hfault, j, hij, hj, hnone⟩ := hfail fault h
        exact ⟨hfault, j, by omega, by omega, by rw [← hlater j (by omega), hnone]⟩

theorem resultAt_congr (kind : OpKind) (args : List (Source α)) (h : out'[i]? = out[i]?) :
    resultAt kind args out' i = resultAt kind args out i := by
  unfold resultAt
  congr 1
  apply mapM_congr
  intro x _
  cases x with
  | apart data => rfl
  | output => exact h

theorem zeroDivisor?_eq_some {args : List (Source α)} (h : zeroDivisor? kind args out = some i) :
    i < out.size ∧ resultAt kind args out i = none := by
  unfold zeroDivisor? at h
  split at h
  · exact ⟨mem_range.mp (mem_of_find?_eq_some h), by simpa using find?_some h⟩
  · cases h

/-- A step gives its result at every index, also where it overwrites what it reads, and fails if there is none at
one. -/
theorem applyStep_spec (kind : OpKind) (args : List (Source α)) (out : Array α) :
    (applyStep kind args out).1.size = out.size ∧
    ((applyStep kind args out).2 = none → ∀ i : Nat, i < out.size →
      (applyStep kind args out).1[i]? = resultAt kind args out i) ∧
    ((applyStep kind args out).2 ≠ none → ∃ i : Nat, i < out.size ∧ resultAt kind args out i = none) := by
  obtain ⟨hsize, hok, hfail⟩ := writeEach_spec (resultAt kind args)
    (fun _ _ _ h => resultAt_congr kind args h) out.size 0 out (by omega)
  unfold applyStep
  cases hzero : zeroDivisor? kind args out with
  | some i =>
    exact ⟨rfl, fun h => absurd h (some_ne_none _), fun _ => ⟨i, zeroDivisor?_eq_some hzero⟩⟩
  | none =>
    refine ⟨hsize, fun h i hi => ?_, fun h => ?_⟩
    · rw [hok h i, if_pos (by omega)]
    · obtain ⟨fault, hfault⟩ := ne_none_iff_exists'.mp h
      obtain ⟨-, j, -, hj, hnone⟩ := hfail fault hfault
      exact ⟨j, by omega, hnone⟩

/-! ## All steps -/

/-- The results at an index. -/
structure Column (results : Array (Array α)) (i : Nat) (column : Array α) : Prop where
  size_eq : column.size = results.size
  get : ∀ k : Nat, column[k]? = lane results i k

omit [Arithmetic α] in
theorem Column.push {results : Array (Array α)} {i : Nat} {column : Array α} (h : Column results i column)
    {y : Array α} {b : α} (hb : y[i]? = some b) : Column (results.push y) i (column.push b) where
  size_eq := by simp [h.size_eq]
  get k := by
    rw [lane, Array.getElem?_push, Array.getElem?_push, h.size_eq]
    split
    · simp [hb]
    · exact h.get k

omit [Arithmetic α] in
private theorem getElem?_operandSource {inputs : Array (Source α)} (hcolumn : Column results i column) (o : Operand) :
    ((operandSource inputs results o).data out)[i]? = operandAt (lane (inputs.map (·.data out)) i) column o := by
  cases o with
  | input k =>
    simp only [operandSource, operandAt, lane, Array.getD_eq_getD_getElem?, Array.getElem?_map]
    cases inputs[k.toNat]? <;> simp [Source.data]
  | step k =>
    simp only [operandSource, operandAt, Array.getD_eq_getD_getElem?, Source.data]
    rw [hcolumn.get, lane]
    cases results[k.toNat]? <;> simp

theorem resultAt_eq_stepAt {inputs : Array (Source α)} (hcolumn : Column results i column) (s : Step)
    (source : Operand → Source α) (hsource : ∀ o, (source o).data out = (operandSource inputs results o).data out) :
    resultAt s.kind (s.operands.map source) out i = stepAt (lane (inputs.map (·.data out)) i) column s := by
  unfold resultAt stepAt
  rw [mapM_map]
  congr 1
  apply mapM_congr
  intro o _
  show ((source o).data out)[i]? = _
  rw [hsource, getElem?_operandSource hcolumn]

theorem Column.step {inputs : Array (Source α)} {y : Array α} {s : Step} (hcolumn : Column results i column)
    (hi : i < out.size) (source : Operand → Source α)
    (hsource : ∀ o, (source o).data out = (operandSource inputs results o).data out)
    (happly : applyStep s.kind (s.operands.map source) out = (y, none)) :
    ∃ b, stepAt (lane (inputs.map (·.data out)) i) column s = some b ∧ Column (results.push y) i (column.push b) := by
  obtain ⟨hsize, hok, -⟩ := applyStep_spec s.kind (s.operands.map source) out
  rw [happly] at hsize hok
  have hlt : i < y.size := by
    rwa [show y.size = out.size from hsize]
  have hb := Array.getElem?_eq_getElem hlt
  have hstep := hok rfl i hi
  rw [resultAt_eq_stepAt hcolumn s source hsource] at hstep
  exact ⟨y[i], hstep.symm.trans hb, hcolumn.push hb⟩

theorem size_runSteps (inputs : Array (Source α)) (out : Array α) (results : Array (Array α)) (steps : List Step) :
    (runSteps inputs out results steps).1.size = out.size := by
  induction steps generalizing results with
  | nil => rfl
  | cons s steps ih =>
    cases steps with
    | nil => exact (applyStep_spec ..).1
    | cons t steps =>
      simp only [runSteps]
      split
      · rfl
      · exact ih _

/-- The steps of a program compute its results at every index, or have no result at one of them. -/
theorem runSteps_spec (inputs : Array (Source α)) (out : Array α) (results : Array (Array α)) (hne : steps ≠ []) :
    let r := runSteps inputs out results steps
    (r.2 = none → ∀ (i : Nat) (column : Array α), i < out.size → Column results i column →
      ∃ all, resultsAt (lane (inputs.map (·.data out)) i) column steps = some all ∧ r.1[i]? = all.back?) ∧
    (r.2 ≠ none → ∃ i : Nat, i < out.size ∧ ∀ column, Column results i column →
      resultsAt (lane (inputs.map (·.data out)) i) column steps = none) := by
  induction steps generalizing results with
  | nil => exact absurd rfl hne
  | cons s steps ih =>
    -- only the last step overwrites the output, so all others read the inputs as they were
    cases steps with
    | nil =>
      obtain ⟨hsize, hok, hfail⟩ := applyStep_spec s.kind (s.operands.map (operandSource inputs results)) out
      simp only [runSteps, resultsAt]
      constructor
      · intro h i column hi hcolumn
        have hstep := hok h i hi
        rw [resultAt_eq_stepAt hcolumn s _ fun _ => rfl] at hstep
        rw [Array.getElem?_eq_getElem (by omega)] at hstep ⊢
        rw [← hstep]
        exact ⟨_, rfl, by simp⟩
      · intro h
        obtain ⟨i, hi, hnone⟩ := hfail h
        refine ⟨i, hi, fun column hcolumn => ?_⟩
        rw [← resultAt_eq_stepAt hcolumn s _ fun _ => rfl, hnone, bind_none]
    | cons t steps =>
      obtain ⟨-, -, hfail⟩ := applyStep_spec s.kind (s.operands.map (operandApart inputs out results)) out
      simp only [runSteps]
      rcases hr : applyStep s.kind (s.operands.map (operandApart inputs out results)) out with ⟨y, _ | fault⟩
      · -- one more result at an index
        have hnext : ∀ (i : Nat) (column : Array α), i < out.size → Column results i column →
            ∃ b, stepAt (lane (inputs.map (·.data out)) i) column s = some b ∧
              Column (results.push y) i (column.push b) :=
          fun i column hi hcolumn => hcolumn.step hi (operandApart inputs out results) (fun _ => rfl) hr
        obtain ⟨hok', hfail'⟩ := ih (results.push y) (by simp)
        constructor
        · intro h i column hi hcolumn
          obtain ⟨b, hb, hcolumn'⟩ := hnext i column hi hcolumn
          rw [resultsAt, hb]
          exact hok' h i (column.push b) hi hcolumn'
        · intro h
          obtain ⟨i, hi, hnone⟩ := hfail' h
          refine ⟨i, hi, fun column hcolumn => ?_⟩
          obtain ⟨b, hb, hcolumn'⟩ := hnext i column hi hcolumn
          rw [resultsAt, hb]
          exact hnone _ hcolumn'
      · rw [hr] at hfail
        refine ⟨nofun, fun _ => ?_⟩
        obtain ⟨i, hi, hnone⟩ := hfail (by simp)
        refine ⟨i, hi, fun column hcolumn => ?_⟩
        rw [resultsAt, ← resultAt_eq_stepAt hcolumn s (operandApart inputs out results) fun _ => rfl, hnone,
          bind_none]

/-! ## Programs over ranges -/

/-- The result of a program at an index. -/
def programAt (t : ElementType) (p : Program) (inputs : Array (Array t.Elem)) (i : Nat) : Option t.Elem :=
  ((resultsAt (fun k => (lane inputs i k).map t.widen) #[] p.steps).bind (·.back?)).map t.narrow

theorem size_runProgram_le (t : ElementType) (p : Program) (inputs : Array (Source t.Elem)) (out : Array t.Elem)
    (r : Range) : (runProgram t p inputs out r).1.size ≤ r.stop - r.start := by
  simp only [runProgram, Array.size_map, size_runSteps, Array.size_extract]
  omega

theorem lane_part (inputs : Array (Source t.Elem)) (out : Array t.Elem) {r : Range} (hi : i < r.stop - r.start) :
    lane ((inputs.map (·.part t.widen r)).map (·.data ((out.extract r.start r.stop).map t.widen))) i =
      fun k => (lane (inputs.map (·.data out)) (r.start + i) k).map t.widen := by
  funext k
  simp only [lane, Array.getElem?_map]
  cases inputs[k]? with
  | none => rfl
  | some s => exact s.getElem?_part t.widen out hi

/-- A program computes each element from the elements at the same index. -/
theorem pointwise_runProgram {p : Program} (inputs : Array (Source t.Elem)) {out : Array t.Elem} {r : Range}
    (hne : p.steps ≠ []) (hstop : r.stop ≤ out.size) :
    Pointwise (runProgram t p inputs out) (programAt t p (inputs.map (·.data out))) r := by
  let lanes := inputs.map (·.part t.widen r)
  let old := (out.extract r.start r.stop).map t.widen
  have hold : old.size = r.stop - r.start := by
    simp only [old, Array.size_map, Array.size_extract]
    omega
  -- the lanes of a range are those of all data, from its start on
  have hlane : ∀ i : Nat, i < r.stop - r.start → lane (lanes.map (·.data old)) i =
      fun k => (lane (inputs.map (·.data out)) (r.start + i) k).map t.widen := fun i hi => lane_part inputs out hi
  have hcolumn : ∀ i : Nat, Column (#[] : Array (Array t.Lane)) i #[] :=
    fun i => ⟨rfl, fun k => by simp [lane]⟩
  have hsize := size_runSteps lanes old #[] p.steps
  obtain ⟨hok, hfail⟩ := runSteps_spec lanes old #[] hne
  have hrun : runProgram t p inputs out r =
      ((runSteps lanes old #[] p.steps).1.map t.narrow, (runSteps lanes old #[] p.steps).2) := rfl
  refine ⟨fun h => ?_, fun h i hstart hstop => ?_, fun h => ?_⟩ <;> rw [hrun] at h
  · rw [hrun, Array.size_map, hsize, hold]
  · obtain ⟨all, hall, hget⟩ := hok h (i - r.start) #[] (by omega) (hcolumn _)
    rw [hlane _ (by omega), Nat.add_sub_cancel' hstart] at hall
    rw [hrun, programAt, hall, bind_some, ← hget, Array.getElem?_map]
  · obtain ⟨i, hi, hnone⟩ := hfail h
    have hnone := hnone #[] (hcolumn _)
    rw [hlane i (by omega)] at hnone
    exact ⟨r.start + i, by omega, by omega, by rw [programAt, hnone, bind_none, map_none]⟩

/-- The elements that a program gives, if it has a result at every index. -/
def programTable? (t : ElementType) (p : Program) (inputs : Array (Array t.Elem)) (n : Nat) :
    Option (Array t.Elem) :=
  table? n (programAt t p inputs)

theorem inPlace_runProgram_eq (p : Program) (inputs : Array (Source t.Elem)) {out : Array t.Elem}
    (hranges : Covers ranges out.size) :
    inPlace ranges (runProgram t p inputs) out = overRanges ranges (runProgram t p inputs out) out := by
  apply inPlace_eq_overRanges hranges.toApart (Nat.le_refl _)
  · intro r _ out' hsame
    simp only [runProgram, hsame]
  · exact fun r _ => size_runProgram_le t p inputs out r

theorem size_inPlace_runProgram (p : Program) (inputs : Array (Source t.Elem)) {out : Array t.Elem}
    (hranges : Covers ranges out.size) : (inPlace ranges (runProgram t p inputs) out).1.size = out.size := by
  rw [inPlace_runProgram_eq p inputs hranges]
  exact size_overRanges hranges.toApart (Nat.le_refl _) fun r _ => size_runProgram_le t p inputs out r

/-- A program over ranges that cover the output gives its table, also if the output is among its inputs. -/
theorem inPlace_runProgram {p : Program} (inputs : Array (Source t.Elem)) {out : Array t.Elem} (hne : p.steps ≠ [])
    (hranges : Covers ranges out.size) :
    let r := inPlace ranges (runProgram t p inputs) out
    (r.2 = none → programTable? t p (inputs.map (·.data out)) out.size = some r.1) ∧
    (r.2 ≠ none → programTable? t p (inputs.map (·.data out)) out.size = none) := by
  rw [inPlace_runProgram_eq p inputs hranges]
  exact overRanges_table hranges fun r hr => pointwise_runProgram inputs hne (hranges.bounds r hr).2

/-! ## Faults -/

/-- Steps whose operations of one operand have results everywhere. -/
def UnaryTotal (α : Type) [Arithmetic α] (steps : List Step) : Prop :=
  ∀ s ∈ steps, ∀ op, s.kind = .elementwise (.unary op) → ∀ x : α, (Arithmetic.unary op x).isSome = true

theorem elementwise_args {β : Type} {args : List β} (hkind : kind.isElementwise = true)
    (hlen : args.length = kind.arity) :
    (∃ op x, kind = .elementwise (.unary op) ∧ args = [x]) ∨
    (∃ op x y, kind = .elementwise (.binary op) ∧ args = [x, y]) ∨
    ∃ x y z, kind = .elementwise .fusedMulAdd ∧ args = [x, y, z] := by
  obtain ⟨e, rfl⟩ := OpKind.exists_elementwise hkind
  cases e with
  | unary op =>
    match args, hlen with
    | [x], _ => exact .inl ⟨op, x, rfl, rfl⟩
  | binary op =>
    match args, hlen with
    | [x, y], _ => exact .inr (.inl ⟨op, x, y, rfl, rfl⟩)
  | fusedMulAdd =>
    match args, hlen with
    | [x, y, z], _ => exact .inr (.inr ⟨x, y, z, rfl, rfl⟩)

/-- The only fault of such a step, if its operands have elements for the whole output, is a division by zero. -/
theorem applyStep_fault {args : List (Source α)} {fault : Fault} (hkind : kind.isElementwise = true)
    (hlen : args.length = kind.arity) (hsize : ∀ x ∈ args, (x.data out).size = out.size)
    (htotal : ∀ op, kind = .elementwise (.unary op) → ∀ x : α, (Arithmetic.unary op x).isSome = true)
    (h : (applyStep kind args out).2 = some fault) : ∃ position, fault = .divisionByZero position := by
  unfold applyStep at h
  cases hzero : zeroDivisor? kind args out with
  | some i =>
    rw [hzero] at h
    exact ⟨i, (Option.some.inj h).symm⟩
  | none =>
    rw [hzero] at h
    obtain ⟨-, -, hfail⟩ := writeEach_spec (resultAt kind args)
      (fun _ _ _ h => resultAt_congr kind args h) out.size 0 out (by omega)
    obtain ⟨-, j, -, hj, hnone⟩ := hfail fault h
    have hget : ∀ x ∈ args, ∃ a, (x.data out)[j]? = some a := fun x hx =>
      ⟨_, Array.getElem?_eq_getElem (by rw [hsize x hx]; omega)⟩
    rcases elementwise_args hkind hlen with ⟨op, x, rfl, rfl⟩ | ⟨op, x, y, rfl, rfl⟩ | ⟨x, y, z, rfl, rfl⟩
    · obtain ⟨a, ha⟩ := hget x (by simp)
      have hsome := htotal op rfl a
      simp only [resultAt, mapM_cons, mapM_nil, ha, Option.pure_def, bind_eq_bind, bind_some,
        applyAt] at hnone
      rw [hnone] at hsome
      cases hsome
    · -- a missing result would have been found before
      have hall := find?_eq_none.mp hzero j (mem_range.mpr (by omega))
      simp [hnone] at hall
    · obtain ⟨a, ha⟩ := hget x (by simp)
      obtain ⟨b, hb⟩ := hget y (by simp)
      obtain ⟨c, hc⟩ := hget z (by simp)
      simp [resultAt, ha, hb, hc, applyAt] at hnone

omit [Arithmetic α] in
private theorem size_operandSource {inputs : Array (Source α)} {o : Operand} (ho : o.ValidAt inputs.size results.size)
    (hinputs : ∀ x ∈ inputs, (x.data out).size = out.size) (hresults : ∀ x ∈ results, x.size = out.size) :
    ((operandSource inputs results o).data out).size = out.size := by
  cases o with
  | input k =>
    have hk : k.toNat < inputs.size := by
      simp only [Operand.ValidAt] at ho
      omega
    simp only [operandSource, Array.getD_eq_getD_getElem?, Array.getElem?_eq_getElem hk, getD_some]
    exact hinputs _ (Array.getElem_mem hk)
  | step k =>
    have hk : k.toNat < results.size := by
      simp only [Operand.ValidAt] at ho
      omega
    simp only [operandSource, Source.data, Array.getD_eq_getD_getElem?, Array.getElem?_eq_getElem hk, getD_some]
    exact hresults _ (Array.getElem_mem hk)

/-- A valid program can only stop at a zero divisor. -/
theorem runSteps_fault {inputs : Array (Source α)} {fault : Fault}
    (hvalid : ∀ (j : Nat) (s : Step), steps[j]? = some s → s.ValidAt inputs.size (results.size + j))
    (hinputs : ∀ x ∈ inputs, (x.data out).size = out.size) (hresults : ∀ x ∈ results, x.size = out.size)
    (htotal : UnaryTotal α steps) (h : (runSteps inputs out results steps).2 = some fault) :
    ∃ position, fault = .divisionByZero position := by
  induction steps generalizing results with
  | nil => cases h
  | cons s steps ih =>
    have hs : s.ValidAt inputs.size results.size := hvalid 0 s rfl
    -- a valid step can only fail by a division, wherever its operands are read from
    have hstep : ∀ source : Operand → Source α, (∀ o, (source o).data out = (operandSource inputs results o).data out) →
        (applyStep s.kind (s.operands.map source) out).2 = some fault →
        ∃ position, fault = .divisionByZero position := by
      intro source hsource
      apply applyStep_fault hs.elementwise (by rw [length_map, hs.arity]) _ (htotal s (.head _))
      intro x hx
      obtain ⟨o, ho, rfl⟩ := List.mem_map.mp hx
      rw [hsource]
      exact size_operandSource (hs.operands o ho) hinputs hresults
    cases steps with
    | nil => exact hstep _ (fun _ => rfl) h
    | cons t steps =>
      simp only [runSteps] at h
      split at h
      · rename_i y fault' hr
        exact hstep (operandApart inputs out results) (fun _ => rfl) ((congrArg Prod.snd hr).trans h)
      · rename_i y hr
        have hsize : y.size = out.size := by
          have := (applyStep_spec s.kind (s.operands.map (operandApart inputs out results)) out).1
          rwa [hr] at this
        apply ih _ _ (fun s hs => htotal s (.tail _ hs)) h
        · rw [Array.size_push]
          exact Program.validAt_tail hvalid
        · intro x hx
          rcases Array.mem_push.mp hx with hx | rfl
          · exact hresults x hx
          · exact hsize

/-- Such steps on single elements give the last of their results, if no divisor is zero. -/
theorem runSteps_single {inputs : List α} (hne : steps ≠ [])
    (hvalid : ∀ (j : Nat) (s : Step), steps[j]? = some s → s.ValidAt inputs.length j) (htotal : UnaryTotal α steps)
    (old : α) (hdivides : ∀ i, (runSteps (inputs.map fun x => .apart #[x]).toArray #[old] #[] steps).2 ≠
      some (.divisionByZero i)) :
    ∃ all y, resultsAt (inputs[·]?) #[] steps = some all ∧ all.back? = some y ∧
      runSteps (inputs.map fun x => .apart #[x]).toArray #[old] #[] steps = (#[y], none) := by
  let sources : Array (Source α) := (inputs.map fun x => .apart #[x]).toArray
  have hlane : lane (sources.map (·.data #[old])) 0 = (inputs[·]?) := by
    funext k
    simp only [lane, sources, map_toArray, getElem?_toArray, getElem?_map]
    cases inputs[k]? <;> rfl
  have hsources : ∀ x ∈ sources, (x.data #[old]).size = 1 := by
    intro x hx
    simp only [sources, List.mem_toArray, List.mem_map] at hx
    obtain ⟨a, -, rfl⟩ := hx
    rfl
  -- the only fault that a valid program can have is excluded
  have hnone : (runSteps sources #[old] #[] steps).2 = none := by
    cases hfault : (runSteps sources #[old] #[] steps).2 with
    | none => rfl
    | some fault =>
      obtain ⟨i, rfl⟩ := runSteps_fault (by simpa [sources] using hvalid) hsources (by simp) htotal hfault
      exact absurd hfault (hdivides i)
  obtain ⟨all, hall, hget⟩ := (runSteps_spec sources #[old] #[] hne).1 hnone 0 #[] Nat.one_pos
    ⟨rfl, fun k => by simp [lane]⟩
  have hsize : (runSteps sources #[old] #[] steps).1.size = 1 := size_runSteps ..
  obtain ⟨y, hy⟩ := Array.size_eq_one_iff.mp hsize
  rw [hlane] at hall
  rw [hy] at hget
  exact ⟨all, y, hall, hget.symm, Prod.ext hy hnone⟩

theorem unary_isSome {op : UnaryOp} (h : (Elementwise.unary op).floatOnly = true → t.isFloat = true) (x : t.Lane) :
    (Arithmetic.unary op x).isSome = true := by
  cases t with
  | uint8 | uint32 | int32 | int64 =>
    cases op with
    | reciprocal => exact nomatch h rfl
    | _ => rfl
  | float16 | bfloat16 | float32 | float64 => rfl

end Kernel

end LazyTensor
