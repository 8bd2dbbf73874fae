import LazyTensor.Operation.Program

/-!
# Valid programs

`Program.validate` accepts exactly the valid programs: those with steps and at most seven inputs, where
every step is elementwise and takes inputs and results of earlier steps, and every input is taken.
-/

namespace LazyTensor

/-- The operand of step number `i` is one of the inputs or an earlier step. -/
def Operand.ValidAt (numInputs : Int) (i : Nat) : Operand → Prop
  | .input n => 0 ≤ n ∧ n < numInputs
  | .step n => 0 ≤ n ∧ n < i

/-- Step number `i` is elementwise, with as many valid operands as it takes. -/
structure Step.ValidAt (numInputs : Int) (i : Nat) (s : Step) : Prop where
  elementwise : s.kind.isElementwise = true
  arity : s.operands.length = s.kind.arity
  operands : ∀ o ∈ s.operands, o.ValidAt numInputs i

theorem OpKind.exists_elementwise {kind : OpKind} (h : kind.isElementwise = true) : ∃ e, kind = .elementwise e := by
  cases kind with
  | elementwise e => exact ⟨e, rfl⟩
  | _ => cases h

namespace Program

/-- The program can be compiled. -/
structure Valid (p : Program) : Prop where
  steps_ne_nil : p.steps ≠ []
  numInputs_nonneg : 0 ≤ p.numInputs
  numInputs_le : p.numInputs ≤ maxInputs
  steps : ∀ (i : Nat) (s : Step), p.steps[i]? = some s → s.ValidAt p.numInputs i
  inputs_used : ∀ i : Nat, i < p.numInputs.toNat → p.usesInput i = true

theorem Valid.numInputs_pos {p : Program} (h : p.Valid) : 0 < p.numInputs := by
  obtain ⟨s, steps, hs⟩ := List.exists_cons_of_ne_nil h.steps_ne_nil
  have hvalid : s.ValidAt p.numInputs 0 := h.steps 0 s (by rw [hs]; rfl)
  obtain ⟨e, he⟩ := OpKind.exists_elementwise hvalid.elementwise
  have hpos : 0 < s.operands.length := by
    rw [hvalid.arity, he]
    cases e <;> exact Nat.zero_lt_succ _
  obtain ⟨o, ho⟩ := List.exists_mem_of_length_pos hpos
  have hoperand := hvalid.operands o ho
  cases o with
  | input k | step k =>
    simp only [Operand.ValidAt] at hoperand
    omega

variable {numInputs : Int} {i : Nat}

theorem checkOperand_eq_ok_iff {o : Operand} : checkOperand numInputs i o = .ok () ↔ o.ValidAt numInputs i := by
  cases o with
  | input n | step n =>
    simp only [checkOperand, Operand.ValidAt]
    split
    · simp only [reduceCtorEq, false_iff]
      omega
    · simp only [true_iff]
      omega

private theorem forM_eq_ok_iff {ε α : Type} (f : α → Except ε Unit) (l : List α) :
    l.forM f = .ok () ↔ ∀ a ∈ l, f a = .ok () := by
  induction l with
  | nil => simp [pure, Except.pure]
  | cons a l ih =>
    show (f a >>= fun _ => l.forM f) = .ok () ↔ _
    cases h : f a with
    | error e => simp [bind, Except.bind, h]
    | ok u =>
      simp only [List.mem_cons, forall_eq_or_imp, h, true_and]
      exact ih

theorem checkStep_eq_ok_iff {s : Step} : checkStep numInputs i s = .ok () ↔ s.ValidAt numInputs i := by
  have hforM := forM_eq_ok_iff (checkOperand numInputs i) s.operands
  simp only [checkOperand_eq_ok_iff] at hforM
  simp only [checkStep]
  constructor
  · intro h
    split at h
    · cases h
    · rename_i he
      split at h
      · cases h
      · rename_i ha
        exact ⟨by simpa using he, by simpa using ha, hforM.mp h⟩
  · rintro ⟨he, ha, ho⟩
    simp only [he, ha, ne_eq]
    exact hforM.mpr ho

theorem validAt_tail {s : Step} {steps : List Step}
    (h : ∀ (j : Nat) (u : Step), (s :: steps)[j]? = some u → u.ValidAt numInputs (i + j)) :
    ∀ (j : Nat) (u : Step), steps[j]? = some u → u.ValidAt numInputs (i + 1 + j) := by
  intro j u hu
  have hnext := h (j + 1) u (by simpa using hu)
  rwa [← Nat.add_assoc, Nat.add_right_comm] at hnext

theorem checkSteps_eq_ok_iff {steps : List Step} :
    checkSteps numInputs i steps = .ok () ↔
      ∀ (j : Nat) (s : Step), steps[j]? = some s → s.ValidAt numInputs (i + j) := by
  induction steps generalizing i with
  | nil => simp [checkSteps]
  | cons s steps ih =>
    have hcons : checkSteps numInputs i (s :: steps) = .ok () ↔
        checkStep numInputs i s = .ok () ∧ checkSteps numInputs (i + 1) steps = .ok () := by
      simp only [checkSteps, bind, Except.bind]
      cases checkStep numInputs i s <;> simp
    rw [hcons, checkStep_eq_ok_iff, ih]
    constructor
    · rintro ⟨hs, hsteps⟩ j t ht
      cases j with
      | zero =>
        obtain rfl : s = t := by simpa using ht
        exact hs
      | succ j =>
        have := hsteps j t (by simpa using ht)
        rwa [Nat.add_right_comm] at this
    · intro h
      exact ⟨h 0 s rfl, validAt_tail h⟩

theorem validate_eq_ok_iff {p : Program} : p.validate = .ok () ↔ p.Valid := by
  have hsteps := @checkSteps_eq_ok_iff p.numInputs 0 p.steps
  simp only [Nat.zero_add] at hsteps
  simp only [validate, bind, Except.bind, pure, Except.pure]
  constructor
  · intro h
    split at h
    · cases h
    · rename_i hne
      split at h
      · cases h
      · rename_i hcount
        cases hc : checkSteps p.numInputs 0 p.steps with
        | error e => simp only [hc] at h; cases h
        | ok u =>
          simp only [hc] at h
          split at h
          · cases h
          · rename_i hused
            refine ⟨by simpa using hne, by omega, by omega, hsteps.mp hc, fun i hi => ?_⟩
            have := List.find?_eq_none.mp hused i (List.mem_range.mpr hi)
            simpa using this
  · rintro ⟨hne, hnonneg, hle, hs, hused⟩
    have hcount : ¬ (p.numInputs < 0 ∨ (maxInputs : Int) < p.numInputs) := by omega
    have hempty : p.steps.isEmpty = false := by simpa using hne
    have hfind : (List.range p.numInputs.toNat).find? (fun i => !p.usesInput i) = none := by
      refine List.find?_eq_none.mpr fun i hi => ?_
      simp [hused i (List.mem_range.mp hi)]
    simp only [hempty, hcount, hsteps.mpr hs, hfind, Bool.false_eq_true, ↓reduceIte]

end Program

end LazyTensor
