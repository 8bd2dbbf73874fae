import LazyTensor.Proofs.Kernel.Range

/-!
# Steps up to a fault

A kernel that works in place takes steps one after the other, up to one that is out of bounds. Over
consecutive ranges that is the same as over one range (`completed?_foldl`). If the steps write every
element of the output before they read it, what was there before does not matter
(`completed?_upTo_congr`).
-/

namespace LazyTensor.Kernel

/-! ## Runs -/

variable {count : Nat}

section UpTo

variable {σ φ : Type} (step : Nat → σ → σ × Option φ)

/-- The steps from number `i` on, up to one with a fault. -/
def upTo : (count i : Nat) → σ → σ × Option φ
  | 0, _, s => (s, none)
  | count + 1, i, s =>
    match step i s with
    | (s', none) => upTo count (i + 1) s'
    | (s', some fault) => (s', some fault)

variable {step} {P : σ → Prop} {ranges : List Range} {i : Nat} {s : σ}

theorem upTo_add_of_none {a b : Nat} {s' : σ} (h : upTo step a i s = (s', none)) :
    upTo step (a + b) i s = upTo step b (i + a) s' := by
  induction a generalizing i s with
  | zero =>
    obtain rfl : s = s' := congrArg Prod.fst h
    rw [Nat.zero_add, Nat.add_zero]
  | succ a ih =>
    rw [Nat.add_right_comm, upTo]
    rw [upTo] at h
    rcases hstep : step i s with ⟨s₁, _ | fault⟩
    · simp only [hstep] at h ⊢
      rw [ih h]
      congr 1
      omega
    · simp only [hstep] at h
      cases h

theorem upTo_add_of_fault {a b : Nat} (h : (upTo step a i s).2 ≠ none) : (upTo step (a + b) i s).2 ≠ none := by
  induction a generalizing i s with
  | zero => exact absurd rfl h
  | succ a ih =>
    rw [Nat.add_right_comm, upTo]
    rw [upTo] at h
    rcases hstep : step i s with ⟨s₁, _ | fault⟩
    · simp only [hstep] at h ⊢
      exact ih h
    · exact nofun

theorem exists_step_of_upTo (hkeep : ∀ (j : Nat) (s : σ), P s → P (step j s).1) {s' : σ} (hs : P s)
    (h : upTo step count i s = (s', none)) {j : Nat} (hi : i ≤ j) (hj : j < i + count) :
    ∃ s₁, P s₁ ∧ (step j s₁).2 = none := by
  induction count generalizing i s with
  | zero => omega
  | succ count ih =>
    have hnext := hkeep i s hs
    rw [upTo] at h
    rcases hstep : step i s with ⟨s₁, _ | fault⟩
    · by_cases hij : i = j
      · subst hij
        exact ⟨s, hs, by rw [hstep]⟩
      · rw [hstep] at hnext
        simp only [hstep] at h
        exact ih hnext h (by omega) (by omega)
    · simp only [hstep] at h
      cases h

/-- The steps of a range, with the first fault so far. -/
def rangeSteps (step : Nat → σ → σ × Option φ) : σ × Option φ → Range → σ × Option φ := fun (s, fault) r =>
  let (s, fault') := upTo step (r.stop - r.start) r.start s
  (s, fault.or fault')

theorem foldl_fault (step : Nat → σ → σ × Option φ) (ranges : List Range) (s : σ) (fault : φ) :
    (ranges.foldl (rangeSteps step) (s, some fault)).2 = some fault := by
  induction ranges generalizing s with
  | nil => rfl
  | cons r ranges ih => exact ih _

/-- Consecutive ranges do the steps of one loop over all of them. -/
theorem foldl_upTo (step : Nat → σ → σ × Option φ) {a b : Nat} (h : Consecutive a ranges b) (s : σ) :
    let run := ranges.foldl (rangeSteps step) (s, none)
    (run.2 = none → upTo step (b - a) a s = (run.1, none)) ∧
    (run.2 ≠ none → (upTo step (b - a) a s).2 ≠ none) := by
  induction h generalizing s with
  | nil a =>
    rw [Nat.sub_self]
    exact ⟨fun _ => rfl, fun h => absurd rfl h⟩
  | @cons r ranges b hlt hrest ih =>
    have hle := hrest.le
    have hcount : b - r.start = (r.stop - r.start) + (b - r.stop) := by omega
    have hstart : r.start + (r.stop - r.start) = r.stop := by omega
    have hrange : rangeSteps step (s, none) r = upTo step (r.stop - r.start) r.start s := rfl
    rw [List.foldl_cons, hrange, hcount]
    -- the first range goes through, or its fault stays to the end
    rcases hfirst : upTo step (r.stop - r.start) r.start s with ⟨s₁, _ | fault⟩
    · rw [upTo_add_of_none hfirst, hstart]
      exact ih s₁
    · have hfault : (upTo step (r.stop - r.start) r.start s).2 ≠ none := by
        rw [hfirst]
        exact nofun
      have hrest := foldl_fault step ranges s₁ fault
      refine ⟨fun h => ?_, fun _ => upTo_add_of_fault hfault⟩
      rw [hrest] at h
      cases h

theorem exists_fault_of_upTo {fault : φ} (h : (upTo step count i s).2 = some fault) :
    ∃ j s', (step j s').2 = some fault := by
  induction count generalizing i s with
  | zero => cases h
  | succ count ih =>
    rw [upTo] at h
    rcases hstep : step i s with ⟨s₁, _ | fault'⟩
    · simp only [hstep] at h
      exact ih h
    · simp only [hstep] at h
      exact ⟨i, s, by rw [hstep, h]⟩

theorem exists_fault_of_foldl {fault : φ} (h : (ranges.foldl (rangeSteps step) (s, none)).2 = some fault) :
    ∃ j s', (step j s').2 = some fault := by
  induction ranges generalizing s with
  | nil => cases h
  | cons r ranges ih =>
    have hrange : rangeSteps step (s, none) r = upTo step (r.stop - r.start) r.start s := rfl
    rw [List.foldl_cons, hrange] at h
    rcases hfirst : upTo step (r.stop - r.start) r.start s with ⟨s₁, _ | fault'⟩
    · rw [hfirst] at h
      exact ih h
    · rw [hfirst, foldl_fault] at h
      obtain rfl := Option.some.inj h
      exact exists_fault_of_upTo (by rw [hfirst])

/-- What the steps leave, if there is no fault. -/
def completed? : σ × Option φ → Option σ
  | (s, none) => some s
  | (_, some _) => none

theorem completed?_eq_none_iff {r : σ × Option φ} : completed? r = none ↔ r.2 ≠ none := by
  obtain ⟨s', _ | fault⟩ := r
  · simp [completed?]
  · simp [completed?]

theorem completed?_upTo_isSome (hs : P s)
    (hstep : ∀ (j : Nat) (s : σ), j < i + count → P s → (step j s).2 = none ∧ P (step j s).1) :
    (completed? (upTo step count i s)).isSome = true := by
  induction count generalizing i s with
  | zero => rfl
  | succ count ih =>
    obtain ⟨hnone, hkept⟩ := hstep i s (by omega) hs
    rw [upTo]
    rcases hres : step i s with ⟨s₁, fault⟩
    rw [hres] at hnone hkept
    obtain rfl : fault = none := hnone
    exact ih hkept fun j s hj => hstep j s (by omega)

theorem completed?_foldl {n : Nat} (h : Consecutive 0 ranges n) (s : σ) :
    completed? (ranges.foldl (rangeSteps step) (s, none)) = completed? (upTo step n 0 s) := by
  obtain ⟨hok, hfail⟩ := foldl_upTo step h s
  rw [Nat.sub_zero] at hok hfail
  rcases hrun : ranges.foldl (rangeSteps step) (s, none) with ⟨s', _ | fault⟩
  · rw [hrun] at hok
    rw [hok rfl]
  · rw [hrun] at hfail
    exact (completed?_eq_none_iff.mpr (hfail nofun)).symm

end UpTo

/-! ## Sizes -/

variable {β φ : Type} {step : Nat → Array β → Array β × Option φ}

theorem size_foldl {ι : Type} {f : Array β → ι → Array β} (hf : ∀ (out : Array β) (x : ι), (f out x).size = out.size)
    (l : List ι) (out : Array β) : (l.foldl f out).size = out.size := by
  induction l generalizing out with
  | nil => rfl
  | cons x l ih => rw [List.foldl_cons, ih, hf]

theorem size_upTo {β φ : Type} {step : Nat → Array β → Array β × Option φ}
    (hstep : ∀ (i : Nat) (out : Array β), (step i out).1.size = out.size) (count i : Nat) (out : Array β) :
    (upTo step count i out).1.size = out.size := by
  induction count generalizing i out with
  | zero => rfl
  | succ count ih =>
    have hsize := hstep i out
    rw [upTo]
    rcases hout : step i out with ⟨out', _ | fault⟩
    · rw [hout] at hsize
      exact (ih (i + 1) out').trans hsize
    · rwa [hout] at hsize

theorem size_foldl_rangeSteps (hstep : ∀ (i : Nat) (out : Array β), (step i out).1.size = out.size)
    (ranges : List Range) (out : Array β) (fault : Option φ) :
    (ranges.foldl (rangeSteps step) (out, fault)).1.size = out.size := by
  induction ranges generalizing out fault with
  | nil => rfl
  | cons r ranges ih =>
    have hsize := size_upTo hstep (r.stop - r.start) r.start out
    exact (ih _ _).trans hsize

/-! ## Outputs that agree -/

section AgreeOn

variable {S T : Nat → Prop} {o o' : Array β}

/-- The arrays have the same size, and the same elements at some indices. -/
structure AgreeOn (S : Nat → Prop) (o o' : Array β) : Prop where
  size_eq : o'.size = o.size
  get : ∀ i : Nat, S i → o'[i]? = o[i]?

theorem AgreeOn.mono (h : AgreeOn S o o') (hT : ∀ i : Nat, T i → S i) : AgreeOn T o o' :=
  ⟨h.size_eq, fun i hi => h.get i (hT i hi)⟩

theorem AgreeOn.eq (h : AgreeOn S o o') (hall : ∀ i : Nat, i < o.size → S i) : o' = o := by
  refine Array.ext_getElem? fun i => ?_
  by_cases hi : i < o.size
  · exact h.get i (hall i hi)
  · rw [Array.getElem?_eq_none (by rw [h.size_eq]; omega), Array.getElem?_eq_none (by omega)]

theorem AgreeOn.update (h : AgreeOn S o o') (k : Nat) (z : β) (f : β → β) :
    AgreeOn S (o.setIfInBounds k (f (o.getD k z))) (o'.setIfInBounds k (f (o'.getD k z))) where
  size_eq := by simp [h.size_eq]
  get i hi := by
    rw [Array.getElem?_setIfInBounds, Array.getElem?_setIfInBounds, h.size_eq, h.get i hi]
    by_cases hk : k = i
    · subst hk
      rw [Array.getD_eq_getD_getElem?, Array.getD_eq_getD_getElem?, h.get k hi]
    · rw [if_neg hk, if_neg hk]

theorem AgreeOn.set (h : AgreeOn S o o') (k : Nat) (x : β) :
    AgreeOn (fun i => S i ∨ i = k) (o.setIfInBounds k x) (o'.setIfInBounds k x) where
  size_eq := by simp [h.size_eq]
  get i hi := by
    rw [Array.getElem?_setIfInBounds, Array.getElem?_setIfInBounds, h.size_eq]
    by_cases hk : k = i
    · rw [if_pos hk, if_pos hk]
    · rw [if_neg hk, if_neg hk, h.get i (hi.resolve_right fun heq => hk heq.symm)]

theorem AgreeOn.foldl {ι : Type} {f : Array β → ι → Array β} (h : AgreeOn S o o') (l : List ι)
    (hf : ∀ (x : ι) (o o' : Array β), AgreeOn S o o' → AgreeOn S (f o x) (f o' x)) :
    AgreeOn S (l.foldl f o) (l.foldl f o') := by
  induction l generalizing o o' with
  | nil => exact h
  | cons x l ih => exact ih (hf x o o' h)

theorem AgreeOn.setBlock (h : AgreeOn S o o') (base n : Nat) (value : Nat → β) :
    AgreeOn (fun i => S i ∨ (base ≤ i ∧ i < base + n))
      ((List.range n).foldl (fun out j => out.setIfInBounds (base + j) (value j)) o)
      ((List.range n).foldl (fun out j => out.setIfInBounds (base + j) (value j)) o') := by
  induction n with
  | zero => exact h.mono fun i hi => hi.resolve_right (by omega)
  | succ n ih =>
    rw [List.range_succ, List.foldl_append, List.foldl_append]
    refine (ih.set (base + n) (value n)).mono fun i hi => ?_
    rcases hi with hi | hi
    · exact .inl (.inl hi)
    · by_cases hlast : i = base + n
      · exact .inr hlast
      · exact .inl (.inr (by omega))

theorem AgreeOn.upTo {W : Nat → Nat → Prop}
    (hstep : ∀ (j : Nat) (S : Nat → Prop) (o o' : Array β), AgreeOn S o o' → (step j o').2 = (step j o).2 ∧
      ((step j o).2 = none → AgreeOn (fun i => S i ∨ W j i) (step j o).1 (step j o').1)) (h : AgreeOn S o o')
    (count i : Nat) :
    (Kernel.upTo step count i o').2 = (Kernel.upTo step count i o).2 ∧
    ((Kernel.upTo step count i o).2 = none → AgreeOn (fun k => S k ∨ ∃ j, i ≤ j ∧ j < i + count ∧ W j k)
      (Kernel.upTo step count i o).1 (Kernel.upTo step count i o').1) := by
  induction count generalizing i o o' S with
  | zero =>
    refine ⟨rfl, fun _ => h.mono fun k hk => ?_⟩
    rcases hk with hk | ⟨j, hi, hj, -⟩
    · exact hk
    · omega
  | succ count ih =>
    obtain ⟨hfault, hagree⟩ := hstep i S o o' h
    rw [Kernel.upTo, Kernel.upTo]
    -- both runs stop at the same step, or agree on what it writes
    rcases hnew : step i o with ⟨o₁, _ | fault⟩
    · rcases hnew' : step i o' with ⟨o₁', fault'⟩
      rw [hnew, hnew'] at hfault hagree
      obtain rfl : fault' = none := hfault
      obtain ⟨hrest, hagree'⟩ := ih (hagree rfl) (i + 1)
      refine ⟨hrest, fun hnone => (hagree' hnone).mono fun k hk => ?_⟩
      rcases hk with hk | ⟨j, hi, hj, hW⟩
      · exact .inl (.inl hk)
      · by_cases hij : j = i
        · subst hij
          exact .inl (.inr hW)
        · exact .inr ⟨j, by omega, by omega, hW⟩
    · rcases hnew' : step i o' with ⟨o₁', fault'⟩
      rw [hnew, hnew'] at hfault
      obtain rfl : fault' = some fault := hfault
      exact ⟨rfl, nofun⟩

/-- A loop that writes every element does not depend on what was there before. -/
theorem completed?_upTo_congr {W : Nat → Nat → Prop} (hsize : ∀ (j : Nat) (o : Array β), (step j o).1.size = o.size)
    (hstep : ∀ (j : Nat) (S : Nat → Prop) (o o' : Array β), AgreeOn S o o' → (step j o').2 = (step j o).2 ∧
      ((step j o).2 = none → AgreeOn (fun i => S i ∨ W j i) (step j o).1 (step j o').1))
    (hcover : (∀ j : Nat, j < count → ∃ o₁ : Array β, o₁.size = o.size ∧ (step j o₁).2 = none) →
      ∀ i : Nat, i < o.size → ∃ j : Nat, j < count ∧ W j i) (hout : o'.size = o.size) :
    completed? (upTo step count 0 o') = completed? (upTo step count 0 o) := by
  obtain ⟨hfault, hagree⟩ := AgreeOn.upTo (S := fun _ => False) hstep ⟨hout, nofun⟩ count 0
  rcases hrun : upTo step count 0 o with ⟨data, _ | fault⟩
  · rcases hrun' : upTo step count 0 o' with ⟨data', fault'⟩
    have hdata := size_upTo hsize count 0 o
    rw [hrun] at hfault hagree hdata
    rw [hrun'] at hfault hagree
    obtain rfl : fault' = none := hfault
    have hdone : ∀ j : Nat, j < count → ∃ o₁ : Array β, o₁.size = o.size ∧ (step j o₁).2 = none := by
      intro j hj
      exact exists_step_of_upTo (fun j o₁ ho₁ => (hsize j o₁).trans ho₁) rfl hrun (Nat.zero_le j) (by omega)
    -- every element was written by a step, so nothing of the old data is left
    have heq := (hagree rfl).eq fun i hi => by
      obtain ⟨j, hj, hW⟩ := hcover hdone i (by rwa [← hdata])
      exact .inr ⟨j, Nat.zero_le j, by omega, hW⟩
    exact congrArg some heq
  · rcases hrun' : upTo step count 0 o' with ⟨data', fault'⟩
    rw [hrun, hrun'] at hfault
    obtain rfl : fault' = some fault := hfault
    rfl

end AgreeOn

end LazyTensor.Kernel
