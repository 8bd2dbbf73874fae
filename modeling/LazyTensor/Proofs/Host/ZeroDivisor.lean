import LazyTensor.Proofs.Host.Allocation
import LazyTensor.Proofs.Host.Leak
import LazyTensor.Proofs.Host.Stepwise
import LazyTensor.Proofs.Kernel.ZeroDivisor
import LazyTensor.Proofs.Workers.Division

/-!
# Executions that divide by zero

An execution that divides an integer by zero fails with a number. This is the position of the first zero divisor in
the range of the worker that failed first. It is the index of an element of the output if that range starts with the
first element, as it does if there is one range only.
-/

namespace LazyTensor

namespace HostM

/-- The number in the error, if an execution divided by zero. -/
def zeroDivisor? : Except HostError BufferId → Option Nat
  | .error (.stopped _ _ (.divisionByZero position)) => some position
  | _ => none

theorem message_divisionByZero (op : Operation) (output : Shape) (position : Nat) :
    Failure.message (HostError.stopped op output (.divisionByZero position)) =
      s!"integer division by zero at element {position}: kernel execution failed" := by
  have hcause : ": " ++ FailureKind.execution.cause = ": kernel execution failed" := rfl
  simp only [Failure.message, Stop.message, context, String.append_assoc]
  rfl

open HostState

variable {s s' s'' : HostState} {q : Partition} {output : Shape} {t : ElementType} {p : Program} {ids : List Nat}
  {values : List Value} {data : List (Array t.Elem)} {owned : List Bool} {position : Nat}

theorem exists_exec_recycle {ε : Type} (id : BufferId) (s : HostState) :
    ∃ s', exec (recycle id : HostM ε Unit) s = (.ok (), s') := by
  rw [recycle, exec_bind_ok (exec_get s)]
  cases s.heap.get? id with
  | none => exact ⟨_, rfl⟩
  | some b => exact ⟨_, rfl⟩

theorem ofFault_eq_divisionByZero {fault : Fault} (h : ofFault fault = .divisionByZero position) :
    fault = .divisionByZero position := by
  cases fault with
  | divisionByZero i =>
    cases h
    rfl
  | outOfBounds => cases h
  | elementType => cases h

theorem runInto_divisionByZero {out : Nat} {reused : Option BufferId} {old : Array t.Elem}
    (hin : Holds s ids (data.map (Value.ofElements output))) (ht : output.dtype.element? = some t)
    (hlive : s'.Live out ⟨output, .ofElements t old, false⟩) (hown : ∀ b, s.Live out b → b.flat = .ofElements t old)
    (h : exec (runInto p (ids.zip ((data.map (Value.ofElements output)).map (·.buffer))) reused output out)
      (s'.dividedBy q) = (.error (.divisionByZero position), s'')) :
    ∃ sources : List (Kernel.Source t.Elem), sources.map (·.data old) = data ∧
      (Kernel.inPlace (q.workers.ranges output.size q.minParallel) (Kernel.runProgram t p sources.toArray) old).2 =
        some (.divisionByZero position) := by
  obtain ⟨sources, hexec, hsources⟩ := exec_sources hin (mapM_as?_ofElements output data) hown (s'.dividedBy q)
  refine ⟨sources, hsources, ?_⟩
  rw [runInto, exec_bind_ok (exec_elementType ht _), exec_bind_ok hexec, exec_bind_ok (exec_get _),
    exec_bind_ok (exec_buffer_dividedBy hlive q), exec_bind_ok (exec_elements t rfl _)] at h
  have hranges : (s'.dividedBy q).host.ranges output.size = q.workers.ranges output.size q.minParallel := rfl
  rw [hranges] at h
  rcases hrun : Kernel.inPlace (q.workers.ranges output.size q.minParallel)
    (Kernel.runProgram t p sources.toArray) old with ⟨result, fault⟩
  rw [hrun] at h
  rw [exec_bind_ok (exec_write_dividedBy hlive _ q)] at h
  cases fault with
  | none => cases h
  | some fault =>
    -- whether or not the buffer is given back, the fault is what is raised
    have hraised : ofFault fault = .divisionByZero position := by
      cases reused with
      | some id => exact Except.error.inj (congrArg Prod.fst h)
      | none =>
        obtain ⟨s₁, hrecycle⟩ := exists_exec_recycle (ε := Stop) out
          ((s'.put out ⟨output, .ofElements t result, false⟩).dividedBy q)
        simp only [Option.isNone_none, if_true] at h
        rw [exec_bind_ok hrecycle] at h
        exact Except.error.inj (congrArg Prod.fst h)
    rw [ofFault_eq_divisionByZero hraised]

theorem shape_of_mem_ofElements {v : Value} (hv : v ∈ data.map (Value.ofElements output)) : v.shape = output := by
  obtain ⟨x, -, rfl⟩ := List.mem_map.mp hv
  rfl

theorem size_of_holds (hs : s.Sound) (hin : Holds s ids (data.map (Value.ofElements output)))
    (ht : output.dtype.element? = some t) : ∀ x ∈ data, (x.size : Int) = output.size := by
  obtain ⟨data', hdata, -, hsizes⟩ := exists_data ht (fun _ => shape_of_mem_ofElements) (hin.sound hs)
  rw [mapM_as?_ofElements] at hdata
  obtain rfl := Option.some.inj hdata
  exact hsizes

theorem exists_elements_of_shape (hs : s.Sound) (hin : Holds s ids values) (ht : output.dtype.element? = some t)
    (hshape : ∀ v ∈ values, v.shape = output) :
    ∃ data : List (Array t.Elem), values = data.map (Value.ofElements output) := by
  induction hin with
  | nil => exact ⟨[], rfl⟩
  | @cons id ids v values hlive _ ih =>
    obtain ⟨data, rfl⟩ := ih fun w hw => hshape w (.tail _ hw)
    obtain ⟨shape, flat⟩ := v
    obtain rfl : shape = output := hshape _ (.head _)
    obtain ⟨x, hx, -⟩ := hlive.elements hs ht
    obtain rfl : flat = .ofElements t x := hx
    exact ⟨x :: data, rfl⟩

theorem exists_stopsIn {out : Nat} {reused : Option BufferId} {flat : Flat} (hs : s.Sound)
    (hin : Holds s ids (data.map (Value.ofElements output))) (ht : output.dtype.element? = some t) (hp : p.Valid)
    (hcount : (ids.length : Int) = p.numInputs) (hs' : s'.Sound) (hlive : s'.Live out ⟨output, flat, false⟩)
    (hown : ∀ b, s.Live out b → b.flat = flat)
    (h : exec (runInto p (ids.zip ((data.map (Value.ofElements output)).map (·.buffer))) reused output out)
      (s'.dividedBy q) = (.error (.divisionByZero position), s'')) :
    ∃ r, Kernel.StopsIn t p data.toArray (q.workers.ranges output.size q.minParallel) r position := by
  obtain ⟨old, rfl, hold, -⟩ : ∃ old : Array t.Elem, flat = .ofElements t old ∧ (old.size : Int) = output.size ∧ _ :=
    (hs'.buffers out _ hlive.1).exists_elements ht
  obtain ⟨sources, rfl, hfault⟩ := runInto_divisionByZero hin ht hlive hown h
  have hsizes := size_of_holds hs hin ht
  have hlength : ids.length = sources.length := by simpa using hin.length_eq
  have hstops := Kernel.inPlace_divisionByZero (covers_ranges (s'.dividedBy q).host hold) hp
    (by rw [List.size_toArray]; omega) (fun x hx => ?_) hfault
  · rwa [List.map_toArray] at hstops
  · have hx' := hsizes (x.data old) (List.mem_map_of_mem (List.mem_toArray.mp hx))
    omega

/-- A kernel that stops at a zero divisor stops in one of its ranges. -/
theorem runKernel_divisionByZero (hs : s.Sound) (hin : Holds s ids (data.map (Value.ofElements output)))
    (ht : output.dtype.element? = some t) (hp : p.Valid) (hcount : (ids.length : Int) = p.numInputs) {l : Layout}
    (hlayout : Layout.make output.dtype output.size = .ok l)
    (h : exec (runKernel p (ids.zip ((data.map (Value.ofElements output)).map (·.buffer))) owned output)
      (s.dividedBy q) = (.error (.divisionByZero position), s'')) :
    ∃ r, Kernel.StopsIn t p data.toArray (q.workers.ranges output.size q.minParallel) r position := by
  rw [runKernel] at h
  cases hreused : reusable? (ids.zip ((data.map (Value.ofElements output)).map (·.buffer))) owned output with
  | some id =>
    -- the output is one of the inputs, and holds what this one holds
    rw [hreused] at h
    obtain ⟨-, flat, hlive⟩ := reusable?_eq_some hin hreused
    refine exists_stopsIn hs hin ht hp hcount hs hlive (fun b hb => ?_) h
    obtain rfl := Option.some.inj (hb.1.symm.trans hlive.1)
    rfl
  | none =>
    rw [hreused] at h
    rcases exec_newBuffer_dividedBy hs hlayout q with ⟨cause, -, hexec⟩ | ⟨out, s₁, flat, hexec, hmade⟩
    · simp only [exec_bind_error hexec] at h
      cases h
    · -- a new buffer is none of the inputs
      simp only [exec_bind_ok hexec] at h
      exact exists_stopsIn hs hin ht hp hcount hmade.sound hmade.live (fun b hb => absurd rfl (hmade.fresh hb)) h

/-- A program that divides by zero is valid, and its inputs have the shape of the output: it stops in one of the
ranges. -/
theorem fused_divisionByZero (hs : s.Sound) (hin : Holds s ids values)
    (h : exec (fused (some p) ids owned output) (s.dividedBy q) = (.error (.divisionByZero position), s'')) :
    ∃ (t : ElementType) (data : List (Array t.Elem)) (r : Range), output.dtype.element? = some t ∧
      values = data.map (Value.ofElements output) ∧
      Kernel.StopsIn t p data.toArray (q.workers.ranges output.size q.minParallel) r position := by
  cases fused_cases hs hin (some p) owned output with
  | rejected e kernels _ hcause hexec =>
    rw [hexec] at h
    cases h
    exact absurd rfl (hcause position)
  | runs p' t kernels hkernels hvalid hprogram ht hlayout hcount hshape hexec =>
    obtain rfl := Option.some.inj hprogram
    obtain ⟨l, hlayout⟩ := hlayout
    obtain ⟨data, rfl⟩ := exists_elements_of_shape hs hin ht hshape
    rw [hexec] at h
    obtain ⟨r, hstops⟩ := runKernel_divisionByZero (hs.withKernels hkernels)
      (hin.frame (frame_withKernels s kernels) fun _ _ => List.not_mem_nil) ht hvalid hcount hlayout h
    exact ⟨t, data, r, ht, rfl, hstops⟩

/-! ## Executions -/

theorem execute_divisionByZero {op : Operation} {inputs : List BufferRef} (hop : op.program? output.dtype = some p)
    (h : zeroDivisor? (exec (execute op inputs owned output) (s.dividedBy q)).1 = some position) :
    (exec (execute op inputs owned output) (s.dividedBy q)).1 = .error (.stopped op output (.divisionByZero position)) ∧
    ∃ (ids : List Nat) (owned' : List Bool) (s' : HostState), inputs = ids.map .host ∧ (∀ id ∈ ids, ∃ b, s.Live id b) ∧
      exec (fused (some p) ids owned' output) (s.dividedBy q) = (.error (.divisionByZero position), s') := by
  cases execute_cases op inputs owned output s with
  | rejected e hcause hexec =>
    rw [hexec] at h
    cases e with
    | stopped op' output' stop => exact absurd rfl (hcause op' output' stop)
    | _ => cases h
  | runs ids hinputs hlive hexec =>
    rw [hexec, exec_adapt, runOperation_eq_fused hop] at h ⊢
    rcases hrun : exec (fused (some p) ids (if owned.length = inputs.length then owned
      else inputs.map fun _ => false) output) (s.dividedBy q) with ⟨stop | out, s₁⟩
    · rw [hrun] at h
      cases stop with
      | divisionByZero i =>
        obtain rfl : i = position := Option.some.inj h
        exact ⟨rfl, ids, _, s₁, hinputs, hlive, hrun⟩
      | _ => cases h
    · rw [hrun] at h
      cases h

end HostM

namespace HostState

open HostM

/-- Whatever host was configured, whatever was called before and however the work is divided, in whatever order: the
number in the error of an elementwise operation that divides by zero is the position of the first zero divisor in some
range. The program has results in the ranges that come before. In this range the steps before the division have results,
and the divisors before the position, counted from the start of the range, are not zero. So the number is the index of
an element with a zero divisor if the range starts with the first element, as a single range does. -/
theorem zeroDivisor_in_range (configuration : String) (host : Host) (hhost : Host.ofConfiguration configuration = .ok host)
    (calls : List HostCall) (q : Partition) (op : Operation) (p : Program) (inputs : List BufferRef) (owned : List Bool)
    (output : Shape) (hop : op.program? output.dtype = some p) (position : Nat)
    (h : zeroDivisor? (exec (execute op inputs owned output) ((run ⟨host, {}⟩ calls).dividedBy q)).1 = some position) :
    (exec (execute op inputs owned output) ((run ⟨host, {}⟩ calls).dividedBy q)).1 =
      .error (.stopped op output (.divisionByZero position)) ∧
    Failure.message (HostError.stopped op output (.divisionByZero position)) =
      s!"integer division by zero at element {position}: kernel execution failed" ∧
    ∃ (t : ElementType) (ids : List Nat) (data : List (Array t.Elem)) (r : Range),
      output.dtype.element? = some t ∧ inputs = ids.map .host ∧
      Holds (run ⟨host, {}⟩ calls) ids (data.map (Value.ofElements output)) ∧
      Kernel.StopsIn t p data.toArray (q.workers.ranges output.size q.minParallel) r position ∧
      (q.workers.numChunks output.size q.minParallel = 1 → r.start = 0) := by
  have hintact := intact_run calls ⟨sound_configured hhost, rfl⟩
  obtain ⟨hstopped, ids, owned', s', hrefs, hlive, hfused⟩ := execute_divisionByZero hop h
  obtain ⟨values, hin⟩ := exists_holds hlive
  obtain ⟨t, data, r, ht, rfl, hstops⟩ := fused_divisionByZero hintact.sound hin hfused
  refine ⟨hstopped, message_divisionByZero .., t, ids, data, r, ht, hrefs, hin, hstops, ?_⟩
  intro hone
  obtain ⟨before, after, hranges, -⟩ := hstops.first
  exact Workers.start_eq_zero_of_numChunks_eq_one hone (by rw [hranges]; simp)

/-- A program that divides by the difference of its inputs, on the second half of four elements and then on the first:
the third difference is zero, and it is the first of its range. -/
theorem zeroDivisor_of_difference :
    let x : Shape := ⟨.int32, [4]⟩
    let p : Program := ⟨.int32, 2, [⟨.elementwise (.binary .sub), [.input 0, .input 1]⟩,
      ⟨.elementwise (.binary .div), [.input 1, .step 0]⟩]⟩
    let calls : List HostCall := [.execute (.arange (.ofInt 1) (.ofInt 1)) [] [] x, .execute (.fill (.ofInt 3)) [] [] x]
    let q : Partition := ⟨{ parallelism := 2, processors := 1, turns := [1] }, 1⟩
    ∃ host, Host.ofConfiguration "" = .ok host ∧
      zeroDivisor? (exec (execute (.fused (some p)) [.host 0, .host 1] [] x) ((run ⟨host, {}⟩ calls).dividedBy q)).1 =
        some 0 ∧
      q.workers.ranges x.size q.minParallel = [⟨2, 4⟩, ⟨0, 2⟩] ∧
      ∃ t data r, Kernel.StopsIn t p data [⟨2, 4⟩, ⟨0, 2⟩] r 0 := by
  intro x p calls q
  let host := Host.plain
  have hhost := Host.ofConfiguration_empty
  have hstop : zeroDivisor? (exec (execute (.fused (some p)) [.host 0, .host 1] [] x)
      ((run ⟨host, {}⟩ calls).dividedBy q)).1 = some 0 := by decide +kernel
  have hranges : q.workers.ranges x.size q.minParallel = [⟨2, 4⟩, ⟨0, 2⟩] := by decide +kernel
  obtain ⟨-, -, t, ids, data, r, -, -, -, hstops, -⟩ := zeroDivisor_in_range "" host hhost calls q (.fused (some p)) p
    [.host 0, .host 1] [] x rfl 0 hstop
  rw [hranges] at hstops
  exact ⟨host, hhost, hstop, hranges, t, data.toArray, r, hstops⟩

/-- Two workers divide by `3, 2, 1, 0`: the second one fails at its second element, which is the fourth of all. The
number in the error is that of an element that can be divided by. -/
theorem zeroDivisor_of_second_worker :
    let x : Shape := ⟨.int32, [4]⟩
    let calls : List HostCall := [.execute (.arange (.ofInt 5) (.ofInt 1)) [] [] x,
      .execute (.arange (.ofInt 3) (.ofInt (-1))) [] [] x]
    ∃ host, Host.ofConfiguration "parallelism=2,minparallel=1" = .ok host ∧
      let s := run ⟨host, {}⟩ calls
      let result := (exec (execute (.elementwise (.binary .div)) [.host 0, .host 1] [] x) s).1
      zeroDivisor? result = some 1 ∧
      (s.heap.get? 1).bind (fun b => (b.flat.as? .int32).map fun data => data.toList.map IntWord.value) =
        some [3, 2, 1, 0] := by
  intro x calls
  let host := (Host.ofConfiguration "parallelism=2,minparallel=1").toOption.get (by decide +kernel)
  have hhost : Host.ofConfiguration "parallelism=2,minparallel=1" = .ok host :=
    eq_ok_of_toOption (Option.some_get _).symm
  refine ⟨host, hhost, ?_, ?_⟩
  · decide +kernel
  · decide +kernel

end HostState

end LazyTensor
