import LazyTensor.Proofs.Host.MatMul

/-!
# Execution computes values

`HostM.execute` takes live buffers to a buffer with the value of the operation, as every operation does that
accepts the shapes of its operands. An input that is given away may hold the result afterwards; if a buffer
stands more than once among the inputs, only its first place may give it away.
-/

namespace LazyTensor

open List Option

variable {dtype : DType}

namespace Program

theorem single_valid (e : Elementwise) (dtype : DType) : (single (.elementwise e) dtype).Valid where
  steps_ne_nil := cons_ne_nil _ _
  numInputs_nonneg := Int.natCast_nonneg _
  numInputs_le := by
    cases e with
    | unary _ => exact (by decide : (1 : Int) ≤ maxInputs)
    | binary _ => exact (by decide : (2 : Int) ≤ maxInputs)
    | fusedMulAdd => exact (by decide : (3 : Int) ≤ maxInputs)
  steps i s hs := by
    obtain ⟨hi, rfl⟩ : i = 0 ∧ s = _ := by
      cases i with
      | zero => exact ⟨rfl, (Option.some.inj hs).symm⟩
      | succ i => cases hs
    refine ⟨rfl, by simp, fun o ho => ?_⟩
    obtain ⟨j, hj, rfl⟩ := List.mem_map.mp ho
    have hlt := mem_range.mp hj
    exact ⟨Int.natCast_nonneg j, Int.ofNat_lt.mpr hlt⟩
  inputs_used i hi := by
    have hlt : i < (OpKind.elementwise e).arity := hi
    simp only [usesInput, single, any_cons, any_nil, Bool.or_false, List.any_eq_true]
    exact ⟨.input i, List.mem_map.mpr ⟨i, mem_range.mpr hlt, rfl⟩, by simp⟩

theorem single_defined {e : Elementwise} (h : e.DefinedFor dtype) : (single (.elementwise e) dtype).Defined := by
  intro s hs
  rw [mem_singleton.mp hs]
  exact ⟨e, rfl, h⟩

end Program

namespace HostM

open HostState

variable {s : HostState} {op : Operation} {ids : List Nat} {values : List Value} {output : Shape} {owned : List Bool}

/-- A buffer is only given away at the first place where it stands. -/
def FirstOnly (ids : List Nat) (owned : List Bool) : Prop :=
  ∀ i id : Nat, owned.getD i false = true → ids[i]? = some id → ∀ j : Nat, j < i → ids[j]? ≠ some id

/-- An operation makes its value, or stops for a cause that it has. -/
theorem ran_runOperation (hs : s.Sound) (hin : Holds s ids values)
    (haccepts : op.Accepts (values.map (·.shape)) output) (hvalid : output.Valid)
    (hvalids : ∀ v ∈ values, v.shape.Valid) (hown : FirstOnly ids owned) :
    Ran s (given ids owned) output (Causes op values output) (Right op values output)
      (exec (runOperation op ids owned output) s) := by
  obtain ⟨t, ht⟩ := isSome_iff_exists.mp hvalid.supported
  have hlength := hin.length_eq
  generalize hshapes : values.map (·.shape) = shapes at haccepts
  cases haccepts with
  | fill x | arange start step _ hrank => exact (ran_table hs ht fun _ => rfl).mono nofun
  | elementwise e _ hdefined =>
    obtain ⟨hcount, hsame⟩ := eq_replicate_iff.mp hshapes
    rw [length_map, ← hlength] at hcount
    have hshape : ∀ v ∈ values, v.shape = output := fun v hv => hsame _ (List.mem_map_of_mem hv)
    exact ran_fused hs hin (Program.single_valid e _) (Program.single_defined hdefined) rfl
      (congrArg Nat.cast hcount.symm) hshape ht rfl (fun _ => rfl) owned
  | fused p count _ hdtype hp hdefined hnumInputs _ =>
    obtain ⟨hcount, hsame⟩ := eq_replicate_iff.mp hshapes
    rw [length_map, ← hlength] at hcount
    have hshape : ∀ v ∈ values, v.shape = output := fun v hv => hsame _ (List.mem_map_of_mem hv)
    exact ran_fused hs hin (Program.validate_eq_ok_iff.mp hp) hdefined hdtype (by rw [hnumInputs, hcount])
      hshape ht rfl (fun _ => rfl) owned
  | matMul alpha beta l r _ hproduct =>
    obtain ⟨lhsId, ids, lv, values, rfl, rfl, hlhs, rfl, hin, hshapes⟩ := hin.of_shapes_cons hshapes
    obtain ⟨rhsId, ids, rv, values, rfl, rfl, hrhs, rfl, hin, hshapes⟩ := hin.of_shapes_cons hshapes
    obtain ⟨rfl, rfl⟩ := hin.of_shapes_nil hshapes
    exact (ran_matMul hs ht (hvalids lv (by simp)) (hvalids rv (by simp)) hproduct
      (.cons hlhs (.cons hrhs .nil)) alpha beta owned).mono nofun
  | matMulBias alpha beta l r _ hproduct =>
    obtain ⟨lhsId, ids, lv, values, rfl, rfl, hlhs, rfl, hin, hshapes⟩ := hin.of_shapes_cons hshapes
    obtain ⟨rhsId, ids, rv, values, rfl, rfl, hrhs, rfl, hin, hshapes⟩ := hin.of_shapes_cons hshapes
    obtain ⟨biasId, ids, bias, values, rfl, rfl, hbias, hshape, hin, hshapes⟩ := hin.of_shapes_cons hshapes
    obtain ⟨rfl, rfl⟩ := hin.of_shapes_nil hshapes
    -- a bias that is given away is no operand, as it stands last
    have happart : owned.getD 2 false = true → lhsId ≠ biasId ∧ rhsId ≠ biasId := by
      intro howned
      have hfirst := hown 2 biasId howned rfl
      exact ⟨fun h => hfirst 0 (by decide) (congrArg some h), fun h => hfirst 1 (by decide) (congrArg some h)⟩
    exact ran_matMul_bias hs ht (hvalids lv (by simp)) (hvalids rv (by simp)) hproduct hshape
      (.cons hlhs (.cons hrhs (.cons hbias .nil))) alpha beta happart
  | transpose permutation x _ hshape =>
    obtain ⟨id, ids, v, values, rfl, rfl, hv, rfl, hin, hshapes⟩ := hin.of_shapes_cons hshapes
    obtain ⟨rfl, rfl⟩ := hin.of_shapes_nil hshapes
    have hexec : exec (runOperation (.transpose permutation) [id] owned output) s =
        exec (transpose permutation id output) s := exec_bind_ok (exec_input rfl s)
    exact (ran_transpose hs ht hv hshape hvalid.positive).mono nofun
  | cast x _ hdims hdtype =>
    obtain ⟨id, ids, v, values, rfl, rfl, hv, rfl, hin, hshapes⟩ := hin.of_shapes_cons hshapes
    obtain ⟨rfl, rfl⟩ := hin.of_shapes_nil hshapes
    have hexec : exec (runOperation (.cast v.shape.dtype) [id] owned output) s = exec (cast id output) s :=
      exec_bind_ok (exec_input rfl s)
    exact (ran_cast hs ht hv (hvalids v (by simp)).supported hdims hdtype v.shape.dtype).mono nofun

/-! ## Checks -/

theorem mem_dtypes_of_supported (h : dtype.isSupported = true) : dtype ∈ Capabilities.host.dtypes := by
  obtain ⟨t, ht⟩ := isSome_iff_exists.mp h
  have hall : t ∈ ElementType.all := by cases t <;> decide
  rw [DType.eq_dtype ht]
  exact List.mem_map_of_mem hall

theorem elementwise_mem_operations (e : Elementwise) : OpKind.elementwise e ∈ Capabilities.host.operations := by
  cases e with
  | unary op | binary op => cases op <;> decide
  | fusedMulAdd => decide

theorem kind_mem_operations {shapes : List Shape} (haccepts : op.Accepts shapes output) :
    op.kind ∈ Capabilities.host.operations := by
  cases haccepts with
  | elementwise e => exact elementwise_mem_operations e
  | _ => exact of_decide_eq_true rfl

private theorem check_eq_ok {kind : OpKind} (hkind : kind ∈ Capabilities.host.operations)
    (hdtype : dtype.isSupported = true) : Capabilities.host.check Host.name kind dtype = .ok () := by
  rw [Capabilities.check, if_neg (fun h => h hkind), if_neg (fun h => h (mem_dtypes_of_supported hdtype))]
  rfl

theorem checkOperation_of_mem (hkind : op.kind ∈ Capabilities.host.operations)
    (hsupported : output.dtype.isSupported = true)
    (hsource : ∀ source, op = .cast source → source.isSupported = true) :
    Capabilities.host.checkOperation Host.name op output.dtype = .ok () := by
  unfold Capabilities.checkOperation
  rw [check_eq_ok hkind hsupported]
  cases op with
  | cast source =>
    have hcast : OpKind.cast ∈ Capabilities.host.operations := by decide
    exact check_eq_ok hcast (hsource source rfl)
  | _ => rfl

theorem checkOperation_eq_ok {shapes : List Shape} (haccepts : op.Accepts shapes output)
    (hvalid : output.Valid) (hvalids : ∀ shape ∈ shapes, shape.Valid) :
    Capabilities.host.checkOperation Host.name op output.dtype = .ok () := by
  refine checkOperation_of_mem (kind_mem_operations haccepts) hvalid.supported fun source hop => ?_
  subst hop
  cases haccepts with
  | cast x => exact (hvalids x (mem_singleton.mpr rfl)).supported

theorem liveInputs_eq_ok (hin : Holds s ids values) (op : Operation) (i : Nat) :
    liveInputs op s.heap i (ids.map .host) = .ok ids := by
  induction hin generalizing i with
  | nil => rfl
  | cons hlive _ ih =>
    rw [map_cons, liveInputs, hlive.live_eq]
    rw [ih]
    rfl

theorem exec_execute_finalized (hfinalized : s.host.finalized = true) (op : Operation) (inputs : List BufferRef)
    (owned : List Bool) (output : Shape) : exec (execute op inputs owned output) s = (.error .finalized, s) := by
  rw [execute, exec_bind_ok (exec_get s), if_pos hfinalized]
  rfl

theorem exec_execute_unsupported (hfinalized : s.host.finalized = false) {e : Capabilities.Error}
    (hcheck : Capabilities.host.checkOperation Host.name op output.dtype = .error e) (inputs : List BufferRef)
    (owned : List Bool) : exec (execute op inputs owned output) s = (.error (.unsupported e), s) := by
  have hfinalized' : ¬ s.host.finalized = true := by rw [hfinalized]; exact Bool.false_ne_true
  rw [execute, exec_bind_ok (exec_get s), if_neg hfinalized', hcheck]
  rfl

theorem exec_execute_checked (hfinalized : s.host.finalized = false)
    (hcheck : Capabilities.host.checkOperation Host.name op output.dtype = .ok ()) (inputs : List BufferRef)
    (owned : List Bool) :
    exec (execute op inputs owned output) s =
      exec ((liftM (liveInputs op s.heap 0 inputs) : HostM HostError (List BufferId)) >>= fun ids =>
        ExceptT.adapt (.stopped op output) (runOperation op ids
          (if owned.length = inputs.length then owned else inputs.map fun _ => false) output)) s := by
  have hfinalized' : ¬ s.host.finalized = true := by rw [hfinalized]; exact Bool.false_ne_true
  rw [execute, exec_bind_ok (exec_get s), if_neg hfinalized', hcheck]

theorem exec_execute (hfinalized : s.host.finalized = false) (hin : Holds s ids values)
    (hcheck : Capabilities.host.checkOperation Host.name op output.dtype = .ok ()) (owned : List Bool) :
    let r := exec (runOperation op ids (if owned.length = ids.length then owned else ids.map fun _ => false) output) s
    exec (execute op (ids.map .host) owned output) s = (r.1.mapError (.stopped op output), r.2) := by
  rw [exec_execute_checked hfinalized hcheck, liveInputs_eq_ok hin, length_map, List.map_map]
  rfl

theorem live_of_ref {ref : BufferRef} {id : Nat} {b : HostBuffer} (h : s.heap.live ref = .ok (id, b)) :
    s.Live id b := by
  cases ref with
  | host j => exact (live_eq_ok h).2
  | _ => cases h

theorem liveInputs_cases (op : Operation) (s : HostState) (i : Nat) (refs : List BufferRef) :
    (∃ j cause, liveInputs op s.heap i refs = .error (.input op j cause)) ∨
    ∃ ids : List Nat, liveInputs op s.heap i refs = .ok ids ∧ refs = ids.map .host ∧ ∀ id ∈ ids, ∃ b, s.Live id b := by
  induction refs generalizing i with
  | nil => exact .inr ⟨[], rfl, rfl, nofun⟩
  | cons ref refs ih =>
    rw [liveInputs]
    cases hlive : s.heap.live ref with
    | error cause => exact .inl ⟨i, cause, rfl⟩
    | ok found =>
      obtain ⟨id, b⟩ := found
      rcases ih (i + 1) with ⟨j, cause, hrest⟩ | ⟨ids, hrest, rfl, hall⟩
      · exact .inl ⟨j, cause, by rw [hrest]; rfl⟩
      · cases ref with
        | host j =>
          obtain ⟨rfl, hb⟩ := live_eq_ok hlive
          exact .inr ⟨j :: ids, by rw [hrest]; rfl, rfl, forall_mem_cons.mpr ⟨⟨b, hb⟩, hall⟩⟩
        | _ => cases hlive

/-- What an execution comes to: it is rejected before the operation is run, or the inputs are live and the operation is
run on them. Only the run looks at the division of work. -/
inductive Executed (op : Operation) (inputs : List BufferRef) (owned : List Bool) (output : Shape) (s : HostState) :
    Prop where
  | rejected (e : HostError) (cause : ∀ op output stop, e ≠ .stopped op output stop)
    (exec_eq : ∀ q, exec (execute op inputs owned output) (s.dividedBy q) = (.error e, s.dividedBy q))
  | runs (ids : List Nat) (inputs_eq : inputs = ids.map .host) (live : ∀ id ∈ ids, ∃ b, s.Live id b)
    (exec_eq : ∀ q, exec (execute op inputs owned output) (s.dividedBy q) =
      exec (ExceptT.adapt (.stopped op output) (runOperation op ids
        (if owned.length = inputs.length then owned else inputs.map fun _ => false) output)) (s.dividedBy q))

theorem execute_cases (op : Operation) (inputs : List BufferRef) (owned : List Bool) (output : Shape) (s : HostState) :
    Executed op inputs owned output s := by
  cases hfinalized : s.host.finalized with
  | true =>
    exact .rejected .finalized (fun _ _ _ => nofun) fun q => exec_execute_finalized (s := s.dividedBy q) hfinalized op inputs owned output
  | false =>
    cases hcheck : Capabilities.host.checkOperation Host.name op output.dtype with
    | error e =>
      exact .rejected (.unsupported e) (fun _ _ _ => nofun) fun q =>
        exec_execute_unsupported (s := s.dividedBy q) hfinalized hcheck inputs owned
    | ok _ =>
      have hchecked (q : Partition) := exec_execute_checked (s := s.dividedBy q) hfinalized hcheck inputs owned
      rcases liveInputs_cases op s 0 inputs with ⟨j, cause, hids⟩ | ⟨ids, hids, hinputs, hlive⟩
      · refine .rejected (.input op j cause) (fun _ _ _ => nofun) fun q => ?_
        rw [hchecked, heap_dividedBy, hids]
        rfl
      · refine .runs ids hinputs hlive fun q => ?_
        rw [hchecked, heap_dividedBy, hids]
        rfl

theorem ran_execute (hs : s.Sound) (hfinalized : s.host.finalized = false) (hin : Holds s ids values)
    (haccepts : op.Accepts (values.map (·.shape)) output) (hvalid : output.Valid)
    (hvalids : ∀ v ∈ values, v.shape.Valid) (hown : FirstOnly ids owned) (hlength : owned.length = ids.length) :
    ∃ r, Ran s (given ids owned) output (Causes op values output) (Right op values output) r ∧
      exec (execute op (ids.map .host) owned output) s = (r.1.mapError (.stopped op output), r.2) := by
  refine ⟨_, ran_runOperation hs hin haccepts hvalid hvalids hown, ?_⟩
  have hcheck := checkOperation_eq_ok haccepts hvalid fun shape hshape => by
    obtain ⟨v, hv, rfl⟩ := List.mem_map.mp hshape
    exact hvalids v hv
  rw [exec_execute hfinalized hin hcheck, if_pos hlength]

/-! ## Programs -/

section Programs

variable {p : Program}

theorem runOperation_eq_fused (hop : op.program? output.dtype = some p) :
    runOperation op ids owned output = fused (some p) ids owned output := by
  cases op with
  | elementwise e =>
    obtain rfl := Option.some.inj hop
    rfl
  | fused q =>
    obtain rfl : q = some p := hop
    rfl
  | _ => cases hop

theorem checkOperation_of_program? (hop : op.program? output.dtype = some p)
    (hsupported : output.dtype.isSupported = true) :
    Capabilities.host.checkOperation Host.name op output.dtype = .ok () := by
  have hkind : op.kind ∈ Capabilities.host.operations := by
    cases op with
    | elementwise e => exact elementwise_mem_operations e
    | fused q => exact of_decide_eq_true rfl
    | _ => cases hop
  refine checkOperation_of_mem hkind hsupported fun source hcast => ?_
  subst hcast
  cases hop

theorem given_eq_nil (h : ∀ own ∈ owned, own = false) : given ids owned = [] := by
  rw [given, filterMap_eq_nil_iff]
  rintro ⟨id, own⟩ hmem
  simp [h own (of_mem_zip hmem).2]

/-- The execution of a program on live buffers of its shape, whichever of them are given away. -/
theorem ran_execute_program (hs : s.Sound) (hfinalized : s.host.finalized = false) (hin : Holds s ids values)
    (hop : op.program? output.dtype = some p) (hp : p.Valid) (hdtype : p.dtype = output.dtype)
    (hcount : p.numInputs = ids.length) (hshape : ∀ v ∈ values, v.shape = output) {t : ElementType}
    (ht : output.dtype.element? = some t) (owned : List Bool) :
    ∃ gave r, Ran s gave output (ProgramCauses op p values output) (Right op values output) r ∧
      exec (execute op (ids.map .host) owned output) s = (r.1.mapError (.stopped op output), r.2) ∧
      ((∀ own ∈ owned, own = false) → gave = []) := by
  have hsupported : output.dtype.isSupported = true := by
    rw [DType.isSupported, ht]
    rfl
  have hran := ran_program hs hin hp hdtype hcount hshape ht hop
    (fun n => Operation.elements?_of_program? hop n) (if owned.length = ids.length then owned else ids.map fun _ => false)
  rw [← runOperation_eq_fused hop] at hran
  refine ⟨_, _, hran, exec_execute hfinalized hin (checkOperation_of_program? hop hsupported) owned, fun hown => ?_⟩
  apply given_eq_nil
  split
  · exact hown
  · simp

end Programs

end HostM

end LazyTensor
