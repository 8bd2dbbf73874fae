import LazyTensor.Proofs.Host.Partition
import LazyTensor.Proofs.Shader.Launch
import LazyTensor.Proofs.Total

/-!
# Operations that the device launches and the host refuses

The parameters and the kernel of an operation check its shapes before it is launched on the device
(`Shader.checked_of_launch`). The host checks some of them as well, and others besides (`Shader.hostFits`). If those are
met too, the host refuses no argument (`HostState.execute_of_launch`).
-/

namespace LazyTensor

namespace Shader

open List

/-- What the parameters and the kernel of an operation ask of its shapes. -/
inductive Checked : Operation → List Shape → Shape → Prop where
  | fill (value : Double) (inputs : List Shape) (output : Shape) : Checked (.fill value) inputs output
  | arange (start step : Double) (inputs : List Shape) (output : Shape) : Checked (.arange start step) inputs output
  | elementwise (e : Elementwise) {inputs : List Shape} {output : Shape} (defined : e.DefinedFor output.dtype)
    (same : ∀ x ∈ inputs, x = output) : Checked (.elementwise e) inputs output
  | fused (p : Program) {inputs : List Shape} {output : Shape} (valid : p.Valid) (defined : p.Defined)
    (same : ∀ x ∈ inputs, x = output) : Checked (.fused (some p)) inputs output
  | matMul (alpha beta : Double) (l r output : Shape) : Checked (.matMul alpha beta false) [l, r] output
  | matMulBias (alpha beta : Double) (l r output : Shape) : Checked (.matMul alpha beta true) [l, r, output] output
  | transpose (permutation : List Int) (x output : Shape) : Checked (.transpose permutation) [x] output
  | cast (source : DType) {x output : Shape} (dtype : source ∈ deviceTypes) : Checked (.cast source) [x] output

variable {workgroupSize : Int} {op : Operation} {inputs : List Shape} {output : Shape} {k : Kernel}

theorem eq_of_otherShape? (h : otherShape? inputs output = none) : ∀ x ∈ inputs, x = output := by
  intro x hx
  have hsame := eq_false_of_findIdx? h x hx
  simpa using hsame

theorem defined_of_stepStmts {p : Program} {t : ScalarType} (hdtype : p.dtype ∈ deviceTypes) {i : Nat}
    {steps : List Step} {stmts : List Stmt} (h : stepStmts p t i steps = .ok stmts) :
    ∀ s ∈ steps, ∃ e : Elementwise, s.kind = .elementwise e ∧ e.DefinedFor p.dtype := by
  induction steps generalizing i stmts with
  | nil => exact fun s hs => absurd hs List.not_mem_nil
  | cons s steps ih =>
    obtain ⟨e, rest, hexpr, hrest, -⟩ := stepStmts_cons_eq_ok h
    intro u hu
    rcases List.mem_cons.mp hu with rfl | hu
    · obtain ⟨op, hop, hfloat, hsigned, -⟩ := stepExpr_eq_ok hexpr
      refine ⟨op, hop, fun hyes => ?_, fun hyes => ?_⟩
      · rw [hfloat hyes]
        rfl
      · have hne := hsigned hyes
        simp only [deviceTypes, List.mem_cons, List.not_mem_nil, or_false] at hdtype
        rcases hdtype with hdtype | hdtype | hdtype
        · rw [hdtype]
          rfl
        · rw [hdtype]
          rfl
        · exact absurd hdtype hne
    · exact ih hrest u hu

theorem defined_of_programKernel {p : Program} (h : programKernel p workgroupSize = .ok k) : p.Valid ∧ p.Defined := by
  obtain ⟨hvalid, t, stmts, ht, hstmts, -⟩ := programKernel_eq_ok h
  exact ⟨hvalid, defined_of_stepStmts (exists_scalarType_iff.mp ⟨t, scalarType_eq_ok_iff.mpr ht⟩) hstmts⟩

/-- The parameters of a product ask for two operands, and for a bias of the shape of the output. -/
theorem matMulWords_eq_ok {alpha beta : Double} {hasBias : Bool} {stride : UInt32} {words : List UInt32}
    (h : matMulWords op alpha beta hasBias stride inputs output = .ok words) :
    ∃ l r, (hasBias = false ∧ inputs = [l, r]) ∨ (hasBias = true ∧ inputs = [l, r, output]) := by
  simp only [matMulWords] at h
  split at h
  · exact ⟨_, _, .inl ⟨rfl, rfl⟩⟩
  · rename_i l r bias
    refine ⟨l, r, .inr ⟨rfl, ?_⟩⟩
    cases hsizes : MatMulSizes.ofShapes? l r with
    | none =>
      rw [hsizes] at h
      cases h
    | some d =>
      simp only [hsizes] at h
      split at h
      · rename_i hbias
        rw [hbias]
      · cases h
  · cases h

theorem exists_words {block : List UInt8} (h : launchParams op inputs output workgroupSize = .ok block) :
    ∃ words, launchWords op inputs output workgroupSize = .ok words := by
  rw [launchParams] at h
  cases hwords : launchWords op inputs output workgroupSize with
  | error e =>
    rw [hwords] at h
    cases h
  | ok words => exact ⟨words, rfl⟩

/-- What has a kernel and launch parameters has passed their checks. -/
theorem checked_of_launch {block : List UInt8} (hparams : launchParams op inputs output workgroupSize = .ok block)
    (hkernel : kernel op inputs output workgroupSize = .ok k) : Checked op inputs output := by
  obtain ⟨words, hwords⟩ := exists_words hparams
  rw [launchWords] at hwords
  split at hwords
  · cases hwords
  cases op with
  | fill value => exact .fill value inputs output
  | arange start step => exact .arange start step inputs output
  | fused p =>
    cases p with
    | none => cases hkernel
    | some p =>
      obtain ⟨hvalid, hdefined⟩ := defined_of_programKernel hkernel
      cases hother : otherShape? inputs output with
      | some other =>
        simp only [hother] at hwords
        cases hwords
      | none => exact .fused p hvalid hdefined (eq_of_otherShape? hother)
  | elementwise e =>
    obtain ⟨-, hdefined⟩ := defined_of_programKernel hkernel
    obtain ⟨e', he, hdefined⟩ := hdefined _ (mem_singleton.mpr rfl)
    obtain rfl := OpKind.elementwise.inj he
    cases hother : otherShape? inputs output with
    | some other =>
      simp only [hother] at hwords
      cases hwords
    | none => exact .elementwise e hdefined (eq_of_otherShape? hother)
  | matMul alpha beta hasBias =>
    obtain ⟨l, r, ⟨rfl, rfl⟩ | ⟨rfl, rfl⟩⟩ := matMulWords_eq_ok hwords
    · exact .matMul alpha beta l r output
    · exact .matMulBias alpha beta l r output
  | transpose permutation =>
    cases inputs with
    | nil => cases hkernel
    | cons x inputs =>
      cases inputs with
      | nil => exact .transpose permutation x output
      | cons y inputs => cases hkernel
  | cast source =>
    obtain ⟨t, ht, -⟩ := bind_eq_ok hkernel
    have hdtype := exists_scalarType_iff.mp ⟨t, ht⟩
    -- only the sizes are compared, so that nothing is known of the dimensions
    simp only at hwords
    split at hwords
    · exact .cast source hdtype
    · cases hwords
  | other kind => cases hkernel

/-- What the host asks for besides: the type of a program and the number of its inputs, the dimensions of a conversion,
and the output that a product or a transposition has. -/
def hostFits (op : Operation) (inputs : List Shape) (output : Shape) : Bool :=
  match op, inputs with
  | .fused (some p), inputs => p.dtype == output.dtype && (inputs.length : Int) == p.numInputs
  | .elementwise e, inputs => inputs.length == e.arity
  | .matMul _ _ _, l :: r :: _ => (productShape l r).toOption == some output
  | .transpose permutation, [x] => (transposeShape x permutation).toOption == some output
  | .cast _, [x] => x.dims == output.dims
  | _, _ => true

theorem Checked.supported (h : Checked op inputs output) (houtput : output.dtype.isSupported = true) :
    Capabilities.host.checkOperation Host.name op output.dtype = .ok () := by
  refine HostM.checkOperation_of_mem ?_ houtput fun source hop => ?_
  · cases h with
    | elementwise e => exact HostM.elementwise_mem_operations e
    | _ => exact of_decide_eq_true rfl
  · subst hop
    cases h with
    | cast _ hdtype =>
      simp only [deviceTypes, List.mem_cons, List.not_mem_nil, or_false] at hdtype
      rcases hdtype with rfl | rfl | rfl <;> rfl

end Shader

namespace HostM

open HostState Shader List

variable {s : HostState} {op : Operation} {ids : List Nat} {values : List Value} {x output : Shape} {e : Stop}

/-- The arguments are taken: a run only stops at a division by zero, or where memory is short. -/
def Taken (s : HostState) (r : Except Stop BufferId × HostState) : Prop :=
  ∀ e, r.1 = .error e → (∃ position, e = .divisionByZero position) ∨ s.LimitReached e

theorem taken_of_ran {gave : List Nat} {causes : Stop → Prop} {right : Flat → Prop} {r : Except Stop BufferId × HostState}
    (h : Ran s gave output causes right r) (hcauses : ∀ e, causes e → ∃ position, e = .divisionByZero position) :
    Taken s r := by
  rintro e he
  cases h with
  | error e' s' _ _ _ hcause =>
    obtain rfl := Except.error.inj he
    exact hcause.symm.imp_left (hcauses e')
  | ok out s' flat => cases he

theorem taken_tabulate (hs : s.Sound) (houtput : output.Allocatable) (value : (t : ElementType) → Nat → t.Elem) :
    Taken s (exec (tabulate output value) s) := by
  obtain ⟨t, -, ht, -⟩ := houtput.exists_layout
  exact taken_of_ran (ran_tabulate hs ht value) fun e hcause => absurd hcause houtput.not_noLayout

theorem taken_cast (hs : s.Sound) {v : Value} {id : Nat} (hv : s.Live id v.buffer) (hvalid : v.shape.Valid)
    (houtput : output.Allocatable) (hdims : v.shape.dims = output.dims) : Taken s (exec (cast id output) s) := by
  obtain ⟨t, -, ht, -⟩ := houtput.exists_layout
  by_cases hdtype : v.shape.dtype = output.dtype
  · have hshape : v.buffer.shape = output := by
      obtain ⟨⟨dtype, dims⟩, flat⟩ := v
      obtain rfl : dims = output.dims := hdims
      obtain rfl : dtype = output.dtype := hdtype
      rfl
    have hclone := ran_clone hs hv
    rw [cast, exec_bind_ok (exec_buffer hv.1), if_neg (fun h => h hdims), if_pos (congrArg Shape.dtype hshape)]
    rw [hshape] at hclone
    exact taken_of_ran hclone fun e hcause => absurd hcause houtput.not_noLayout
  · refine taken_of_ran (ran_cast hs ht hv hvalid.supported hdims hdtype v.shape.dtype) fun e hcause => ?_
    cases hcause.2 with
    | layout h => exact absurd h houtput.not_noLayout
    | bounds h => rcases h with h | h <;> cases h
    | division p hp position => cases hp

section Taken

variable (hs : s.Sound) (hin : Holds s ids values) (hvalues : ∀ v ∈ values, v.shape.Allocatable)
  (houtput : output.Allocatable) {owned : List Bool} (hfirst : FirstOnly ids owned)

include hs hin hvalues houtput hfirst

theorem taken_of_accepts (haccepts : op.Accepts (values.map (·.shape)) output) :
    Taken s (exec (runOperation op ids owned output) s) := by
  have hran := ran_runOperation hs hin haccepts houtput.valid (fun v hv => (hvalues v hv).valid) hfirst
  refine taken_of_ran hran fun e hcause => ?_
  exact (Operation.dividesByZero_of_causes haccepts houtput hvalues (hin.sound hs) hcause).2

theorem taken_runOperation (h : Checked op (values.map (·.shape)) output)
    (hfits : hostFits op (values.map (·.shape)) output = true) : Taken s (exec (runOperation op ids owned output) s) := by
  have htaken : op.Accepts (values.map (·.shape)) output → Taken s (exec (runOperation op ids owned output) s) :=
    taken_of_accepts hs hin hvalues houtput hfirst
  generalize hshapes : values.map (·.shape) = shapes at h hfits htaken
  cases h with
  | fill value | arange start step => exact taken_tabulate hs houtput _
  | elementwise e hdefined hsame =>
    rw [hostFits, beq_iff_eq] at hfits
    obtain rfl := eq_replicate_iff.mpr ⟨hfits, hsame⟩
    exact htaken (.elementwise e output hdefined)
  | fused p hvalid hdefined hsame =>
    rw [hostFits, Bool.and_eq_true, beq_iff_eq, beq_iff_eq] at hfits
    have hpos := hvalid.numInputs_pos
    rw [eq_replicate_iff.mpr ⟨rfl, hsame⟩] at htaken
    exact htaken (.fused p _ output hfits.1 (Program.validate_eq_ok_iff.mpr hvalid) hdefined hfits.2.symm (by omega))
  | matMul alpha beta l r => exact htaken (.matMul _ _ l r _ (eq_ok_of_toOption (beq_iff_eq.mp hfits)))
  | matMulBias alpha beta l r => exact htaken (.matMulBias _ _ l r _ (eq_ok_of_toOption (beq_iff_eq.mp hfits)))
  | transpose permutation x => exact htaken (.transpose permutation x _ (eq_ok_of_toOption (beq_iff_eq.mp hfits)))
  | cast source hdtype =>
    -- a conversion to the same type is no operation of a graph, but it is launched
    obtain ⟨id, ids, v, values, rfl, rfl, hv, rfl, hin, hshapes⟩ := hin.of_shapes_cons hshapes
    obtain ⟨rfl, rfl⟩ := hin.of_shapes_nil hshapes
    have hexec : exec (runOperation (.cast source) [id] owned output) s = exec (cast id output) s :=
      exec_bind_ok (exec_input rfl s)
    rw [hexec]
    exact taken_cast hs hv (hvalues v (by simp)).valid houtput (beq_iff_eq.mp hfits)

end Taken

theorem exec_execute_matMul_error (hfinalized : s.host.finalized = false) {inputs : List BufferRef} {y : Shape}
    {shapes : List Shape} (hin : s.LiveOf inputs (x :: y :: shapes)) (houtput : output.dtype.isSupported = true)
    {e : ProductDims.Error} (hd : ProductDims.ofShapes x y = .error e) (alpha beta : Double) (hasBias : Bool)
    (owned : List Bool) :
    (exec (execute (.matMul alpha beta hasBias) inputs owned output) s).1 =
      .error (.stopped (.matMul alpha beta hasBias) output (.rejected (productRejection x y e))) := by
  obtain ⟨ids, values, rfl, hholds, hshapes⟩ := hin.exists_holds
  have hcheck : Capabilities.host.checkOperation Host.name (.matMul alpha beta hasBias) output.dtype = .ok () := by
    refine checkOperation_of_mem (of_decide_eq_true rfl) houtput fun source hop => ?_
    cases hop
  have hexec := exec_execute hfinalized hholds hcheck owned
  obtain ⟨lhsId, ids, lv, values, rfl, rfl, hl, rfl, hholds, hshapes⟩ := hholds.of_shapes_cons hshapes
  obtain ⟨rhsId, ids, rv, values, rfl, rfl, hr, rfl, -, -⟩ := hholds.of_shapes_cons hshapes
  rw [hexec, runOperation, exec_matMul_error hl hr hd]
  rfl

end HostM

namespace HostState

open HostM Shader

/-- An operation with parameters and a kernel for the device, of shapes that fit in memory, only fails on the host if an
integer is divided by zero or memory is short, provided that the shapes are as the host asks besides. Matrices of which
the host finds no dimensions of a product are refused though they are launched. This holds in every state that the host
reaches. A buffer must not be given away where it stands for a second time. -/
theorem execute_of_launch (configuration : String) (host : Host) (hhost : Host.ofConfiguration configuration = .ok host)
    (calls : List HostCall) (hfinalized : (run ⟨host, {}⟩ calls).host.finalized = false) (op : Operation)
    (inputs : List BufferRef) (shapes : List Shape) (hin : (run ⟨host, {}⟩ calls).LiveOf inputs shapes)
    (owned : List Bool) (hfirst : ∀ (i : Nat) (ref : BufferRef), owned.getD i false = true → inputs[i]? = some ref →
      ∀ j : Nat, j < i → inputs[j]? ≠ some ref)
    (output : Shape) (hshapes : ∀ x ∈ output :: shapes, x.Allocatable) (workgroupSize : Int) (block : List UInt8)
    (k : Shader.Kernel) (hparams : launchParams op shapes output workgroupSize = .ok block)
    (hkernel : kernel op shapes output workgroupSize = .ok k) :
    let s := run ⟨host, {}⟩ calls
    let result := (exec (execute op inputs owned output) s).1
    (hostFits op shapes output = true → ∀ e, result = .error e → ∃ cause, e = .stopped op output cause ∧
      ((∃ position, cause = .divisionByZero position) ∨ s.LimitReached cause)) ∧
    ∀ alpha beta hasBias l r rest cause, op = .matMul alpha beta hasBias → shapes = l :: r :: rest →
      ProductDims.ofShapes l r = .error cause →
      result = .error (.stopped op output (.rejected (productRejection l r cause))) := by
  intro s result
  have hintact : Intact host.account.limit s := intact_run calls ⟨sound_configured hhost, rfl⟩
  have houtput : output.Allocatable := hshapes output (.head _)
  have hchecked := checked_of_launch hparams hkernel
  constructor
  · intro hfits e he
    obtain ⟨ids, values, rfl, hholds, rfl⟩ := hin.exists_holds
    have hvalues : ∀ v ∈ values, v.shape.Allocatable :=
      fun v hv => hshapes v.shape (.tail _ (List.mem_map_of_mem hv))
    have hown := firstOnly_of_refs rfl hfirst
    rw [List.length_map, List.map_map] at hown
    have htaken := taken_runOperation hintact.sound hholds hvalues houtput hown hchecked hfits
    have hexec := exec_execute hfinalized hholds (hchecked.supported houtput.valid.supported) owned
    rw [show result = _ from congrArg Prod.fst hexec] at he
    cases hrun : (exec (runOperation op ids _ output) s).1 with
    | error cause =>
      rw [hrun] at he
      exact ⟨cause, (Except.error.inj he).symm, htaken cause hrun⟩
    | ok out =>
      rw [hrun] at he
      cases he
  · rintro alpha beta hasBias l r rest cause rfl rfl hd
    exact exec_execute_matMul_error hfinalized hin houtput.valid.supported hd alpha beta hasBias owned

/-- A division that passes all checks: it fails, and only for the zeros or for want of memory. -/
theorem execute_of_launch_divided :
    let x : Shape := ⟨.int32, [2, 3]⟩
    let op : Operation := .elementwise (.binary .div)
    let calls : List HostCall := [.execute (.arange (.ofInt 1) (.ofInt 1)) [] [] x, .execute (.fill (.ofInt 0)) [] [] x]
    ∃ host, Host.ofConfiguration "" = .ok host ∧
      let s := run ⟨host, {}⟩ calls
      s.LiveOf [.host 0, .host 1] [x, x] ∧ hostFits op [x, x] x = true ∧
        ∃ cause, (exec (execute op [.host 0, .host 1] [] x) s).1 = .error (.stopped op x cause) ∧
          ((∃ position, cause = .divisionByZero position) ∨ s.LimitReached cause) := by
  intro x op calls
  let host := Host.plain
  have hhost := Host.ofConfiguration_empty
  let block := (launchParams op [x, x] x 64).toOption.get (by decide +kernel)
  have hparams : launchParams op [x, x] x 64 = .ok block := eq_ok_of_toOption (Option.some_get _).symm
  let k := (kernel op [x, x] x 64).toOption.get (by decide +kernel)
  have hkernel : kernel op [x, x] x 64 = .ok k := eq_ok_of_toOption (Option.some_get _).symm
  have hin : (run ⟨host, {}⟩ calls).LiveOf [.host 0, .host 1] [x, x] := by decide +kernel
  have hfinalized : (run ⟨host, {}⟩ calls).host.finalized = false := by decide +kernel
  have hx : x.Allocatable := ⟨⟨by decide, by decide⟩, by decide⟩
  have hfails : (exec (execute op [.host 0, .host 1] [] x) (run ⟨host, {}⟩ calls)).1.isOk = false := by
    decide +kernel
  have htaken := execute_of_launch "" host hhost calls hfinalized op _ _ hin [] (by simp) x (by simpa using hx) 64
    block k hparams hkernel
  refine ⟨host, hhost, hin, rfl, ?_⟩
  cases hexec : (exec (execute op [.host 0, .host 1] [] x) (run ⟨host, {}⟩ calls)).1 with
  | error e =>
    obtain ⟨cause, rfl, hcause⟩ := htaken.1 rfl e hexec
    exact ⟨cause, rfl, hcause⟩
  | ok out =>
    rw [hexec] at hfails
    cases hfails

/-- Two matrices times one: the parameters do not compare the batches and the product has a kernel, which reads beyond
the end of the right operand. The host refuses it. -/
theorem matMul_launches_other_batches :
    let l : Shape := ⟨.int32, [2, 2, 2]⟩
    let r : Shape := ⟨.int32, [1, 2, 2]⟩
    let op : Operation := .matMul .zero .zero false
    let calls : List HostCall := [.execute (.arange (.ofInt 1) (.ofInt 1)) [] [] l,
      .execute (.arange (.ofInt 1) (.ofInt 1)) [] [] r]
    ∃ host, Host.ofConfiguration "" = .ok host ∧
      let s := run ⟨host, {}⟩ calls
      s.LiveOf [.host 0, .host 1] [l, r] ∧ (launchParams op [l, r] l 64).isOk = true ∧
        (kernel op [l, r] l 64).isOk = true ∧ (exec (execute op [.host 0, .host 1] [false, false] l) s).1 =
          .error (.stopped op l (.rejected (.productBatches l r))) := by
  intro l r op calls
  let host := Host.plain
  have hhost := Host.ofConfiguration_empty
  have hin : (run ⟨host, {}⟩ calls).LiveOf [.host 0, .host 1] [l, r] := by decide +kernel
  have hfinalized : (run ⟨host, {}⟩ calls).host.finalized = false := by decide +kernel
  exact ⟨host, hhost, hin, by decide +kernel, by decide +kernel,
    exec_execute_matMul_error hfinalized hin rfl rfl _ _ false [false, false]⟩

end HostState

end LazyTensor
