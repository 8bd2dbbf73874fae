import LazyTensor.Proofs.Evaluation.Values
import LazyTensor.Proofs.Tensor.Nested

/-!
# Reading and finalizing a tensor

A tensor makes two kinds of requests to the backend that holds its buffer: it transfers the elements, and it gives the
buffer back. Reading transfers the elements if they are not there, and finalizing gives the buffer back if there is
one. The requests are recorded by the same steps with another access to the buffer.
-/

namespace LazyTensor

/-! ## Requests -/

/-- A request to the backend that holds a buffer. -/
inductive BufferRequest where
  | transfer (held : Held)
  | release (held : Held)
deriving DecidableEq

/-- How a tensor makes its requests. -/
structure BufferAccess (m : Type → Type) where
  transfer : Held → Layout → ExceptT HostError m Flat
  release : Held → m Unit

namespace BufferAccess

/-- The backends of a platform. -/
def platform : BufferAccess (StateM Platform) where
  transfer held destination := PlatformM.onHost held.backend (HostM.toPayload (.host held.buffer) destination)
  release held := do let _ ← (PlatformM.onHost held.backend (HostM.finalizeBuffer (.host held.buffer))).run

/-- The requests are recorded, and made. -/
def recorded {m : Type → Type} [Monad m] (access : BufferAccess m) : BufferAccess (StateT (List BufferRequest) m) where
  transfer held destination := ExceptT.mk do
    modify (· ++ [.transfer held])
    liftM (access.transfer held destination).run
  release held := do
    modify (· ++ [.release held])
    liftM (access.release held)

end BufferAccess

namespace Tensor

section

variable {m : Type → Type} [Monad m]

def readVia (access : BufferAccess m) (t : Tensor) : ExceptT TensorError m (Flat × Tensor) := do
  if let some flat := t.flat then return (flat, t)
  if !t.ok then throw (.notMaterialized t.shape)
  match t.data, t.shape.dtype.storage? with
  | some held, some type =>
    let destination : Layout := ⟨type, t.shape.size.toNat⟩
    let flat ← ExceptT.adapt (.transfer t.shape t.device) (access.transfer held destination)
    return (flat, { t with flat := some flat })
  | _, _ => throw (.notMaterialized t.shape)

def finalizeVia (access : BufferAccess m) (t : Tensor) : m Tensor := do
  if let some held := t.data then access.release held
  return { t with data := none, flat := none }

theorem readVia_platform (t : Tensor) : t.readVia .platform = t.read := rfl

theorem finalizeVia_platform (t : Tensor) : t.finalizeVia .platform = t.finalize := by
  cases t.data <;> rfl

/-- A read transfers the elements if they are not there. -/
def transfers (t : Tensor) : List BufferRequest :=
  match t.flat, t.data, t.shape.dtype.storage? with
  | none, some held, some _ => if t.shape.ok then [.transfer held] else []
  | _, _, _ => []

/-- A buffer is given back if there is one. -/
def releases (t : Tensor) : List BufferRequest := t.data.toList.map .release

variable [LawfulMonad m]

theorem run_recorded_transfer (access : BufferAccess m) (held : Held) (destination : Layout)
    (log : List BufferRequest) :
    StateT.run (access.recorded.transfer held destination).run log =
      (fun r => (r, log ++ [.transfer held])) <$> (access.transfer held destination).run := by
  simp [BufferAccess.recorded]

theorem run_readVia_recorded (access : BufferAccess m) (t : Tensor) (log : List BufferRequest) :
    StateT.run (t.readVia access.recorded).run log =
      (fun r => (r, log ++ t.transfers)) <$> (t.readVia access).run := by
  obtain ⟨shape, device, data, flat⟩ := t
  cases flat with
  | some flat => simp [readVia, transfers]
  | none =>
    cases data with
    | none => simp [readVia, transfers]
    | some held =>
      cases hstorage : shape.dtype.storage? with
      | none => simp [readVia, transfers, hstorage]
      | some type =>
        cases hok : shape.ok with
        | false => simp [readVia, ok, transfers, hstorage, hok]
        | true =>
          have htransfer := run_recorded_transfer access held ⟨type, shape.size.toNat⟩ log
          simp [readVia, ok, transfers, hstorage, hok, htransfer]

theorem run_finalizeVia_recorded (access : BufferAccess m) (t : Tensor) (log : List BufferRequest) :
    StateT.run (t.finalizeVia access.recorded) log = (fun t' => (t', log ++ t.releases)) <$> t.finalizeVia access := by
  cases hdata : t.data <;> simp [finalizeVia, releases, hdata, BufferAccess.recorded]

end

variable {t : Tensor} {p : Platform} {s : HostState} {v : Value} {buffer : Nat}

theorem exec_read_finalized (hflat : t.flat = none) (hdata : t.data = none) (p : Platform) :
    exec t.read p = (.error (.notMaterialized t.shape), p) := by
  have hok : t.ok = false := by simp [ok, hflat, hdata]
  rw [read, hflat]
  simp only [hok]
  rfl

theorem transfers_live (hs : s.Sound) (hlive : s.Live buffer v.buffer) (hshape : t.shape = v.shape)
    (hdata : t.data = some ⟨0, buffer⟩) (hflat : t.flat = none) : t.transfers = [.transfer ⟨0, buffer⟩] := by
  have hsound : v.buffer.Sound := hs.buffers buffer _ hlive.1
  have hstorage : t.shape.dtype.storage? = some v.flat.type := hshape ▸ hsound.storage?_eq
  have hok : t.shape.ok = true := hshape ▸ hsound.shape_ok
  simp [transfers, hflat, hdata, hstorage, hok]

theorem run_finalize_none (hflat : t.flat = none) (hdata : t.data = none) (p : Platform) :
    t.finalize.run p = (t, p) := by
  obtain ⟨shape, device, data, flat⟩ := t
  obtain rfl : data = none := hdata
  obtain rfl : flat = none := hflat
  rfl

theorem run_finalize_live (hs : s.Sound) (hlive : s.Live buffer v.buffer) (hruns : p.Runs s)
    (hdata : t.data = some ⟨0, buffer⟩) :
    ∃ p' s', t.finalize.run p = ({ t with data := none, flat := none }, p') ∧ p'.Runs s' ∧ s'.Sound ∧
      HostState.Frame s s' [buffer] ∧ s'.host.account = s.host.account.free v.shape.footprint := by
  obtain ⟨p', hexec, hruns', -⟩ := PlatformM.exec_onHost hruns (HostM.finalizeBuffer (.host buffer))
  obtain ⟨hsound, hframe⟩ := HostM.finalizeBuffer_frame hs buffer
  have haccount := HostM.account_finalizeBuffer hs hlive
  refine ⟨p', (exec (HostM.finalizeBuffer (.host buffer)) s).2, ?_, hruns', hsound, hframe, haccount⟩
  have hplatform : (t.finalize.run p).2 = p' := by
    rw [finalize, hdata]
    exact congrArg Prod.snd hexec
  rw [← hplatform, finalize, hdata]
  rfl

end Tensor

/-! ## What is read -/

theorem HostBuffer.Sound.size_lt_wordLimit {b : HostBuffer} (h : b.Sound) : (b.flat.size : Int) < wordLimit := by
  obtain ⟨l, hl, htype, hsize⟩ := h
  obtain ⟨shape, ⟨type, data⟩, finalized⟩ := b
  cases type with
  | inert type =>
    rw [Flat.size_inert]
    decide
  | element type =>
    rw [hsize type htype.symm, (Layout.make_eq_ok hl).2, Shape.size_eq_wrap64]
    exact wrap64_lt_wordLimit _

/-- A way to read the elements: all in order, as nested data, all or the only one of a given type. -/
inductive Reading where
  | flat
  | data
  | copy (type : ElementType)
  | scalar (type : ElementType)
deriving DecidableEq

/-- What is given to who calls a tensor. -/
inductive Answer where
  | flat (flat : Flat)
  | nested (type : StorageType) (nested : Nested type.Elem)
  | scalar (type : ElementType) (x : type.Elem)
  /-- Whether the tensor holds a value. -/
  | holds (ok : Bool)

/-- There are as many elements as the dimensions say, and there is memory for their nested form. -/
def Value.IsFull (v : Value) : Prop :=
  (∀ d ∈ v.shape.dims, 0 < d) ∧ (v.flat.size : Int) = v.shape.dims.prod ∧ Nested.Allocatable v.shape.dims

instance (v : Value) : Decidable v.IsFull := inferInstanceAs (Decidable (_ ∧ _ ∧ Nested.Allocatable v.shape.dims))

namespace Reading

/-- What is read of the elements of a tensor. -/
def view (t : Tensor) (flat : Flat) : Reading → Except TensorError Answer
  | .flat => .ok (.flat flat)
  | .data => (t.nested flat).map (.nested flat.type)
  | .copy type => (t.copyAs type flat).map .flat
  | .scalar type => (t.scalarAs type flat).map (.scalar type)

/-- The elements of a value as they are read, or the error of a type that does not match. Nested data of a value that
is not full may break off. -/
def Gives (v : Value) : Reading → Except Report Answer → Prop
  | .flat, r => r = .ok (.flat v.flat)
  | .data, r =>
    if v.IsFull then
      ∃ nested, r = .ok (.nested v.flat.type nested) ∧ nested.HasDims v.shape.dims ∧ nested.leaves = v.flat.data.toList
    else ∀ report, r = .error report → report.kind = .abort ∨ report.kind = .fault
  | .copy type, r =>
    if v.shape.dtype = type.dtype then r = .ok (.flat v.flat) else ∃ report, r = .error report ∧ report.kind = .plain
  | .scalar type, r =>
    if v.shape.dtype = type.dtype ∧ v.shape.dims = [] then
      ∃ x, v.flat = .ofElements type #[x] ∧ r = .ok (.scalar type x)
    else ∃ report, r = .error report ∧ report.kind = .plain

variable {t : Tensor} {v : Value}

theorem exists_nested (hsound : v.buffer.Sound) (hshape : t.shape = v.shape) (hfull : v.IsFull) :
    ∃ nested, t.nested v.flat = .ok nested ∧ nested.HasDims v.shape.dims ∧ nested.leaves = v.flat.data.toList := by
  obtain ⟨hpos, hsize, hroom⟩ := hfull
  rw [Tensor.nested, hshape]
  -- a scalar is a leaf, and everything else is nested along its axes
  by_cases hrank : v.shape.dims = []
  · have hscalar : v.shape.isScalar = true := by
      have hok : v.shape.ok = true := hsound.shape_ok
      simp [Shape.isScalar, Shape.rank, hrank, hok]
    have hone : v.flat.data.size = 1 := by
      rw [hrank] at hsize
      exact Int.ofNat.inj hsize
    obtain ⟨x, hx⟩ := Array.size_eq_one_iff.mp hone
    refine ⟨.leaf x, ?_, ?_, ?_⟩
    · rw [if_pos hscalar, hx]
      rfl
    · rw [hrank]
      trivial
    · rw [Nested.leaves_leaf, hx]
  · have hscalar : ¬ v.shape.isScalar = true := by
      simp [Shape.isScalar, Shape.rank, hrank]
    have hstop : 0 + v.shape.dims.prod.toNat = v.flat.data.size := by
      rw [← hsize, Nat.zero_add]
      rfl
    have hword : (v.flat.data.size : Int) < wordLimit := hsound.size_lt_wordLimit
    obtain ⟨nested, hok, hholds⟩ := Nested.holds_ofPart hrank hpos hroom hword (Nat.le_of_eq hstop)
    rw [hstop] at hok
    refine ⟨nested, ?_, hholds.hasDims, ?_⟩
    · rw [if_neg hscalar, Nested.ofFlat, hok]
      rfl
    · rw [hholds.leaves_eq, hstop, Array.extract_size]

theorem kind_of_nested {flat : Flat} {e : TensorError} (h : t.nested flat = .error e) :
    Failure.kind e = .abort ∨ Failure.kind e = .fault := by
  rw [Tensor.nested] at h
  split at h
  · split at h
    · cases h
    · obtain rfl := Except.error.inj h
      exact .inr rfl
  · cases hnested : Nested.ofFlat t.shape.dims flat.data with
    | ok nested =>
      rw [hnested] at h
      cases h
    | error cause =>
      rw [hnested] at h
      obtain rfl := Except.error.inj h
      cases cause with
      | allocation => exact .inr rfl
      | negativeLength => exact .inl rfl
      | bounds => exact .inl rfl

theorem type_eq_iff (hsound : v.buffer.Sound) (type : ElementType) :
    v.flat.type = .element type ↔ v.shape.dtype = type.dtype := by
  have hstorage : v.shape.dtype.storage? = some v.flat.type := hsound.storage?_eq
  constructor
  · intro htype
    rw [← DType.dtype_of_storage? hstorage, htype]
    rfl
  · intro hdtype
    rw [hdtype] at hstorage
    exact Option.some.inj (hstorage.symm.trans (StorageType.storage?_dtype (.element type)))

theorem exists_scalar (hsound : v.buffer.Sound) (hshape : t.shape = v.shape) {type : ElementType}
    (hdtype : v.shape.dtype = type.dtype) (hdims : v.shape.dims = []) :
    ∃ x, v.flat = .ofElements type #[x] ∧ t.scalarAs type v.flat = .ok x := by
  have helement : v.shape.dtype.element? = some type := by rw [hdtype, ElementType.element?_dtype]
  obtain ⟨data, hdata, hsize, -⟩ := hsound.exists_elements helement
  have hdata : v.flat = .ofElements type data := hdata
  have hsize : (data.size : Int) = v.shape.size := hsize
  have hone : data.size = 1 := by
    rw [Shape.size, hdims] at hsize
    exact Int.ofNat.inj hsize
  obtain ⟨x, rfl⟩ := Array.size_eq_one_iff.mp hone
  have hscalar : t.shape.isScalar = true := by
    have hok : v.shape.ok = true := hsound.shape_ok
    simp [Shape.isScalar, Shape.rank, hshape, hdims, hok]
  refine ⟨x, hdata, ?_⟩
  rw [Tensor.scalarAs, if_neg (by simp [hshape, hdtype]), if_neg (by simp [hscalar]), hdata, Flat.as?_ofElements]
  rfl

/-- Every reading gives what the value and its shape say. -/
theorem gives_view (hsound : v.buffer.Sound) (hshape : t.shape = v.shape) (reading : Reading) :
    reading.Gives v ((reading.view t v.flat).mapError .of) := by
  cases reading with
  | flat => rfl
  | data =>
    rw [Gives, view]
    split
    · rename_i hfull
      obtain ⟨nested, hok, hdims, hleaves⟩ := exists_nested hsound hshape hfull
      rw [hok]
      exact ⟨nested, rfl, hdims, hleaves⟩
    · intro report hreport
      cases hnested : t.nested v.flat with
      | ok nested =>
        rw [hnested] at hreport
        cases hreport
      | error e =>
        rw [hnested] at hreport
        obtain rfl := Except.error.inj hreport
        exact kind_of_nested hnested
  | copy type =>
    rw [Gives, view, Tensor.copyAs]
    split
    · rename_i hdtype
      rw [if_pos ((type_eq_iff hsound type).mpr hdtype)]
      rfl
    · rename_i hdtype
      rw [if_neg fun htype => hdtype ((type_eq_iff hsound type).mp htype)]
      exact ⟨_, rfl, rfl⟩
  | scalar type =>
    rw [Gives, view]
    split
    · rename_i hscalar
      obtain ⟨x, hflat, hx⟩ := exists_scalar hsound hshape hscalar.1 hscalar.2
      exact ⟨x, hflat, by rw [hx]; rfl⟩
    · rename_i hscalar
      rw [Tensor.scalarAs, hshape]
      split
      · exact ⟨_, rfl, rfl⟩
      · rename_i hdtype
        have hdims : v.shape.dims ≠ [] := fun hdims => hscalar ⟨not_not.mp hdtype, hdims⟩
        rw [if_pos (by simp [Shape.isScalar, Shape.rank, hdims])]
        exact ⟨_, rfl, rfl⟩

end Reading

end LazyTensor
