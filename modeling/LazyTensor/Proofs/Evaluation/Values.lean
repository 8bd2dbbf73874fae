import LazyTensor.Proofs.Evaluation.Session

/-!
# The values that an evaluation gives

What a program sees of an evaluation are the elements that it reads from the tensors. If the graph
determines the outputs and the host has no limit of memory, then they are the values of the outputs in the
graph, whatever the session did before, and the evaluation fails just if an output has no value.
-/

namespace LazyTensor

open List Option

/-! ## Elements of buffers -/

theorem DType.dtype_of_storage? {dtype : DType} {type : StorageType} (h : dtype.storage? = some type) :
    type.dtype = dtype := by
  rw [storage?] at h
  split at h
  · rename_i t ht
    obtain rfl := Option.some.inj h
    exact (eq_dtype ht).symm
  · obtain ⟨t, ht, rfl⟩ := map_eq_some_iff.mp h
    show t.dtype = dtype
    simpa using find?_some ht

namespace HostBuffer.Sound

variable {b : HostBuffer}

theorem storage?_eq (h : b.Sound) : b.shape.dtype.storage? = some b.flat.type := by
  obtain ⟨l, hl, htype, -⟩ := h
  rw [htype]
  exact (Layout.make_eq_ok hl).1

theorem shape_ok (h : b.Sound) : b.shape.ok = true := by
  have hstorage := h.storage?_eq
  rw [Shape.ok, bne_iff_ne]
  intro heq
  rw [heq] at hstorage
  cases hstorage

theorem checkLayout_eq_ok (h : b.Sound) (call : String) :
    HostM.checkLayout call b.shape ⟨b.flat.type, b.shape.size.toNat⟩ = .ok () := by
  have hstorage := h.storage?_eq
  have hdtype := DType.dtype_of_storage? hstorage
  obtain ⟨l, hl, -⟩ := h
  have hsize : (b.shape.size.toNat : Int) = b.shape.size := by
    rw [← (Layout.make_eq_ok hl).2, Int.toNat_natCast]
  have hbytes : ∃ n, b.shape.dtype.bytes = .ok n := by
    cases hbytes : b.shape.dtype.bytes with
    | ok n => exact ⟨n, rfl⟩
    | error e =>
      simp only [Layout.make, hstorage, hbytes] at hl
      cases hl
  obtain ⟨n, hbytes⟩ := hbytes
  rw [HostM.checkLayout, hbytes]
  rw [if_neg (fun hne => hne hdtype.symm), if_neg (fun hne => hne hsize)]

end HostBuffer.Sound

/-! ## Reading a tensor -/

variable {p : Platform}

namespace Tensor

variable {t : Tensor} {s : HostState} {v v' : Value}

/-- Reading the tensor gives a value: one that was read before, or that of its buffer. -/
def Yields (s : HostState) (t : Tensor) (v : Value) : Prop :=
  t.shape = v.shape ∧
    (t.flat = some v.flat ∨ t.flat = none ∧ ∃ buffer, t.data = some ⟨0, buffer⟩ ∧ s.Live buffer v.buffer)

theorem Yields.unique (h : t.Yields s v) (h' : t.Yields s v') : v = v' := by
  obtain ⟨shape, flat⟩ := v
  obtain ⟨shape', flat'⟩ := v'
  obtain ⟨hshape, hflat⟩ := h
  obtain ⟨hshape', hflat'⟩ := h'
  obtain rfl : shape = shape' := hshape.symm.trans hshape'
  rcases hflat with hread | ⟨hunread, buffer, hdata, hlive⟩
  · rcases hflat' with hread' | ⟨hunread', -⟩
    · obtain rfl : flat = flat' := Option.some.inj (hread.symm.trans hread')
      rfl
    · exact nomatch hread.symm.trans hunread'
  · rcases hflat' with hread' | ⟨-, buffer', hdata', hlive'⟩
    · exact nomatch hunread.symm.trans hread'
    · obtain ⟨-, rfl⟩ := Held.mk.inj (Option.some.inj (hdata.symm.trans hdata'))
      have hbuffer := Option.some.inj (hlive.1.symm.trans hlive'.1)
      obtain rfl : flat = flat' := congrArg HostBuffer.flat hbuffer
      rfl

theorem Yields.read (h : t.Yields s v) : Yields s { t with flat := some v.flat } v := ⟨h.1, .inl rfl⟩

theorem exec_toPayload {buffer : Nat} (hs : s.Sound) (hlive : s.Live buffer v.buffer) :
    exec (HostM.toPayload (.host buffer) ⟨v.flat.type, v.shape.size.toNat⟩) s = (.ok v.flat, s) := by
  have hlayout := (hs.buffers buffer _ hlive.1).checkLayout_eq_ok "BufferToFlatData"
  simp only [Value.buffer] at hlayout
  rw [HostM.toPayload, exec_bind_ok (exec_get s), hlive.live_eq]
  simp only [Value.buffer, hlayout]
  rfl

theorem exec_read_kept {flat : Flat} (hflat : t.flat = some flat) (p : Platform) :
    exec t.read p = (.ok (flat, t), p) := by
  rw [read, hflat]
  rfl

theorem exec_read_live {buffer : Nat} (hs : s.Sound) (hlive : s.Live buffer v.buffer) (hruns : p.Runs s)
    (hshape : t.shape = v.shape) (hdata : t.data = some ⟨0, buffer⟩) (hflat : t.flat = none) :
    ∃ p', exec t.read p = (.ok (v.flat, { t with flat := some v.flat }), p') ∧ p'.Runs s := by
  obtain ⟨shape, device, data, flat⟩ := t
  obtain rfl : shape = v.shape := hshape
  obtain rfl : data = some ⟨0, buffer⟩ := hdata
  obtain rfl : flat = none := hflat
  have hsound : v.buffer.Sound := hs.buffers buffer _ hlive.1
  have hstorage : v.shape.dtype.storage? = some v.flat.type := hsound.storage?_eq
  have hok : v.shape.ok = true := hsound.shape_ok
  obtain ⟨p', hexec, hruns', -⟩ := PlatformM.exec_onHost hruns
    (HostM.toPayload (.host buffer) ⟨v.flat.type, v.shape.size.toNat⟩)
  rw [exec_toPayload hs hlive] at hexec hruns'
  refine ⟨p', ?_, hruns'⟩
  have hadapt := exec_adapt (TensorError.transfer v.shape device)
    (PlatformM.onHost 0 (HostM.toPayload (.host buffer) ⟨v.flat.type, v.shape.size.toNat⟩)) p
  rw [hexec] at hadapt
  rw [read]
  simp only [ok, hok, hstorage]
  exact exec_bind_ok hadapt

theorem exec_read (h : t.Yields s v) (hs : s.Sound) (hruns : p.Runs s) :
    ∃ p', exec t.read p = (.ok (v.flat, { t with flat := some v.flat }), p') ∧ p'.Runs s := by
  obtain ⟨hshape, hread | ⟨hunread, buffer, hdata, hlive⟩⟩ := h
  · have hsame : { t with flat := some v.flat } = t := by rw [← hread]
    rw [hsame]
    exact ⟨p, exec_read_kept hread p, hruns⟩
  · exact exec_read_live hs hlive hruns hshape hdata hunread

end Tensor

/-! ## Reading the tensors of an evaluation -/

namespace Evaluation

variable {g : Graph} {outputs : List Nat} {host : Host} {err : EvaluationError}

theorem Failed.exists_node (h : Failed g outputs host err) (hwf : g.WellFormed)
    (hcpu : ∀ id ∈ outputs, g.deviceOf id = .cpu) :
    ∃ j n cause, g.node? j = some n ∧ g.needs outputs j = true ∧
      err = .execution g.name j n (.stopped n.op n.shape cause) ∧ FailedAt g host j n cause := by
  obtain ⟨j, n, hn, hneeds, hfailed⟩ := h.cause
  obtain ⟨id, hid, hreach⟩ := hwf.needs_iff.mp hneeds
  have hdevice : n.device = .cpu := by
    rw [← Graph.deviceOf_eq_of_node? hn, ← hcpu id hid]
    rcases hreach with rfl | hreach
    · rfl
    · exact hwf.deviceOf_eq hreach
  obtain ⟨cause, herr, hcause⟩ := hfailed.1 hdevice
  exact ⟨j, n, cause, hn, hneeds, herr, hcause⟩

theorem exists_value?_eq_none {j : Nat} {n : Node} {cause : Stop} (hwf : g.WellFormed) (hn : g.node? j = some n)
    (hneeds : g.needs outputs j = true) (hfailed : FailedAt g host j n cause) (hlimit : host.account.limit = 0)
    (hdetermined : ∀ id ∈ outputs, g.Determined id) : ∃ id ∈ outputs, g.value? id = none := by
  obtain ⟨id, hid, hreach⟩ := hwf.needs_iff.mp hneeds
  refine ⟨id, hid, ?_⟩
  have hj : g.value? j = none := by
    obtain ⟨values, hvalues, -, hnone, -⟩ := hfailed.exists_values hlimit ((hdetermined id hid).of_reaches hreach)
    rw [hwf.value?_eq hn, hvalues, bind_some, hnone]
    rfl
  rcases hreach with rfl | hreach
  · exact hj
  · exact hwf.value?_eq_none_of_dependsOn hj hreach

end Evaluation

namespace SessionM

open Evaluation

def value (id : TensorId) : SessionM Value := do
  let (flat, t) ← readTensor (some id)
  return ⟨t.shape, flat⟩

/-- Evaluates outputs of a graph, and reads their values. -/
def values (graph : Option GraphId) (outputs : List Handle) : SessionM (List Value) := do
  (← evaluate graph outputs).mapM value

variable {σ : Session} {s : HostState} {host : Host} {gid i : Nat} {g : Graph} {handles : List Handle}
  {ids : List NodeId} {t : Tensor}

theorem exec_platform {ε α : Type} [Failure ε] (x : PlatformM ε α) (σ : Session) :
    exec (platform x) σ = ((exec x σ.platform).1.mapError .of, { σ with platform := (exec x σ.platform).2 }) := by
  rw [platform, exec_bind_ok (exec_onPlatform _ σ), exec_check]
  rfl

theorem exec_tensor? (ht : σ.tensors[i]? = some t) : exec (tensor? (some i)) σ = (.ok (some (i, t)), σ) := by
  have hfound : (some i).bind (fun id => σ.tensors[id]?.map (id, ·)) = some (i, t) := by
    rw [bind_some, ht, map_some]
  rw [tensor?, exec_bind_ok (exec_get σ), hfound]
  rfl

theorem exec_readTensor_ok {t' : Tensor} {flat : Flat} (ht : σ.tensors[i]? = some t)
    (h : exec t.read σ.platform = (.ok (flat, t'), p)) :
    exec (readTensor (some i)) σ =
      (.ok (flat, t'), { σ with platform := p, tensors := σ.tensors.setIfInBounds i t' }) := by
  have hread := exec_platform t.read σ
  rw [h] at hread
  rw [readTensor, exec_bind_ok (exec_tensor? ht)]
  exact exec_bind_ok hread

theorem exec_value {v : Value} (ht : σ.tensors[i]? = some t) (h : t.Yields s v) (hs : s.Sound)
    (hruns : σ.platform.Runs s) :
    ∃ p, p.Runs s ∧ exec (value i) σ = (.ok v, { σ with
      platform := p
      tensors := σ.tensors.setIfInBounds i { t with flat := some v.flat } }) := by
  obtain ⟨p, hread, hruns'⟩ := Tensor.exec_read h hs hruns
  refine ⟨p, hruns', ?_⟩
  rw [value, exec_bind_ok (exec_readTensor_ok ht hread)]
  obtain ⟨shape, flat⟩ := v
  obtain rfl : t.shape = shape := h.1
  rfl

/-- Tensors that yield values are read one after the other, also if one stands there more than once. -/
theorem exec_readAll {items : List (TensorId × Value)} (hs : s.Sound) (hruns : σ.platform.Runs s)
    (hitems : ∀ q ∈ items, ∃ t, σ.tensors[q.1]? = some t ∧ t.Yields s q.2) :
    (exec ((items.map (·.1)).mapM value) σ).1 = .ok (items.map (·.2)) := by
  induction items generalizing σ with
  | nil => rfl
  | cons q items ih =>
    obtain ⟨i, v⟩ := q
    obtain ⟨t, ht, hyields⟩ := hitems _ (.head _)
    obtain ⟨p, hruns', hfirst⟩ := exec_value ht hyields hs hruns
    let σ' : Session := { σ with
      platform := p
      tensors := σ.tensors.setIfInBounds i { t with flat := some v.flat } }
    -- reading the first tensor leaves what the others yield
    have hrest : (exec ((items.map (·.1)).mapM value) σ').1 = .ok (items.map (·.2)) := by
      refine ih hruns' fun q hq => ?_
      obtain ⟨t', ht', hyields'⟩ := hitems q (.tail _ hq)
      rw [Array.getElem?_setIfInBounds]
      by_cases hi : i = q.1
      · -- the tensor that was just read
        obtain rfl : t = t' := Option.some.inj (ht.symm.trans (hi ▸ ht'))
        rw [if_pos hi, if_pos (Array.getElem?_eq_some_iff.mp ht).1, ← hyields.unique hyields']
        exact ⟨_, rfl, hyields.read⟩
      · rw [if_neg hi]
        exact ⟨t', ht', hyields'⟩
    rcases hexec : exec ((items.map (·.1)).mapM value) σ' with ⟨result, σ''⟩
    rw [hexec] at hrest
    obtain rfl : result = .ok (items.map (·.2)) := hrest
    rw [map_cons, mapM_cons, exec_bind_ok hfirst, exec_bind_ok hexec]
    rfl

private theorem exists_items {α β γ : Type} {l : List α} {f : α → γ} {g : α → Option β} {P : γ → β → Prop}
    (h : ∀ a ∈ l, ∃ b, g a = some b ∧ P (f a) b) :
    ∃ items : List (γ × β), items.map (·.1) = l.map f ∧ l.mapM g = some (items.map (·.2)) ∧
      ∀ q ∈ items, P q.1 q.2 := by
  induction l with
  | nil => exact ⟨[], rfl, rfl, nofun⟩
  | cons a l ih =>
    obtain ⟨b, hb, hP⟩ := h a (.head _)
    obtain ⟨items, hfirst, hsecond, hitems⟩ := ih fun a' ha' => h a' (.tail _ ha')
    refine ⟨(f a, b) :: items, ?_, ?_, ?_⟩
    · rw [map_cons, map_cons, hfirst]
    · rw [mapM_cons, hb, hsecond]
      rfl
    · intro q hq
      rcases mem_cons.mp hq with rfl | hq
      · exact hP
      · exact hitems q hq

end SessionM

/-! ## The outcome of an evaluation -/

namespace Session

open Evaluation SessionM

variable {σ : Session} {s : HostState} {host : Host} {gid : Nat} {g : Graph} {handles : List Handle}
  {ids : List NodeId}

/-- What is seen of an evaluation: whether it succeeds, and the values that it gives. -/
def outcome (σ : Session) (graph : Option GraphId) (outputs : List Handle) : Bool × Option (List Value) :=
  ((exec (evaluate graph outputs) σ).1.isOk, (exec (values graph outputs) σ).1.toOption)

/-- Evaluation gives the values of outputs that the graph determines, and fails if one has no value. -/
theorem outcome_eq (hσ : σ.Serves host s) (hwf : g.WellFormed) (hg : σ.workspace.graph? gid = some g)
    (hids : σ.workspace.outputs (some gid) handles = .ok ids) (hcpu : ∀ id ∈ ids, g.deviceOf id = .cpu)
    (hlimit : host.account.limit = 0) (hdetermined : ∀ id ∈ ids, g.Determined id) :
    σ.outcome (some gid) handles = ((ids.mapM g.value?).isSome, ids.mapM g.value?) := by
  rw [outcome]
  obtain ⟨-, hlt⟩ := Workspace.outputs_of_graph? hg hids
  have hwf' := hwf.pin ids
  rcases evaluate_cases hσ hwf hg hids with
    ⟨e, s', σ', number, hexec, hserves, hruns, hschedule, htensors⟩ | ⟨err, s', σ', hexec, -, hfailed⟩
  · -- each output is held, with its value
    have hvalue : ∀ id ∈ ids, ∃ v, g.value? id = some v ∧ (tensorOf (g.pin ids) e id).Yields s' v := by
      intro id hid
      have hsize : id < (g.pin ids).size := by
        rw [Graph.size_pin]
        exact hlt id hid
      obtain ⟨buffer, hheld, v, hlive, hshape, hv⟩ := hschedule.held_output hwf' hid hsize
      refine ⟨v, ?_, hshape.symm, .inr ⟨rfl, buffer, hheld, hlive⟩⟩
      rw [← Graph.value?_pin ids]
      exact hv ((Graph.determined_pin ids).mpr (hdetermined id hid))
    obtain ⟨items, hnumbers, hvalues, hitems⟩ := exists_items (f := number) (g := g.value?)
      (P := fun i v => ∃ t, σ'.tensors[i]? = some t ∧ t.Yields s' v) fun id hid => by
        obtain ⟨v, hv, hyields⟩ := hvalue id hid
        exact ⟨v, hv, _, htensors id hid, hyields⟩
    have hread := exec_readAll hserves.serves.sound hruns hitems
    rw [values, exec_bind_ok hexec, ← hnumbers, hread, hvalues, hexec]
    rfl
  · -- the node that fails has no value, so neither has an output that needs it
    have hcpu' : ∀ id ∈ ids, (g.pin ids).deviceOf id = .cpu := by
      intro id hid
      rw [Graph.deviceOf_pin]
      exact hcpu id hid
    obtain ⟨j, n, cause, hn, hneeds, -, hat⟩ := hfailed.exists_node hwf' hcpu'
    have hnone := exists_value?_eq_none hwf' hn hneeds hat hlimit fun id hid =>
      (Graph.determined_pin ids).mpr (hdetermined id hid)
    rw [Graph.value?_pin] at hnone
    rw [values, exec_bind_error hexec, mapM_eq_none_iff.mpr hnone, hexec]
    rfl

end Session

end LazyTensor
