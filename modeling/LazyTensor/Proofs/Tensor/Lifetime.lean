import LazyTensor.Proofs.Evaluation.Balance
import LazyTensor.Proofs.Tensor.Read
import Mathlib.Data.Finset.Card
import Mathlib.Data.List.Basic

/-!
# The life of a tensor

A tensor holds a buffer when it is made, keeps the elements when it is read first, and holds nothing once it is
finalized. Calls on the tensors of one evaluation, or on the tensor of a buffer, come in any order and number, and each
tensor goes from one phase to the next (`Phase`) whatever is done to the others.
-/

namespace LazyTensor

open List Option

/-! ## Calls on tensors -/

/-- A call on a tensor of a session. -/
inductive TensorCall where
  | read (id : TensorId) (reading : Reading)
  | holds (id : TensorId)
  | finalize (id : TensorId)
deriving DecidableEq

namespace TensorCall

def id : TensorCall → TensorId
  | .read id _ | .holds id | .finalize id => id

def steps : TensorCall → SessionM Answer
  | .read id reading => do
    let (flat, t) ← SessionM.readTensor (some id)
    SessionM.check (reading.view t flat)
  | .holds id => do
    let found ← SessionM.tensor? (some id)
    return .holds ((found.map Prod.snd).getD Tensor.empty).ok
  | .finalize id => do return .holds (← SessionM.finalizeTensor (some id))

/-- The requests of a call to the backend of the tensor. -/
def requests (σ : Session) : TensorCall → List BufferRequest
  | .read id _ =>
    match σ.tensors[id]? with
    | some t => ((StateT.run (t.readVia BufferAccess.platform.recorded).run []).run σ.platform).1.2
    | none => []
  | .holds _ => []
  | .finalize id =>
    match σ.tensors[id]? with
    | some t => ((StateT.run (t.finalizeVia BufferAccess.platform.recorded) []).run σ.platform).1.2
    | none => []

/-- What is answered about a tensor with a value, before or after it is finalized. -/
def Answers (v : Value) (finalized : Bool) : TensorCall → Except Report Answer → Prop
  | .read _ reading, r =>
    if finalized then ∃ report, r = .error report ∧ report.kind = .notMaterialized else reading.Gives v r
  | .holds _, r => r = .ok (.holds !finalized)
  | .finalize _, r => r = .ok (.holds false)

def finalizes? : TensorCall → Option TensorId
  | .finalize id => some id
  | _ => none

end TensorCall

/-- The tensors that calls finalize, each of them once. -/
def finalizedIds (calls : List TensorCall) : Finset TensorId := (calls.filterMap TensorCall.finalizes?).toFinset

theorem mem_finalizedIds {calls : List TensorCall} {id : TensorId} :
    id ∈ finalizedIds calls ↔ .finalize id ∈ calls := by
  rw [finalizedIds, List.mem_toFinset, mem_filterMap]
  constructor
  · rintro ⟨c, hc, hid⟩
    cases c with
    | finalize id' =>
      obtain rfl := Option.some.inj hid
      exact hc
    | read _ _ | holds _ => cases hid
  · exact fun hmem => ⟨_, hmem, rfl⟩

theorem finalizedIds_concat (calls : List TensorCall) (c : TensorCall) :
    finalizedIds (calls ++ [c]) =
      c.finalizes?.elim (finalizedIds calls) fun id => insert id (finalizedIds calls) := by
  ext id
  cases c with
  | finalize id' => simp [TensorCall.finalizes?, mem_finalizedIds, or_comm]
  | read id' reading | holds id' => simp [TensorCall.finalizes?, mem_finalizedIds]

namespace Session

/-- The session after a call on a tensor, which may have failed. -/
def afterTensorCall (σ : Session) (c : TensorCall) : Session := (exec c.steps σ).2

def afterTensorCalls (σ : Session) (calls : List TensorCall) : Session := calls.foldl afterTensorCall σ

def requests (σ : Session) : List TensorCall → List BufferRequest
  | [] => []
  | c :: calls => c.requests σ ++ (σ.afterTensorCall c).requests calls

/-- The buffer of a tensor, with the value in it. -/
def held? (σ : Session) (id : TensorId) : Option (Held × Value) := do
  let t ← σ.tensors[id]?
  let held ← t.data
  let b ← σ.platform.heap.get? held.buffer
  if b.finalized then none else some (held, ⟨b.shape, b.flat⟩)

end Session

/-! ## Phases -/

/-- The phases of a tensor with a value in a buffer: the elements are not there yet, they are kept, or all is given up.
The numbers are those of the transfers and releases that were requested. -/
inductive Phase (s : HostState) (buffer : Nat) (v : Value) (t : Tensor) :
    (finalized : Bool) → (transfers releases : Nat) → Prop
  | unread (data_eq : t.data = some ⟨0, buffer⟩) (flat_eq : t.flat = none) (live : s.Live buffer v.buffer) :
    Phase s buffer v t false 0 0
  | kept (data_eq : t.data = some ⟨0, buffer⟩) (flat_eq : t.flat = some v.flat) (live : s.Live buffer v.buffer) :
    Phase s buffer v t false 1 0
  | finalized (data_eq : t.data = none) (flat_eq : t.flat = none) (transfers : Nat) (le : transfers ≤ 1) :
    Phase s buffer v t true transfers 1

variable {p : Platform}

namespace Phase

variable {s s' : HostState} {buffer transfers releases : Nat} {v : Value} {t : Tensor} {finalized : Bool}

theorem transfers_le (h : Phase s buffer v t finalized transfers releases) : transfers ≤ 1 := by
  cases h with
  | unread => exact Nat.zero_le 1
  | kept => exact Nat.le_refl 1
  | finalized _ _ _ hle => exact hle

theorem releases_eq (h : Phase s buffer v t finalized transfers releases) : releases = if finalized then 1 else 0 := by
  cases h <;> rfl

theorem mono (h : Phase s buffer v t finalized transfers releases) (hlive : ∀ b, s.Live buffer b → s'.Live buffer b) :
    Phase s' buffer v t finalized transfers releases := by
  cases h with
  | unread hdata hflat h => exact .unread hdata hflat (hlive _ h)
  | kept hdata hflat h => exact .kept hdata hflat (hlive _ h)
  | finalized hdata hflat _ hle => exact .finalized hdata hflat _ hle

/-- Before the tensor is finalized, it is read, with a transfer if the elements are not there. -/
theorem read (h : Phase s buffer v t false transfers releases) (hs : s.Sound) (hshape : t.shape = v.shape)
    (hruns : p.Runs s) :
    ∃ p', exec t.read p = (.ok (v.flat, { t with flat := some v.flat }), p') ∧ p'.Runs s ∧
      (∀ r ∈ t.transfers, r = .transfer ⟨0, buffer⟩) ∧
      Phase s buffer v { t with flat := some v.flat } false
        (transfers + t.transfers.count (.transfer ⟨0, buffer⟩)) releases := by
  cases h with
  | unread hdata hflat hlive =>
    obtain ⟨p', hread, hruns'⟩ := Tensor.exec_read_live hs hlive hruns hshape hdata hflat
    have htransfers := Tensor.transfers_live hs hlive hshape hdata hflat
    refine ⟨p', hread, hruns', by simp [htransfers], ?_⟩
    rw [htransfers, count_singleton_self]
    exact .kept hdata rfl hlive
  | kept hdata hflat hlive =>
    have htransfers : t.transfers = [] := by simp [Tensor.transfers, hflat]
    have hsame : { t with flat := some v.flat } = t := by rw [← hflat]
    rw [hsame, htransfers]
    exact ⟨p, Tensor.exec_read_kept hflat p, hruns, by simp, .kept hdata hflat hlive⟩

theorem read_finalized (h : Phase s buffer v t true transfers releases) (p : Platform) :
    exec t.read p = (.error (.notMaterialized t.shape), p) ∧ t.transfers = [] := by
  cases h with
  | finalized hdata hflat => exact ⟨Tensor.exec_read_finalized hflat hdata p, by simp [Tensor.transfers, hdata]⟩

theorem finalize (h : Phase s buffer v t false transfers releases) (hs : s.Sound) (hruns : p.Runs s) :
    ∃ p' s', t.finalize.run p = ({ t with data := none, flat := none }, p') ∧ p'.Runs s' ∧ s'.Sound ∧
      HostState.Frame s s' [buffer] ∧ s'.host.account.buffers = s.host.account.buffers - 1 ∧
      t.releases = [.release ⟨0, buffer⟩] ∧
      Phase s' buffer v { t with data := none, flat := none } true transfers (releases + 1) := by
  have hheld : t.data = some ⟨0, buffer⟩ ∧ s.Live buffer v.buffer := by
    cases h with
    | unread hdata _ hlive | kept hdata _ hlive => exact ⟨hdata, hlive⟩
  obtain ⟨hdata, hlive⟩ := hheld
  obtain ⟨p', s', hrun, hruns', hsound, hframe, haccount⟩ := Tensor.run_finalize_live hs hlive hruns hdata
  refine ⟨p', s', hrun, hruns', hsound, hframe, by rw [haccount]; rfl, by simp [Tensor.releases, hdata], ?_⟩
  rw [h.releases_eq]
  exact .finalized rfl rfl transfers h.transfers_le

theorem finalize_finalized (h : Phase s buffer v t true transfers releases) (p : Platform) :
    t.finalize.run p = (t, p) ∧ t.releases = [] := by
  cases h with
  | finalized hdata hflat => exact ⟨Tensor.run_finalize_none hflat hdata p, by simp [Tensor.releases, hdata]⟩

theorem ok_eq (h : Phase s buffer v t finalized transfers releases) (hvalue : v.buffer.Sound)
    (hshape : t.shape = v.shape) : t.ok = !finalized := by
  have hok : t.shape.ok = true := hshape ▸ hvalue.shape_ok
  cases h with
  | unread hdata | kept hdata => simp [Tensor.ok, hok, hdata]
  | finalized hdata hflat => simp [Tensor.ok, hdata, hflat]

end Phase

/-! ## Steps of a session -/

namespace SessionM

variable {σ : Session} {i : Nat} {t : Tensor}

theorem exec_readTensor_error {e : TensorError} (ht : σ.tensors[i]? = some t)
    (h : exec t.read σ.platform = (.error e, p)) :
    exec (readTensor (some i)) σ = (.error (.of e), { σ with platform := p }) := by
  have hread := exec_platform t.read σ
  rw [h] at hread
  rw [readTensor, exec_bind_ok (exec_tensor? ht)]
  exact exec_bind_error hread

end SessionM

namespace TensorCall

variable {σ : Session} {i : Nat} {t : Tensor}

theorem requests_read (ht : σ.tensors[i]? = some t) (reading : Reading) :
    requests σ (.read i reading) = t.transfers := by
  simp only [requests, ht]
  rw [Tensor.run_readVia_recorded]
  rfl

theorem requests_finalize (ht : σ.tensors[i]? = some t) : requests σ (.finalize i) = t.releases := by
  simp only [requests, ht]
  rw [Tensor.run_finalizeVia_recorded]
  rfl

end TensorCall

/-! ## Each call keeps the phases -/

/-- What a tensor of the session held at first: the buffer and the value. -/
abbrev Start := TensorId → Option (Held × Value)

/-- No two of the tensors held the same buffer at first. -/
def Start.Distinct (start : Start) (ids : List TensorId) : Prop := ∀ i ∈ ids, ∀ j ∈ ids, ∀ held v w,
  start i = some (held, v) → start j = some (held, w) → i = j

/-- The session after a history of calls, of which all requests are recorded: each tensor is in its phase, and the host
counts a buffer less for each tensor that is finalized. -/
structure Follows (start : Start) (ids : List TensorId) (base : Int) (history : List TensorCall)
    (log : List BufferRequest) (σ : Session) (s : HostState) : Prop where
  runs : σ.platform.Runs s
  sound : s.Sound
  tensors : ∀ id ∈ ids, ∃ buffer v t, start id = some (⟨0, buffer⟩, v) ∧ σ.tensors[id]? = some t ∧ t.shape = v.shape ∧
    v.buffer.Sound ∧ Phase s buffer v t (decide (.finalize id ∈ history)) (log.count (.transfer ⟨0, buffer⟩))
      (log.count (.release ⟨0, buffer⟩))
  buffers_eq : s.host.account.buffers = base - (finalizedIds history).card

def BufferRequest.held : BufferRequest → Held
  | .transfer held | .release held => held

namespace Follows

variable {start : Start} {ids : List TensorId} {base : Int} {history : List TensorCall}
  {log requests : List BufferRequest} {σ σ' : Session} {s s' : HostState} {c : TensorCall} {buffer : Nat} {v : Value}
  {t' : Tensor} {i : TensorId}

theorem count_append {request : BufferRequest} (h : ∀ r ∈ requests, r.held ≠ request.held) :
    (log ++ requests).count request = log.count request := by
  rw [List.count_append, count_eq_zero_of_not_mem fun hmem => h request hmem rfl, Nat.add_zero]

/-- A call changes the tensor that it is made on, and leaves the others in their phases. -/
theorem update (h : Follows start ids base history log σ s) (hdistinct : start.Distinct ids) (hc : c.id ∈ ids)
    (hstart : start c.id = some (⟨0, buffer⟩, v)) (hruns : σ'.platform.Runs s') (hsound : s'.Sound)
    (hlive : ∀ j b, s.Live j b → j ≠ buffer → s'.Live j b) (hrequests : ∀ r ∈ requests, r.held = ⟨0, buffer⟩)
    (htensors : ∀ j, σ'.tensors[j]? = if j = c.id then some t' else σ.tensors[j]?) (hshape : t'.shape = v.shape)
    (hvalue : v.buffer.Sound)
    (hphase : Phase s' buffer v t' (decide (.finalize c.id ∈ history ++ [c]))
      ((log ++ requests).count (.transfer ⟨0, buffer⟩)) ((log ++ requests).count (.release ⟨0, buffer⟩)))
    (hbuffers : s'.host.account.buffers = base - (finalizedIds (history ++ [c])).card) :
    Follows start ids base (history ++ [c]) (log ++ requests) σ' s' := by
  refine ⟨hruns, hsound, fun j hj => ?_, hbuffers⟩
  rw [htensors j]
  -- a call changes its own tensor, and no other tensor has the same buffer
  by_cases hjc : j = c.id
  · subst hjc
    exact ⟨buffer, v, t', hstart, if_pos rfl, hshape, hvalue, hphase⟩
  · obtain ⟨buffer', w, t, hstart', ht, hshape', hvalue', hphase'⟩ := h.tensors j hj
    have hne : buffer' ≠ buffer := by
      rintro rfl
      exact hjc (hdistinct j hj c.id hc _ w v hstart' hstart)
    have hother : ∀ r ∈ requests, r.held ≠ ⟨0, buffer'⟩ := by
      intro r hr heq
      exact hne (Held.mk.inj (heq.symm.trans (hrequests r hr))).2
    have hfinalize : (.finalize j ∈ history ++ [c]) ↔ .finalize j ∈ history := by
      rw [mem_append, mem_singleton, or_iff_left]
      rintro rfl
      exact hjc rfl
    refine ⟨buffer', w, t, hstart', (if_neg hjc).trans ht, hshape', hvalue', ?_⟩
    rw [count_append hother, count_append hother, decide_eq_decide.mpr hfinalize]
    exact hphase'.mono fun b hb => hlive buffer' b hb hne

/-- What a call leaves and answers. -/
def Next (start : Start) (ids : List TensorId) (base : Int) (history : List TensorCall) (log : List BufferRequest)
    (σ : Session) (c : TensorCall) : Prop :=
  (∃ s, Follows start ids base (history ++ [c]) (log ++ c.requests σ) (σ.afterTensorCall c) s) ∧
    ∃ held v, start c.id = some (held, v) ∧ c.Answers v (decide (.finalize c.id ∈ history)) (exec c.steps σ).1

theorem getElem?_setTensor {t : Tensor} {i : Nat} (ht : σ.tensors[i]? = some t) (t' : Tensor) (j : Nat) :
    (σ.tensors.setIfInBounds i t')[j]? = if j = i then some t' else σ.tensors[j]? := by
  rw [Array.getElem?_setIfInBounds]
  by_cases hij : i = j
  · rw [if_pos hij, if_pos (Array.getElem?_eq_some_iff.mp ht).1, if_pos hij.symm]
  · rw [if_neg hij, if_neg (Ne.symm hij)]

theorem getElem?_same {t : Tensor} {i : Nat} (ht : σ.tensors[i]? = some t) (j : Nat) :
    σ.tensors[j]? = if j = i then some t else σ.tensors[j]? := by
  split
  · rename_i hij
    rw [hij, ht]
  · rfl

variable (h : Follows start ids base history log σ s) (hdistinct : start.Distinct ids)

include h hdistinct

/-- A tensor is read once from its buffer, and not at all once it is finalized. -/
theorem next_read (hi : i ∈ ids) (reading : Reading) : Next start ids base history log σ (.read i reading) := by
  obtain ⟨buffer, v, t, hstart, ht, hshape, hvalue, hphase⟩ := h.tensors i hi
  have hmem : decide (.finalize i ∈ history ++ [.read i reading]) = decide (.finalize i ∈ history) := by simp
  have hids : finalizedIds (history ++ [.read i reading]) = finalizedIds history := finalizedIds_concat history _
  have hbuffers : s.host.account.buffers = base - (finalizedIds (history ++ [.read i reading])).card := by
    rw [hids]
    exact h.buffers_eq
  rw [Next, TensorCall.requests_read ht, Session.afterTensorCall, TensorCall.steps]
  -- the elements are there until the tensor is finalized
  cases hdone : decide (.finalize i ∈ history) with
  | false =>
    rw [hdone] at hphase hmem
    obtain ⟨p', hread, hruns, htransfers, hphase'⟩ := hphase.read h.sound hshape h.runs
    rw [exec_bind_ok (SessionM.exec_readTensor_ok ht hread)]
    rw [SessionM.exec_check]
    refine ⟨⟨s, h.update hdistinct hi hstart hruns h.sound (fun _ _ hlive _ => hlive)
      (fun r hr => by rw [htransfers r hr]; rfl) (getElem?_setTensor ht _) hshape hvalue ?_ hbuffers⟩,
      ⟨0, buffer⟩, v, hstart, ?_⟩
    · have hreleases : t.transfers.count (.release ⟨0, buffer⟩) = 0 :=
        count_eq_zero_of_not_mem fun hr => nomatch htransfers _ hr
      rwa [TensorCall.id, hmem, List.count_append, List.count_append, hreleases]
    · rw [TensorCall.id, hdone]
      exact Reading.gives_view hvalue hshape reading
  | true =>
    rw [hdone] at hphase hmem
    obtain ⟨hread, htransfers⟩ := hphase.read_finalized σ.platform
    rw [exec_bind_error (SessionM.exec_readTensor_error ht hread), htransfers]
    refine ⟨⟨s, h.update hdistinct hi hstart h.runs h.sound (fun _ _ hlive _ => hlive) (by simp)
      (getElem?_same ht) hshape hvalue ?_ hbuffers⟩, ⟨0, buffer⟩, v, hstart, ?_⟩
    · rwa [TensorCall.id, hmem, append_nil]
    · rw [TensorCall.id, hdone]
      exact ⟨_, rfl, rfl⟩

theorem next_holds (hi : i ∈ ids) : Next start ids base history log σ (.holds i) := by
  obtain ⟨buffer, v, t, hstart, ht, hshape, hvalue, hphase⟩ := h.tensors i hi
  have hmem : decide (.finalize i ∈ history ++ [.holds i]) = decide (.finalize i ∈ history) := by simp
  have hids : finalizedIds (history ++ [.holds i]) = finalizedIds history := finalizedIds_concat history _
  have hrequests : TensorCall.requests σ (.holds i) = [] := rfl
  rw [Next, hrequests, TensorCall.steps, exec_bind_ok (SessionM.exec_tensor? ht)]
  refine ⟨⟨s, h.update hdistinct hi hstart h.runs h.sound (fun _ _ hlive _ => hlive) (by simp) (getElem?_same ht)
    hshape hvalue ?_ ?_⟩, ⟨0, buffer⟩, v, hstart, ?_⟩
  · rwa [TensorCall.id, hmem, append_nil]
  · rw [hids]
    exact h.buffers_eq
  · show Except.ok (Answer.holds t.ok) = .ok (.holds _)
    rw [hphase.ok_eq hvalue hshape]
    rfl

/-- The first finalization gives the buffer back, and every other one does nothing. -/
theorem next_finalize (hi : i ∈ ids) : Next start ids base history log σ (.finalize i) := by
  obtain ⟨buffer, v, t, hstart, ht, hshape, hvalue, hphase⟩ := h.tensors i hi
  have hmem : decide (.finalize i ∈ history ++ [.finalize i]) = true := by simp
  have hids : finalizedIds (history ++ [.finalize i]) = insert i (finalizedIds history) := finalizedIds_concat history _
  have hexec := SessionM.exec_finalizeTensor (some i) σ
  rw [bind_some, ht] at hexec
  rw [Next, TensorCall.requests_finalize ht, Session.afterTensorCall, TensorCall.steps, exec_bind_ok hexec]
  -- the first call gives the buffer back, and the others find nothing to give
  cases hdone : decide (.finalize i ∈ history) with
  | false =>
    rw [hdone] at hphase
    obtain ⟨p', s', hrun, hruns, hsound, hframe, hbuffers, hreleases, hphase'⟩ := hphase.finalize h.sound h.runs
    rw [hrun, hreleases]
    refine ⟨⟨s', h.update hdistinct hi hstart hruns hsound
      (fun j b hlive hne => hframe.live j b hlive (by simpa using hne))
      (by simp [BufferRequest.held]) (getElem?_setTensor ht _) hshape hvalue ?_ ?_⟩, ⟨0, buffer⟩, v, hstart, ?_⟩
    · rwa [TensorCall.id, hmem, List.count_append, List.count_append, count_singleton_self]
    · have hnew : i ∉ finalizedIds history := fun hmem => of_decide_eq_false hdone (mem_finalizedIds.mp hmem)
      rw [hids, Finset.card_insert_of_notMem hnew, hbuffers, h.buffers_eq]
      omega
    · show Except.ok (Answer.holds _) = .ok (.holds false)
      simp [Tensor.ok]
  | true =>
    rw [hdone] at hphase
    obtain ⟨hrun, hreleases⟩ := hphase.finalize_finalized σ.platform
    rw [hrun, hreleases]
    refine ⟨⟨s, h.update hdistinct hi hstart h.runs h.sound (fun _ _ hlive _ => hlive) (by simp)
      (getElem?_setTensor ht _) hshape hvalue ?_ ?_⟩, ⟨0, buffer⟩, v, hstart, ?_⟩
    · rwa [TensorCall.id, hmem, append_nil]
    · have hold : i ∈ finalizedIds history := mem_finalizedIds.mpr (of_decide_eq_true hdone)
      rw [hids, Finset.insert_eq_of_mem hold]
      exact h.buffers_eq
    · rw [hphase.ok_eq hvalue hshape]
      rfl

theorem next (hc : c.id ∈ ids) : Next start ids base history log σ c := by
  cases c with
  | read i reading => exact h.next_read hdistinct hc reading
  | holds i => exact h.next_holds hdistinct hc
  | finalize i => exact h.next_finalize hdistinct hc

theorem run {calls : List TensorCall} (hcalls : ∀ c ∈ calls, c.id ∈ ids) :
    ∃ s', Follows start ids base (history ++ calls) (log ++ σ.requests calls) (σ.afterTensorCalls calls) s' := by
  induction calls generalizing history log σ s with
  | nil =>
    refine ⟨s, ?_⟩
    rwa [append_nil, Session.requests, append_nil]
  | cons c calls ih =>
    obtain ⟨⟨s₁, h₁⟩, -⟩ := h.next hdistinct (hcalls c (.head _))
    obtain ⟨s', h'⟩ := ih h₁ fun c' hc' => hcalls c' (.tail _ hc')
    rw [append_assoc, append_assoc] at h'
    exact ⟨s', h'⟩

end Follows

/-! ## Where tensors come from -/

/-- What makes tensors: an evaluation, or a buffer of the host. -/
inductive Origin where
  | evaluate (graph : Option GraphId) (outputs : List Handle)
  | buffer (ref : BufferRef)

/-- The steps that make tensors. Outputs that are the same have the same tensor. -/
def Origin.steps : Origin → SessionM (List TensorId)
  | .evaluate graph outputs => SessionM.evaluate graph outputs
  | .buffer ref => do
    let backend ← SessionM.platform (PlatformM.forDevice .cpu)
    let t ← SessionM.platform (Tensor.ofBuffer backend ref)
    return [← SessionM.addTensor t]

theorem Tensor.exec_ofBuffer {s : HostState} (hruns : p.Runs s) (ref : BufferRef) :
    ∃ p', p'.Runs s ∧ ((∃ e, exec (ofBuffer 0 ref) p = (.error e, p')) ∨ ∃ buffer b, s.Live buffer b ∧
      exec (ofBuffer 0 ref) p = (.ok { shape := b.shape, device := .cpu, data := some ⟨0, buffer⟩ }, p')) := by
  obtain ⟨p', hshape, hruns', -⟩ := PlatformM.exec_onHost hruns (HostM.shapeOf ref)
  cases hlive : s.heap.live ref with
  | error e =>
    have hexec : exec (HostM.shapeOf ref) s = (.error (.buffer e), s) := by
      rw [HostM.shapeOf, exec_bind_ok (exec_get s), hlive]
      rfl
    rw [hexec] at hshape hruns'
    exact ⟨p', hruns', .inl ⟨_, exec_bind_error hshape⟩⟩
  | ok found =>
    obtain ⟨buffer, b⟩ := found
    have hexec : exec (HostM.shapeOf ref) s = (.ok b.shape, s) := by
      rw [HostM.shapeOf, exec_bind_ok (exec_get s), hlive]
      rfl
    rw [hexec] at hshape hruns'
    have hdevice : ((p'.backends[0]?).map (·.device)).getD .cpu = .cpu := by
      obtain ⟨backend, hbackends, hcpu, -⟩ := hruns'.backend
      rwa [hbackends]
    refine ⟨p', hruns', .inr ⟨buffer, b, HostM.live_of_ref hlive, ?_⟩⟩
    obtain rfl : ref = .host buffer := by
      cases ref with
      | host id => rw [(HostState.live_eq_ok hlive).1]
      | _ => cases hlive
    rw [ofBuffer, exec_bind_ok hshape, exec_bind_ok (exec_get p'), hdevice]
    rfl

theorem Platform.Runs.account_eq {s : HostState} (h : p.Runs s) (host : Host) : p.account host = s.host.account := by
  obtain ⟨b, hb, -, rfl⟩ := h.backend
  rw [account, host?, hb]
  rfl

namespace Session

variable {host : Host} {σ σ₀ : Session} {s s₀ : HostState} {ids : List TensorId} {i buffer : Nat} {v : Value}
  {t : Tensor}

theorem held?_eq (ht : σ.tensors[i]? = some t) (hdata : t.data = some ⟨0, buffer⟩) (hruns : σ.platform.Runs s)
    (hlive : s.Live buffer v.buffer) : σ.held? i = some (⟨0, buffer⟩, v) := by
  obtain ⟨b, -, -, rfl⟩ := hruns.backend
  have hget : σ.platform.heap.get? buffer = some v.buffer := hlive.1
  simp [held?, ht, hdata, hget, Value.buffer]

/-- The tensors hold live buffers, none of them the same. -/
structure Materialized (σ : Session) (ids : List TensorId) (s : HostState) : Prop where
  runs : σ.platform.Runs s
  sound : s.Sound
  tensors : ∀ i ∈ ids, ∃ (buffer : Nat) (v : Value) (t : Tensor), σ.tensors[i]? = some t ∧
    t.data = some ⟨0, buffer⟩ ∧ t.flat = none ∧ t.shape = v.shape ∧ s.Live buffer v.buffer
  distinct : ∀ i ∈ ids, ∀ j ∈ ids, ∀ t t' : Tensor, σ.tensors[i]? = some t → σ.tensors[j]? = some t' →
    t.data = t'.data → i = j

theorem Materialized.follows (h : σ.Materialized ids s) : Follows σ.held? ids s.host.account.buffers [] [] σ s := by
  refine ⟨h.runs, h.sound, fun i hi => ?_, by simp [finalizedIds]⟩
  obtain ⟨buffer, v, t, ht, hdata, hflat, hshape, hlive⟩ := h.tensors i hi
  exact ⟨buffer, v, t, held?_eq ht hdata h.runs hlive, ht, hshape, h.sound.buffers buffer _ hlive.1,
    .unread hdata hflat hlive⟩

theorem Materialized.distinct_held? (h : σ.Materialized ids s) : Start.Distinct σ.held? ids := by
  intro i hi j hj held v w hheld hheld'
  obtain ⟨buffer, v', t, ht, hdata, -, -, hlive⟩ := h.tensors i hi
  obtain ⟨buffer', w', t', ht', hdata', -, -, hlive'⟩ := h.tensors j hj
  refine h.distinct i hi j hj t t' ht ht' ?_
  have hsame := hheld.symm.trans (held?_eq ht hdata h.runs hlive)
  have hsame' := hheld'.symm.trans (held?_eq ht' hdata' h.runs hlive')
  rw [hdata, hdata', ← (Prod.mk.inj (Option.some.inj hsame)).1, (Prod.mk.inj (Option.some.inj hsame')).1]

theorem materialized_evaluate (hσ : σ₀.Stands host s₀) (hw : σ₀.workspace.WellFormed) {graph : Option GraphId}
    {outputs : List Handle} (h : exec (SessionM.evaluate graph outputs) σ₀ = (.ok ids, σ)) :
    ∃ s, σ.Materialized ids s := by
  cases houtputs : σ₀.workspace.outputs graph outputs with
  | error e =>
    rw [SessionM.exec_evaluate, Workspace.run_evaluate_rejected houtputs] at h
    cases h
  | ok nodes =>
    obtain ⟨hne, gid, g, rfl, hg, -, hlt⟩ := Workspace.outputs_eq_ok_iff.mp houtputs
    have hwf := hw gid g hg
    have hlt' : ∀ a ∈ nodes, a < (g.pin nodes).size := fun a ha => by
      rw [Graph.size_pin]
      exact hlt a ha
    cases hfinal : s₀.host.finalized with
    | true =>
      obtain ⟨err, p', hexec, -⟩ := Evaluation.evaluate_finalized (hwf.pin nodes) hlt' hne hfinal hσ.at_
      rw [SessionM.exec_evaluate, Workspace.run_evaluate houtputs hg, hexec] at h
      cases h
    | false =>
      rcases SessionM.evaluate_cases (hσ.serves hfinal) hwf hg houtputs with
        ⟨e, s, σ', number, hexec, hserves, hruns, hschedule, htensors⟩ | ⟨err, s, σ', hexec, -⟩
      · rw [hexec] at h
        obtain ⟨hids, rfl⟩ := Prod.mk.inj h
        obtain rfl := Except.ok.inj hids
        refine ⟨s, hruns, hserves.serves.sound, fun i hi => ?_, fun i hi j hj t t' ht ht' hsame => ?_⟩
        · obtain ⟨a, ha, rfl⟩ := List.mem_map.mp hi
          obtain ⟨buffer, hheld, v, hlive, hshape, -⟩ := hschedule.held_output (hwf.pin nodes) ha (hlt' a ha)
          exact ⟨buffer, v, _, htensors a ha, hheld, rfl, hshape.symm, hlive⟩
        · -- different outputs are held in different buffers
          obtain ⟨a, ha, rfl⟩ := List.mem_map.mp hi
          obtain ⟨b, hb, rfl⟩ := List.mem_map.mp hj
          obtain rfl := Option.some.inj ((htensors a ha).symm.trans ht)
          obtain rfl := Option.some.inj ((htensors b hb).symm.trans ht')
          obtain ⟨buffer, hheld, -⟩ := hschedule.held_output (hwf.pin nodes) ha (hlt' a ha)
          have hheld' : e.held? b = some ⟨0, buffer⟩ := hsame.symm.trans hheld
          rw [(hschedule.distinct a b _ _ hheld hheld' rfl).resolve_right nofun]
      · rw [hexec] at h
        cases h

theorem materialized_buffer (hσ : σ₀.Stands host s₀) {ref : BufferRef}
    (h : exec (Origin.buffer ref).steps σ₀ = (.ok ids, σ)) : ∃ s, σ.Materialized ids s := by
  obtain ⟨p, hdevice, -, hruns⟩ := hσ.at_.forDevice_cpu
  have hbackend := SessionM.exec_platform (PlatformM.forDevice .cpu) σ₀
  rw [PlatformM.exec_forDevice, hdevice] at hbackend
  rw [Origin.steps, exec_bind_ok hbackend] at h
  have htensor := SessionM.exec_platform (Tensor.ofBuffer 0 ref) { σ₀ with platform := p }
  obtain ⟨p', hruns', ⟨e, herror⟩ | ⟨buffer, b, hlive, hok⟩⟩ := Tensor.exec_ofBuffer hruns ref
  · rw [herror] at htensor
    rw [exec_bind_error htensor] at h
    cases h
  · rw [hok] at htensor
    rw [exec_bind_ok htensor] at h
    obtain ⟨hids, rfl⟩ := Prod.mk.inj h
    obtain rfl := Except.ok.inj hids
    obtain ⟨shape, flat, finalized⟩ := b
    obtain rfl : finalized = false := hlive.2
    refine ⟨s₀, hruns', hσ.intact.sound, fun i hi => ?_, fun i hi j hj _ _ _ _ _ => ?_⟩
    · obtain rfl := mem_singleton.mp hi
      exact ⟨buffer, ⟨shape, flat⟩, _, Array.getElem?_push_size, rfl, rfl, rfl, hlive⟩
    · rw [mem_singleton.mp hi, mem_singleton.mp hj]

end Session

end LazyTensor
