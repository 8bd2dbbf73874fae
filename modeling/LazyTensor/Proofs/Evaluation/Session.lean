import LazyTensor.Proofs.Evaluation.Evaluate
import LazyTensor.Proofs.Host.Reach
import LazyTensor.Proofs.Run

/-!
# Evaluation in a session

Whatever calls a session has seen, its host can be used. So evaluation, and reading the tensors that it gives,
yields the values of the outputs if the graph determines them and the host has no limit of memory, and it fails
if one of them has no value.
-/

namespace LazyTensor

/-! ## The host of a session -/

namespace Session

/-- The host of a session is in a state with its memory intact, and has the buffers of all tensors. -/
structure Stands (host : Host) (σ : Session) (s : HostState) : Prop where
  at_ : σ.platform.At host s
  intact : HostM.Intact host.account.limit s
  tensors : ∀ (i : Nat) (t : Tensor) (held : Held), σ.tensors[i]? = some t → t.data = some held →
    held.backend = 0 ∧ σ.platform.Runs s

/-- The host of a session can be used, and has the buffers of all tensors. -/
structure Serves (host : Host) (σ : Session) (s : HostState) : Prop where
  at_ : σ.platform.At host s
  serves : s.Serves host
  tensors : ∀ (i : Nat) (t : Tensor) (held : Held), σ.tensors[i]? = some t → t.data = some held →
    held.backend = 0 ∧ σ.platform.Runs s

variable {host : Host}

theorem Serves.stands {σ : Session} {s : HostState} (h : σ.Serves host s) : σ.Stands host s :=
  ⟨h.at_, ⟨h.serves.sound, h.serves.limit_eq⟩, h.tensors⟩

theorem Stands.serves {σ : Session} {s : HostState} (h : σ.Stands host s) (hfinal : s.host.finalized = false) :
    σ.Serves host s :=
  ⟨h.at_, ⟨h.intact.sound, h.intact.limit_eq, hfinal⟩, h.tensors⟩

theorem serves_start {environment : Option String}
    (hhost : Host.ofConfiguration ((start environment).platform.registry.configuration Host.name) = .ok host) :
    (start environment).Serves host ⟨host, {}⟩ := by
  obtain ⟨-, -, hfinalized, -⟩ := Host.ofConfiguration_eq_ok hhost
  refine ⟨⟨⟨rfl, hhost, fun device result _ hlookup => nomatch hlookup⟩, .inl ⟨rfl, rfl, rfl⟩⟩,
    ⟨HostState.sound_configured hhost, rfl, hfinalized⟩, fun i t held ht => ?_⟩
  simp [start] at ht

end Session

/-! ## Outputs -/

namespace Workspace

variable {w : Workspace} {gid : Nat} {g : Graph} {handles : List Handle} {ids : List NodeId}

theorem outputs_eq_ok_iff {graph : Option GraphId} :
    w.outputs graph handles = .ok ids ↔ ids ≠ [] ∧ ∃ gid g, graph = some gid ∧ w.graph? gid = some g ∧
      handles = ids.map (fun id => some ⟨gid, (id : Nat)⟩) ∧ ∀ id : Nat, id ∈ ids → id < g.size := by
  cases handles with
  | nil =>
    refine ⟨nofun, ?_⟩
    rintro ⟨hne, gid, g, -, -, hnil, -⟩
    exact absurd (List.map_eq_nil_iff.mp hnil.symm) hne
  | cons handle handles =>
    have hne : handle :: handles ≠ [] := List.cons_ne_nil _ _
    rw [outputs, List.isEmpty_cons, if_neg Bool.false_ne_true, mapError_eq_ok_iff, ownedAll_eq_ok_iff hne]
    refine ⟨fun h => ⟨?_, h⟩, fun h => h.2⟩
    rintro rfl
    obtain ⟨gid, g, -, -, hnil, -⟩ := h
    exact hne hnil

theorem outputs_of_graph? (hg : w.graph? gid = some g) (h : w.outputs (some gid) handles = .ok ids) :
    ids ≠ [] ∧ ∀ id : Nat, id ∈ ids → id < g.size := by
  obtain ⟨hne, gid', g', hgid', hg', -, hlt⟩ := outputs_eq_ok_iff.mp h
  obtain rfl := Option.some.inj hgid'
  obtain rfl := Option.some.inj (hg.symm.trans hg')
  exact ⟨hne, hlt⟩

theorem outputs_setGraph {g' : Graph} (hg : w.graph? gid = some g) (hsize : g'.size = g.size)
    (hids : w.outputs (some gid) handles = .ok ids) : (w.setGraph gid g').outputs (some gid) handles = .ok ids := by
  obtain ⟨hne, gid', g₀, hgid, hg₀, hhandles, hlt⟩ := outputs_eq_ok_iff.mp hids
  obtain rfl := Option.some.inj hgid
  obtain rfl := Option.some.inj (hg.symm.trans hg₀)
  have hg' : (w.setGraph gid g').graph? gid = some g' := by rw [graph?_setGraph hg, if_pos rfl]
  exact outputs_eq_ok_iff.mpr ⟨hne, gid, g', rfl, hg', hhandles, fun id hid => hsize ▸ hlt id hid⟩

theorem run_evaluate_rejected {graph : Option GraphId} {e : ConstructionError}
    (h : w.outputs graph handles = .error e) (p : Platform) :
    (w.evaluate graph handles).run p = ((.error (.rejected e), w), p) := by
  rw [evaluate, h]
  rfl

theorem run_evaluate (hids : w.outputs (some gid) handles = .ok ids) (hg : w.graph? gid = some g) (p : Platform) :
    (w.evaluate (some gid) handles).run p =
      (((exec ((g.pin ids).evaluate ids) p).1.map (·, ids), w.setGraph gid (g.pin ids)),
        (exec ((g.pin ids).evaluate ids) p).2) := by
  rw [evaluate, hids]
  simp only [Option.bind_some, hg]
  rfl

end Workspace

/-! ## Evaluation -/

namespace SessionM

open Evaluation

variable {σ : Session} {s : HostState} {host : Host} {gid : Nat} {g : Graph} {handles : List Handle}
  {ids : List NodeId}

private theorem lookup_numbered {α β : Type} [BEq α] [LawfulBEq α] (l : List α) (value : α → β) (start : Nat) {a : α}
    (ha : a ∈ l) :
    ((l.map fun a => (a, value a)).mapIdx fun i p => (p.1, start + i)).lookup a = some (start + l.idxOf a) := by
  induction l generalizing start with
  | nil => cases ha
  | cons b l ih =>
    have hnext : (fun (i : Nat) (p : α × β) => (p.1, start + (i + 1))) = fun i p => (p.1, start + 1 + i) := by
      funext i p
      rw [Nat.add_comm i 1, Nat.add_assoc]
    rw [List.map_cons, List.mapIdx_cons, hnext, List.lookup_cons, List.idxOf_cons]
    by_cases hab : a = b
    · subst hab
      simp
    · have hab' : (a == b) = false := by simpa using hab
      have hba : (b == a) = false := by simpa using fun h => hab h.symm
      rw [hab', hba, ih (start + 1) ((List.mem_cons.mp ha).resolve_left hab)]
      simp only [cond_false]
      congr 1
      omega

private theorem filterMap_eq_map {α β : Type} {l : List α} {f : α → Option β} {f' : α → β}
    (h : ∀ a ∈ l, f a = some (f' a)) : l.filterMap f = l.map f' := by
  induction l with
  | nil => rfl
  | cons a l ih =>
    rw [List.filterMap_cons_some (h a (.head _)), ih fun b hb => h b (List.mem_cons_of_mem a hb)]
    rfl

/-- A session that evaluates has a tensor for each output, or a node that failed. -/
theorem evaluate_cases (hσ : σ.Serves host s) (hwf : g.WellFormed) (hg : σ.workspace.graph? gid = some g)
    (hids : σ.workspace.outputs (some gid) handles = .ok ids) :
    (∃ e s' σ' number, exec (evaluate (some gid) handles) σ = (.ok (ids.map number), σ') ∧ σ'.Serves host s' ∧
      σ'.platform.Runs s' ∧ Schedule (g.pin ids) ids s.host.account (g.pin ids).size [] none e s' ∧
      ∀ id ∈ ids, σ'.tensors[number id]? = some (tensorOf (g.pin ids) e id)) ∨
    (∃ err s' σ', exec (evaluate (some gid) handles) σ = (.error (.of err), σ') ∧ σ'.Serves host s' ∧
      Failed (g.pin ids) ids host err) := by
  obtain ⟨hne, hlt⟩ := Workspace.outputs_of_graph? hg hids
  have hwf' := hwf.pin ids
  have hevaluated := evaluated hwf' (fun id hid => by rw [Graph.size_pin]; exact hlt id hid) hne hσ.at_ hσ.serves
  rw [exec_evaluate, Workspace.run_evaluate hids hg]
  rcases hrun : exec ((g.pin ids).evaluate ids) σ.platform with ⟨result, p'⟩
  rw [hrun] at hevaluated
  cases hevaluated with
  | error err _ s' hat hserves hruns _ hfailed =>
    refine .inr ⟨err, s', _, rfl, ⟨hat, hserves, fun i t held ht hdata => ?_⟩, hfailed⟩
    obtain ⟨hbackend, hruns₀⟩ := hσ.tensors i t held ht hdata
    exact ⟨hbackend, hruns hruns₀⟩
  | ok e _ s' hstandard hruns hserves hschedule =>
    -- each distinct output becomes a tensor, numbered after those that exist
    let number (id : Nat) : Nat := σ.tensors.size + ids.eraseDups.idxOf id
    let tensors := σ.tensors ++ ((ids.eraseDups.map fun id => (id, tensorOf (g.pin ids) e id)).map (·.2)).toArray
    have hnumbers : ids.filterMap (fun id => (((ids.eraseDups.map fun id => (id, tensorOf (g.pin ids) e id)).mapIdx
        fun i p => (p.1, σ.tensors.size + i)).lookup id)) = ids.map number := by
      exact filterMap_eq_map fun id hid => lookup_numbered _ _ _ (List.mem_eraseDups.mpr hid)
    refine .inl ⟨e, s', { σ with platform := p', workspace := σ.workspace.setGraph gid (g.pin ids), tensors }, number,
      Prod.ext (congrArg Except.ok hnumbers) rfl, ⟨⟨hstandard, .inr hruns⟩, hserves, fun i t held ht hdata => ⟨?_, hruns⟩⟩,
      hruns, hschedule, fun id hid => ?_⟩
    · -- a tensor was there before, or is the one of an output
      simp only [tensors, Array.getElem?_append] at ht
      split at ht
      · exact (hσ.tensors i t held ht hdata).1
      · rw [List.map_map, List.getElem?_toArray, List.getElem?_map] at ht
        obtain ⟨id, hid, rfl⟩ := Option.map_eq_some_iff.mp ht
        exact hschedule.backend_eq id held hdata
    · have hmem : id ∈ ids.eraseDups := List.mem_eraseDups.mpr hid
      have hlt : ids.eraseDups.idxOf id < ids.eraseDups.length := List.idxOf_lt_length_of_mem hmem
      rw [Array.getElem?_append_right (Nat.le_add_right ..), Nat.add_sub_cancel_left, List.map_map,
        List.getElem?_toArray, List.getElem?_map, List.getElem?_eq_getElem hlt, List.getElem_idxOf hlt]
      rfl

end SessionM

/-! ## Every run keeps the host -/

namespace Session

variable {σ σ' : Session} {s : HostState} {host : Host}

theorem Stands.congr (h : σ.Stands host s) (hplatform : σ'.platform = σ.platform) (htensors : σ'.tensors = σ.tensors) :
    σ'.Stands host s := by
  constructor
  · rw [hplatform]
    exact h.at_
  · exact h.intact
  · rw [hplatform, htensors]
    exact h.tensors

/-- Evaluation keeps the memory of the host intact. -/
theorem Stands.evaluate (h : σ.Stands host s) (hw : σ.workspace.WellFormed) (graph : Option GraphId)
    (handles : List Handle) : ∃ s', (exec (SessionM.evaluate graph handles) σ).2.Stands host s' ∧
      s'.host.finalized = s.host.finalized := by
  cases hids : σ.workspace.outputs graph handles with
  | error e =>
    rw [SessionM.exec_evaluate, Workspace.run_evaluate_rejected hids]
    exact ⟨s, h.congr rfl rfl, rfl⟩
  | ok ids =>
    obtain ⟨hne, gid, g, rfl, hg, -, hlt⟩ := Workspace.outputs_eq_ok_iff.mp hids
    have hwf := hw gid g hg
    cases hfinal : s.host.finalized with
    | true =>
      obtain ⟨err, p', hexec, hat', hruns'⟩ := Evaluation.evaluate_finalized (hwf.pin ids)
        (fun id hid => by rw [Graph.size_pin]; exact hlt id hid) hne hfinal h.at_
      rw [SessionM.exec_evaluate, Workspace.run_evaluate hids hg, hexec]
      refine ⟨s, ⟨hat', h.intact, fun i t held ht hdata => ?_⟩, hfinal⟩
      obtain ⟨hbackend, hruns⟩ := h.tensors i t held ht hdata
      exact ⟨hbackend, hruns' hruns⟩
    | false =>
      rcases SessionM.evaluate_cases (h.serves hfinal) hwf hg hids with
        ⟨e, s', σ', number, hexec, hserves, -⟩ | ⟨err, s', σ', hexec, hserves, -⟩
      · exact ⟨s', by rw [hexec]; exact hserves.stands, hserves.serves.finalized_eq⟩
      · exact ⟨s', by rw [hexec]; exact hserves.stands, hserves.serves.finalized_eq⟩

theorem Stands.finalize (h : σ.Stands host s) {i : Nat} {t : Tensor} (ht : σ.tensors[i]? = some t) :
    ∃ s', Stands host { σ with
      platform := (t.finalize.run σ.platform).2
      tensors := σ.tensors.setIfInBounds i (t.finalize.run σ.platform).1 } s' ∧
      s'.host.finalized = s.host.finalized := by
  have hnothing : (t.finalize.run σ.platform).1.data = none := by
    rw [Tensor.finalize]
    cases t.data <;> rfl
  -- the tensor holds nothing any more, and the others are as they were
  have htensors : ∀ (j : Nat) (t' : Tensor) (held : Held),
      (σ.tensors.setIfInBounds i (t.finalize.run σ.platform).1)[j]? = some t' → t'.data = some held →
      σ.tensors[j]? = some t' := by
    intro j t' held ht' hdata
    rw [Array.getElem?_setIfInBounds] at ht'
    split at ht'
    · split at ht'
      · obtain rfl := Option.some.inj ht'
        rw [hnothing] at hdata
        cases hdata
      · exact nomatch ht'
    · exact ht'
  cases hdata : t.data with
  | none =>
    have hplatform : (t.finalize.run σ.platform).2 = σ.platform := by
      rw [Tensor.finalize, hdata]
      rfl
    refine ⟨s, ⟨?_, h.intact, fun j t' held ht' hdata' => ?_⟩, rfl⟩
    · show Platform.At host (t.finalize.run σ.platform).2 s
      rw [hplatform]
      exact h.at_
    · rw [hplatform]
      exact h.tensors j t' held (htensors j t' held ht' hdata') hdata'
  | some held =>
    obtain ⟨backend, buffer⟩ := held
    obtain ⟨hbackend, hruns⟩ := h.tensors i t _ ht hdata
    obtain rfl : backend = 0 := hbackend
    obtain ⟨p', hexec, hruns', hregistry⟩ := PlatformM.exec_onHost hruns (HostM.finalizeBuffer (.host buffer))
    obtain ⟨hsound, hframe⟩ := HostM.finalizeBuffer_frame h.intact.sound buffer
    have hplatform : (t.finalize.run σ.platform).2 = p' := by
      rw [Tensor.finalize, hdata]
      exact congrArg Prod.snd hexec
    refine ⟨_, ⟨?_, ⟨hsound, hframe.limit_eq.trans h.intact.limit_eq⟩, fun j t' held ht' hdata' => ?_⟩, hframe.finalized_eq⟩
    · show Platform.At host (t.finalize.run σ.platform).2 _
      rw [hplatform]
      exact ⟨h.at_.standard.congr hregistry, .inr hruns'⟩
    · rw [hplatform]
      exact ⟨(h.tensors j t' held (htensors j t' held ht' hdata') hdata').1, hruns'⟩

/-- Every call keeps the memory of the host intact. -/
theorem Stands.after (h : σ.Stands host s) (hw : σ.workspace.WellFormed) (c : Call) :
    ∃ s', (σ.after c).Stands host s' ∧ s'.host.finalized = s.host.finalized := by
  cases c with
  | newGraph name => exact ⟨s, h.congr rfl rfl, rfl⟩
  | construct c =>
    -- only the workspace changes
    refine ⟨s, ?_, rfl⟩
    simp only [Session.after, Call.steps, SessionM.construct]
    rw [bind_assoc, exec_bind_ok (exec_get σ)]
    cases σ.workspace.construct c <;> exact h.congr rfl rfl
  | markOutputs graph outputs =>
    refine ⟨s, ?_, rfl⟩
    simp only [Session.after, Call.steps, SessionM.markOutputs]
    rw [exec_bind_ok (exec_get σ)]
    cases σ.workspace.markOutputs graph outputs <;> exact h.congr rfl rfl
  | evaluate graph outputs =>
    obtain ⟨s', hs', hfinal⟩ := h.evaluate hw graph outputs
    refine ⟨s', ?_, hfinal⟩
    rcases hexec : exec (SessionM.evaluate graph outputs) σ with ⟨result, σ'⟩
    rw [hexec] at hs'
    simp only [Session.after, Call.steps]
    cases result with
    | error e =>
      rw [exec_bind_error hexec]
      exact hs'
    | ok ids =>
      rw [exec_bind_ok hexec]
      exact hs'
  | optimize graph =>
    refine ⟨s, ?_, rfl⟩
    simp only [Session.after, Call.steps, SessionM.optimize]
    rw [bind_assoc, exec_bind_ok (exec_get σ)]
    cases σ.workspace.graph graph <;> exact h.congr rfl rfl
  | finalizeTensor id =>
    have hexec := SessionM.exec_finalizeTensor id σ
    simp only [Session.after, Call.steps]
    cases hid : id.bind fun id => σ.tensors[id]?.map (id, ·) with
    | none =>
      simp only [hid] at hexec
      rw [exec_bind_ok hexec]
      exact ⟨s, h, rfl⟩
    | some found =>
      simp only [hid] at hexec
      rw [exec_bind_ok hexec]
      obtain ⟨i', -, hi'⟩ := Option.bind_eq_some_iff.mp hid
      obtain ⟨t', ht', heq⟩ := Option.map_eq_some_iff.mp hi'
      obtain ⟨rfl, rfl⟩ := Prod.mk.inj heq
      exact h.finalize ht'

theorem Serves.run (h : σ.Serves host s) (hw : σ.workspace.WellFormed) (calls : List Call) :
    ∃ s', (Session.run calls σ).Serves host s' := by
  induction calls generalizing σ s with
  | nil => exact ⟨s, h⟩
  | cons c calls ih =>
    obtain ⟨s', hs', hfinal⟩ := h.stands.after hw c
    have hw' : (σ.after c).workspace.WellFormed := by
      rw [workspace_after]
      exact hw.after c
    exact ih (hs'.serves (hfinal.trans h.serves.finalized_eq)) hw'

end Session

end LazyTensor
