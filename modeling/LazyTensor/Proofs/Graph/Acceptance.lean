import LazyTensor.Proofs.Evaluation.Session

/-!
# Which calls build nodes

In every session, exactly the calls that the rules allow are accepted (`Session.construction_exact`). A call that
is rejected changes nothing, and neither do outputs that are no nodes of the graph.
-/

namespace LazyTensor

open List Option

variable {graph : Option GraphId}

namespace Workspace

variable {w : Workspace} {handles : List Handle}

theorem ownedAll_eq_error (hinvalid : ∃ h ∈ handles, ∀ gid n, graph = some gid → ¬ w.IsNode gid h n) :
    ∃ reason, w.ownedAll graph handles = .error reason := by
  obtain ⟨h, hmem, hnone⟩ := hinvalid
  cases hall : w.ownedAll graph handles with
  | error reason => exact ⟨reason, rfl⟩
  | ok ids =>
    obtain ⟨gid, g, rfl, hg, rfl, hlt⟩ := (ownedAll_eq_ok_iff (ne_nil_of_mem hmem)).mp hall
    obtain ⟨id, hid, rfl⟩ := List.mem_map.mp hmem
    obtain ⟨n, hn⟩ := Graph.exists_node?_of_lt (hlt id hid)
    exact absurd ⟨g, id, hg, hn, rfl⟩ (hnone gid n rfl)

end Workspace

/-! ## Calls of a session -/

namespace SessionM

variable {s : Session} {w : Workspace}

theorem exec_construct_ok {c : Construction} {h : Handle} (hc : s.workspace.construct c = .ok (h, w)) :
    exec (construct c) s = (.ok h, { s with workspace := w }) := by
  rw [construct, exec_bind_ok (exec_get s), hc]
  rfl

theorem exec_construct_error {c : Construction} {e : ConstructionError} (hc : s.workspace.construct c = .error e) :
    exec (construct c) s = (.error (.of e), s) := by
  rw [construct, exec_bind_ok (exec_get s), hc]
  rfl

theorem exec_markOutputs_error {outputs : List Handle} {e : GraphError}
    (h : s.workspace.markOutputs graph outputs = .error e) :
    exec (markOutputs graph outputs) s = (.error (.of e), s) := by
  rw [markOutputs, exec_bind_ok (exec_get s), h]
  rfl

end SessionM

namespace Session

/-- Construction accepts exactly what the rules allow, and a call that is rejected changes nothing. Neither do
outputs among which a handle is none of a node of the graph. -/
theorem construction_exact (environment : Option String) (calls : List Call) :
    let s := run calls (start environment)
    (∀ c h s', exec (SessionM.construct c) s = (.ok h, s') ↔
      (∃ gid g n, s.workspace.Allows c gid g n ∧ h = some ⟨gid, g.size⟩ ∧
        s' = { s with workspace := s.workspace.setGraph gid (g.push n).2 }) ∨
      (s.workspace.KeepsType c h ∧ s' = s)) ∧
    (∀ c r s', exec (SessionM.construct c) s = (.error r, s') → r.kind = .construction ∧ s' = s) ∧
    (∀ graph outputs, (∃ h ∈ outputs, ∀ gid n, graph = some gid → ¬ s.workspace.IsNode gid h n) →
      (∃ r, exec (SessionM.markOutputs graph outputs) s = (.error r, s) ∧ r.kind = .construction) ∧
      (∃ r, exec (SessionM.evaluate graph outputs) s = (.error r, s) ∧ r.kind = .construction)) := by
  intro s
  have hw : s.workspace.WellFormed := wellFormed_run calls (wellFormed_start environment)
  refine ⟨fun c h s' => ⟨fun hc => ?_, ?_⟩, fun c r s' hc => ?_, fun graph outputs hinvalid => ?_⟩
  · cases hok : s.workspace.construct c with
    | error e =>
      rw [SessionM.exec_construct_error hok] at hc
      cases hc
    | ok built =>
      obtain ⟨h', w'⟩ := built
      rw [SessionM.exec_construct_ok hok] at hc
      cases hc
      rcases (Workspace.construct_eq_ok_iff hw).mp hok with ⟨gid, g, n, hallows, hpush⟩ | ⟨hkeeps, rfl⟩
      · cases hpush
        exact .inl ⟨gid, g, n, hallows, rfl, rfl⟩
      · exact .inr ⟨hkeeps, rfl⟩
  · rintro (⟨gid, g, n, hallows, rfl, rfl⟩ | ⟨hkeeps, rfl⟩)
    · exact SessionM.exec_construct_ok ((Workspace.construct_eq_ok_iff hw).mpr (.inl ⟨gid, g, n, hallows, rfl⟩))
    · exact SessionM.exec_construct_ok ((Workspace.construct_eq_ok_iff hw).mpr (.inr ⟨hkeeps, rfl⟩))
  · cases hok : s.workspace.construct c with
    | error e =>
      rw [SessionM.exec_construct_error hok] at hc
      cases hc
      exact ⟨rfl, rfl⟩
    | ok built =>
      rw [SessionM.exec_construct_ok hok] at hc
      cases hc
  · -- both calls resolve the handles first, with the same reason to reject them
    obtain ⟨reason, hreason⟩ := Workspace.ownedAll_eq_error hinvalid
    refine ⟨⟨.of (GraphError.construction ⟨"MarkOutputs", reason⟩), ?_, rfl⟩, ?_⟩
    · refine SessionM.exec_markOutputs_error ?_
      rw [Workspace.markOutputs, hreason]
    · have hrejected : s.workspace.outputs graph outputs = .error ⟨"Evaluate", reason⟩ := by
        obtain ⟨h, hmem, -⟩ := hinvalid
        rw [Workspace.outputs, List.isEmpty_eq_false_iff.mpr (List.ne_nil_of_mem hmem), hreason]
        rfl
      refine ⟨.of (EvaluationError.rejected ⟨"Evaluate", reason⟩), ?_, rfl⟩
      rw [SessionM.exec_evaluate, Workspace.run_evaluate_rejected hrejected]

/-- A matrix can be transposed, but not multiplied by itself, and there is no node after it. -/
theorem construction_exact_matrix :
    let s := run [.newGraph "g", .construct (.fill (some 0) .cpu ⟨.int32, [2, 3]⟩ .zero)] (start none)
    (∃ s', exec (SessionM.construct (.transpose (some ⟨0, 0⟩) [1, 0])) s = (.ok (some ⟨0, 1⟩), s')) ∧
    (∃ r, exec (SessionM.construct (.matMul (some ⟨0, 0⟩) (some ⟨0, 0⟩))) s = (.error r, s) ∧ r.kind = .construction) ∧
    (∃ r, exec (SessionM.evaluate (some 0) [some ⟨0, 0⟩, some ⟨0, 1⟩]) s = (.error r, s) ∧ r.kind = .construction) := by
  intro s
  obtain ⟨haccepts, hrejects, houtputs⟩ := construction_exact none
    [.newGraph "g", .construct (.fill (some 0) .cpu ⟨.int32, [2, 3]⟩ .zero)]
  let x : Node := ⟨.fill .zero, ⟨.int32, [2, 3]⟩, .cpu, []⟩
  let g : Graph := { name := "g", slots := #[{ node := x }] }
  refine ⟨⟨_, (haccepts _ _ _).mpr (.inl ⟨0, g, ⟨.transpose [1, 0], ⟨.int32, [3, 2]⟩, .cpu, [0]⟩, ?_, rfl, rfl⟩)⟩, ?_, ?_⟩
  · refine ⟨fun _ _ h => (by cases h), [(0, x)], ⟨rfl, rfl, ?_, ?_⟩, rfl, ?_⟩
    · intro p hp
      cases List.mem_singleton.mp hp
      rfl
    · intro p hp
      cases List.mem_singleton.mp hp
      rfl
    · exact .transpose _ ⟨by decide, rfl, rfl⟩
  · have hrejected : exec (SessionM.construct (.matMul (some ⟨0, 0⟩) (some ⟨0, 0⟩))) s = (.error _, _) := rfl
    obtain ⟨hkind, hs⟩ := hrejects _ _ _ hrejected
    exact ⟨_, rfl, hkind⟩
  · refine (houtputs (some 0) [some ⟨0, 0⟩, some ⟨0, 1⟩] ⟨some ⟨0, 1⟩, by simp, ?_⟩).2
    rintro gid n - ⟨g, id, hg, hn, heq⟩
    cases heq
    cases hg
    cases hn

end Session

end LazyTensor
