import LazyTensor.Proofs.Evaluation.Safety

/-!
# Evaluation leaks nothing

The host counts its live buffers and their bytes. If the elements of all nodes fit in memory, then each failure of an
evaluation leaves the counts as they were, whether it comes from the outputs, a device, the limit of memory, a
division by zero or a host that is finalized. After a success the host counts one buffer more for each output.
-/

namespace LazyTensor

theorem Stop.IsClean.kind_ne {cause : Stop} (h : cause.IsClean) : cause.kind ≠ .abort := by
  cases cause with
  | abort reason => exact h.elim
  | _ => exact nofun

namespace Evaluation

open Graph HostState Platform

variable {g : Graph} {outputs : List Nat} {base : Account} {e : Evaluation} {s : HostState} {host : Host}
  {p : Platform} {n : Node} {k : Nat}

/-! ## Failures -/

theorem FailedAt.isClean {cause : Stop} (h : FailedAt g host k n cause) (hwf : g.WellFormed) (hall : g.Allocatable)
    (hn : g.node? k = some n) : cause.IsClean := by
  rcases h with ⟨-, shape, reason, rfl⟩ | hcause
  · exact trivial
  · obtain ⟨values, hvalues, hsound, hcause⟩ := hcause (hall.determined hwf)
    obtain ⟨-, position, rfl⟩ := exists_position_of_causes hwf hall hn hvalues hsound hcause
    exact trivial

theorem Failed.isClean {err : EvaluationError} (h : Failed g outputs host err) (hwf : g.WellFormed)
    (hall : g.Allocatable) : err.IsClean := by
  obtain ⟨j, n, hn, -, hcpu, hother⟩ := h.cause
  by_cases hdevice : n.device = .cpu
  · obtain ⟨cause, rfl, hat⟩ := hcpu hdevice
    have hclean := hat.isClean hwf hall hn
    refine ⟨hclean.kind_ne, ?_⟩
    intro graph id n' op output cause' heq
    cases heq
    exact hclean
  · exact hother hdevice

/-! ## Counts -/

theorem Schedule.adds_outputs (h : Schedule g outputs base g.size [] none e s) (hwf : g.WellFormed)
    (houtputs : ∀ id ∈ outputs, id < g.size) : base.Adds s.host.account (outputs.eraseDups.map g.shapeOf) := by
  apply h.balance.adds
  refine ⟨nodup_eraseDups outputs, fun j => ?_⟩
  rw [List.mem_eraseDups, owns_none]
  constructor
  · intro hj
    obtain ⟨buffer, hheld, -⟩ := h.held_output hwf hj (houtputs j hj)
    rw [hheld]
    rfl
  · intro hj
    obtain ⟨held, hheld⟩ := Option.isSome_iff_exists.mp hj
    have hlt : j < g.size := by
      rw [← h.size_held]
      exact lt_size_of_held? hheld
    obtain ⟨-, -, hmem | hpending⟩ := (h.held_iff j hlt).mp hj
    · exact hmem
    · rw [pending_eq_zero_of_le (Nat.le_refl _)] at hpending
      exact absurd hpending (Nat.lt_irrefl 0)

theorem adds_evaluate (hwf : g.WellFormed) (hall : g.Allocatable) (houtputs : ∀ id ∈ outputs, id < g.size)
    (hne : outputs ≠ []) (hat : p.At host s) (hs : s.Sound) (hlimit : s.host.account.limit = host.account.limit) :
    ∃ s', (exec (g.evaluate outputs) p).2.At host s' ∧
      s.host.account.Adds s'.host.account (match (exec (g.evaluate outputs) p).1 with
        | .ok _ => outputs.eraseDups.map g.shapeOf
        | .error _ => []) := by
  cases hfinal : s.host.finalized with
  | true =>
    obtain ⟨err, p', hexec, hat', -⟩ := evaluate_finalized hwf houtputs hne hfinal hat
    rw [hexec]
    exact ⟨s, hat', s.host.account.adds_nil⟩
  | false =>
    have hevaluated := evaluated hwf houtputs hne hat ⟨hs, hlimit, hfinal⟩
    rcases hexec : exec (g.evaluate outputs) p with ⟨result, p'⟩
    rw [hexec] at hevaluated
    cases hevaluated with
    | ok e _ s' hstandard hruns _ hschedule =>
      exact ⟨s', ⟨hstandard, .inr hruns⟩, hschedule.adds_outputs hwf houtputs⟩
    | error err _ s' hat' _ _ hkept hfailed =>
      exact ⟨s', hat', s.host.account.adds_nil.congr (hkept (hfailed.isClean hwf hall))⟩

end Evaluation

/-! ## Evaluations of a session -/

theorem Shape.Valid.memory_eq {shape : Shape} (h : shape.Valid) : shape.memory = .ok shape.footprint := by
  obtain ⟨t, ht⟩ := Option.isSome_iff_exists.mp h.supported
  have hbytes : ∃ bytes, shape.dtype.bytes = .ok bytes := by
    rw [DType.eq_dtype ht]
    cases t <;> exact ⟨_, rfl⟩
  obtain ⟨bytes, hbytes⟩ := hbytes
  have hmemory : ∃ n, shape.memory = .ok n := by
    rw [Shape.memory, hbytes]
    exact ⟨_, rfl⟩
  obtain ⟨n, hn⟩ := hmemory
  rw [Shape.footprint, hn]

/-- What a program does: a call on the session, or one on the host itself. -/
inductive Event where
  | call (c : Call)
  | host (c : HostCall)

namespace Session

open Evaluation

/-- The session after a call on the host, which is made if it is not there yet. -/
def afterHost (σ : Session) (c : HostCall) : Session :=
  let steps : PlatformM RegistryError Unit := do
    let backend ← PlatformM.forDevice .cpu
    PlatformM.onHost backend (modify (·.after c))
  { σ with platform := (exec steps σ.platform).2 }

/-- The session after an event. -/
def next (σ : Session) : Event → Session
  | .call c => σ.after c
  | .host c => σ.afterHost c

/-- The session after events, in any order. -/
def replay (events : List Event) (σ : Session) : Session := events.foldl next σ

variable {host : Host} {σ : Session} {s : HostState}

theorem Stands.afterHost (h : σ.Stands host s) (c : HostCall) : (σ.afterHost c).Stands host (s.after c) := by
  obtain ⟨p, hdevice, hstandard, hruns⟩ := h.at_.forDevice_cpu
  obtain ⟨p', hexec, hruns', hregistry⟩ :=
    PlatformM.exec_onHost hruns (modify (·.after c) : HostM RegistryError Unit)
  have hplatform : (σ.afterHost c).platform = p' := by
    rw [Session.afterHost, exec_bind_ok ((PlatformM.exec_forDevice _ _).trans hdevice), hexec]
  refine ⟨?_, HostState.intact_after h.intact c, fun i t held ht hdata => ⟨(h.tensors i t held ht hdata).1, ?_⟩⟩
  · rw [hplatform]
    exact ⟨hstandard.congr hregistry, .inr hruns'⟩
  · rwa [hplatform]

theorem Stands.replay (h : σ.Stands host s) (hw : σ.workspace.WellFormed) (events : List Event) :
    (Session.replay events σ).workspace.WellFormed ∧ ∃ s', (Session.replay events σ).Stands host s' := by
  induction events generalizing σ s with
  | nil => exact ⟨hw, s, h⟩
  | cons event events ih =>
    cases event with
    | call c =>
      obtain ⟨s', hs', -⟩ := h.after hw c
      have hw' : (σ.after c).workspace.WellFormed := by
        rw [workspace_after]
        exact hw.after c
      exact ih hs' hw'
    | host c => exact ih (h.afterHost c) hw

end Session

end LazyTensor
