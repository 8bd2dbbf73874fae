import LazyTensor.Evaluation
import LazyTensor.Proofs.Exec

/-!
# The host of a platform

In a session the only backend that is ever made is the one of the host, when it is first asked for: the
constructor for graphics processors always fails. So the platform is at every time `At` one state of the
host, and steps on the backend are steps from that state.
-/

namespace LazyTensor

namespace Platform

variable {host : Host} {p p' : Platform} {s : HostState} {device : Device}

/-- The backends of the library, a configuration for which there is a host, and no other devices. -/
structure Standard (host : Host) (p : Platform) : Prop where
  registrations_eq : p.registry.registrations = Registry.standard.registrations
  configured : Host.ofConfiguration (p.registry.configuration Host.name) = .ok host
  others_fail : ∀ (device : Device) (result : Except RegistryError BackendId), device ≠ .cpu →
    p.registry.instances.lookup device = some result → ∃ e, result = .error e ∧ Failure.kind e ≠ .abort

/-- The backend of the host is made and is the only one, with its host and heap in a state. -/
structure Runs (p : Platform) (s : HostState) : Prop where
  found : p.registry.instances.lookup .cpu = some (.ok 0)
  backend : ∃ b, p.backends = #[b] ∧ b.device = .cpu ∧ s = ⟨b.host, p.heap⟩

/-- The backend of the host is not made yet; it will be in the state. -/
structure Unmade (host : Host) (p : Platform) (s : HostState) : Prop where
  missing : p.registry.instances.lookup .cpu = none
  backends_eq : p.backends = #[]
  state_eq : s = ⟨host, p.heap⟩

/-- The state of the host of a platform, made or not. -/
structure At (host : Host) (p : Platform) (s : HostState) : Prop where
  standard : Standard host p
  state : Unmade host p s ∨ Runs p s

/-- What the host counts, if it is made or not. -/
def account (host : Host) (p : Platform) : Account := ((p.host? 0).getD host).account

theorem At.account_eq (h : At host p s) : p.account host = s.host.account := by
  rcases h.state with hunmade | hruns
  · rw [account, host?, hunmade.backends_eq, hunmade.state_eq]
    rfl
  · obtain ⟨b, hb, -, rfl⟩ := hruns.backend
    rw [account, host?, hb]
    rfl

theorem Runs.of_at (h : Runs p s) (hat : At host p' s) (hbackends : p'.backends = p.backends) : Runs p' s := by
  rcases hat.state with hunmade | hruns
  · obtain ⟨b, hb, -⟩ := h.backend
    rw [hunmade.backends_eq, hb] at hbackends
    cases hbackends
  · exact hruns

theorem Standard.congr (h : Standard host p) (hregistry : p'.registry = p.registry) : Standard host p' := by
  constructor
  · rw [hregistry]
    exact h.registrations_eq
  · rw [hregistry]
    exact h.configured
  · rw [hregistry]
    exact h.others_fail

/-! ## Backends of devices -/

theorem ofShader_fails (device : Device) (configuration : String) :
    ∃ e, Backend.ofShader device configuration = .error e ∧ Failure.kind e ≠ .abort := by
  simp only [Backend.ofShader]
  split
  · exact ⟨_, rfl, fun h => by cases h⟩
  · cases Shader.DeviceOptions.parse configuration with
    | error e => exact ⟨_, rfl, fun h => by cases h⟩
    | ok options =>
      split
      · exact ⟨_, rfl, fun h => by cases h⟩
      · exact ⟨_, rfl, fun h => by cases h⟩

theorem Standard.registration? (h : Standard host p) (kind : DeviceKind) :
    p.registry.registration? kind =
      if kind = .gpu then some ⟨Shader.backendName, Backend.ofShader, false⟩
      else if kind = .cpu then some ⟨Host.name, Backend.ofHost, false⟩ else none := by
  have hlist : Registry.standard.registrations = [(.gpu, ⟨Shader.backendName, Backend.ofShader, false⟩),
      (.cpu, ⟨Host.name, Backend.ofHost, false⟩)] := rfl
  rw [Registry.registration?, h.registrations_eq, hlist]
  by_cases hgpu : kind = .gpu
  · subst hgpu
    rfl
  · by_cases hcpu : kind = .cpu
    · subst hcpu
      rfl
    · have hgpu' : (kind == .gpu) = false := by simpa using hgpu
      have hcpu' : (kind == .cpu) = false := by simpa using hcpu
      rw [List.lookup_cons, hgpu', List.lookup_cons, hcpu', if_neg hgpu, if_neg hcpu]
      rfl

theorem At.forDevice_cpu (h : At host p s) :
    ∃ p', p.forDevice .cpu = (.ok 0, p') ∧ Standard host p' ∧ Runs p' s := by
  have hregistration : p.registry.registration? Device.cpu.kind = some ⟨Host.name, Backend.ofHost, false⟩ := by
    rw [h.standard.registration?]
    rfl
  have hok : ¬ (!Device.cpu.ok) = true := by decide
  rw [forDevice, hregistration]
  rcases h.state with hunmade | hruns
  · have hhost : Backend.ofHost .cpu (p.registry.configuration Host.name) =
        .ok ⟨Host.name, .cpu, host, p.registry.configuration Host.name, false⟩ := by
      rw [Backend.ofHost, h.standard.configured]
      rfl
    simp only [hunmade.missing, construct, hhost, addBackend, hunmade.backends_eq]
    refine ⟨_, rfl, ⟨h.standard.registrations_eq, h.standard.configured, fun device result hne hlookup => ?_⟩,
      ⟨rfl, _, rfl, rfl, hunmade.state_eq⟩⟩
    have hother : (device == Device.cpu) = false := by simpa using hne
    rw [List.lookup_cons, hother] at hlookup
    exact h.standard.others_fail device result hne hlookup
  · rw [hruns.found]
    exact ⟨p, rfl, h.standard, hruns⟩

theorem At.remember (h : At host p s) (hne : device ≠ .cpu) {e : RegistryError} (hkind : Failure.kind e ≠ .abort)
    (calls : List ConstructorCall) :
    At host { p with registry := { p.registry with
      instances := (device, .error e) :: p.registry.instances, calls } } s := by
  have hcpu : (Device.cpu == device) = false := by simpa using fun heq => hne heq.symm
  have hlookup : List.lookup Device.cpu ((device, .error e) :: p.registry.instances) =
      p.registry.instances.lookup .cpu := by rw [List.lookup_cons, hcpu]
  refine ⟨⟨h.standard.registrations_eq, h.standard.configured, fun d result hd hfound => ?_⟩, ?_⟩
  · by_cases hsame : d = device
    · have hresult : List.lookup d ((device, .error e) :: p.registry.instances) = some (.error e) := by
        rw [List.lookup_cons, hsame, beq_self_eq_true]
      exact ⟨e, (Option.some.inj (hresult.symm.trans hfound)).symm, hkind⟩
    · have hother : (d == device) = false := by simpa using hsame
      rw [List.lookup_cons, hother] at hfound
      exact h.standard.others_fail d result hd hfound
  · rcases h.state with hunmade | hruns
    · exact .inl ⟨hlookup.trans hunmade.missing, hunmade.backends_eq, hunmade.state_eq⟩
    · exact .inr ⟨hlookup.trans hruns.found, hruns.backend⟩

/-- A device that is not the CPU has no backend, and asking for it changes nothing on the host. -/
theorem At.forDevice_other (h : At host p s) (hne : device ≠ .cpu) :
    ∃ e p', p.forDevice device = (.error e, p') ∧ Failure.kind e ≠ .abort ∧ At host p' s ∧
      p'.backends = p.backends := by
  rw [forDevice]
  by_cases hok : device.ok = true
  · have hcpu : device.kind ≠ .cpu := by
      intro hkind
      have hindex : device.index = 0 := by simpa [Device.ok, Device.isCPU, hkind] using hok
      exact hne (by rw [Device.cpu, ← hkind, ← hindex])
    rw [if_neg (by simp [hok]), h.standard.registration?]
    split
    · exact ⟨_, p, rfl, nofun, h, rfl⟩
    · rename_i registration hregistration
      -- other devices have the backend of shaders, which can not be made
      obtain rfl : registration = ⟨Shader.backendName, Backend.ofShader, false⟩ := by
        split at hregistration
        · exact (Option.some.inj hregistration).symm
        · cases hregistration
      cases hlookup : p.registry.instances.lookup device with
      | some result =>
        obtain ⟨e, rfl, hkind⟩ := h.standard.others_fail device result hne hlookup
        exact ⟨e, p, rfl, hkind, h, rfl⟩
      | none =>
        obtain ⟨e, he, hkind⟩ := ofShader_fails device (p.registry.configuration Shader.backendName)
        simp only [construct, he]
        exact ⟨_, _, rfl, hkind, h.remember hne hkind _, rfl⟩
  · rw [if_pos (by simpa using hok)]
    exact ⟨_, p, rfl, nofun, h, rfl⟩

end Platform

namespace PlatformM

open Platform

variable {host : Host} {p : Platform} {s : HostState} {ε α : Type}

theorem exec_forDevice (device : Device) (p : Platform) :
    exec (forDevice device) p = p.forDevice device := by
  rw [forDevice, exec_bind_ok (exec_get p)]
  rcases p.forDevice device with ⟨result, p'⟩
  rw [exec_bind_ok (exec_set p p'), exec_ofExcept]

theorem exec_onHost (h : Runs p s) (x : HostM ε α) :
    ∃ p', exec (onHost 0 x) p = ((exec x s).1, p') ∧ Runs p' (exec x s).2 ∧ p'.registry = p.registry := by
  obtain ⟨b, hbackends, hdevice, rfl⟩ := h.backend
  have hhost : (p.host? 0).getD { workers := .withParallelism 0, minParallel := 0, account := { limit := 0 } } =
      b.host := by
    rw [Platform.host?, hbackends]
    rfl
  rw [onHost, exec_bind_ok (exec_get p), hhost]
  rcases hx : exec x ⟨b.host, p.heap⟩ with ⟨result, s'⟩
  have hrun : (ExceptT.run x).run ⟨b.host, p.heap⟩ = (result, s') := hx
  simp only [hrun]
  refine ⟨_, rfl, ⟨h.found, { b with host := s'.host }, ?_, hdevice, rfl⟩, rfl⟩
  simp [Platform.setHost, hbackends]

end PlatformM

end LazyTensor
