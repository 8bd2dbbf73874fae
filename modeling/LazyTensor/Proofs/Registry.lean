import LazyTensor.Proofs.Host.Memory
import LazyTensor.Registry
import Mathlib.Data.List.Basic

/-!
# One backend per device

Constructors are registered, configurations set, backends asked for and all of them finalized, in any order. Between two
finalizations a device has one instance at most: the first call for it after its kind was registered runs the
constructor, and later calls answer as that one did (`Platform.remembered_afterCalls`). A backend has a new number, which
the next finalization gives up.
-/

namespace LazyTensor

open List Option

/-! ## Calls -/

/-- A call on the backends of all devices. -/
inductive RegistryCall where
  | register (kind : DeviceKind) (registration : Registration)
  | configure (name configuration : String)
  | forDevice (device : Device)
  | finalizeAll

/-- The constructor that a call registers for a kind. -/
def RegistryCall.registers? (kind : DeviceKind) : RegistryCall → Option Registration
  | .register k registration => if kind = k then some registration else none
  | _ => none

/-- The configuration that a call sets for a name. -/
def RegistryCall.configures? (name : String) : RegistryCall → Option String
  | .configure n configuration => if name = n then some configuration else none
  | _ => none

/-- The constructor of a kind after calls: the one registered last. -/
def inForce (registrations : List (DeviceKind × Registration)) (calls : List RegistryCall) (kind : DeviceKind) :
    Option Registration :=
  (calls.reverse.findSome? (·.registers? kind)).or (registrations.lookup kind)

/-- The configuration of a name after calls: the one set last, or else the one in the environment. -/
def configurationInForce (environment : Option String) (calls : List RegistryCall) (name : String) : String :=
  (calls.reverse.findSome? (·.configures? name)).getD (({ environment } : Registry).configuration name)

/-- A backend whose resources are released. -/
def Backend.finalize (b : Backend) : Backend := { b with host := b.host.finalize }

namespace Platform

/-- A platform before any call. -/
def ofRegistrations (registrations : List (DeviceKind × Registration)) (environment : Option String) : Platform :=
  { registry := { registrations, environment } }

def afterCall (p : Platform) : RegistryCall → Platform
  | .register kind registration => { p with registry := p.registry.register kind registration }
  | .configure name configuration => { p with registry := p.registry.setConfiguration name configuration }
  | .forDevice device => (p.forDevice device).2
  | .finalizeAll => p.finalizeAll

def afterCalls (p : Platform) (calls : List RegistryCall) : Platform := calls.foldl afterCall p

/-- The backends that are finalized during calls, in order. -/
def finalizations (p : Platform) : List RegistryCall → List BackendId
  | [] => []
  | .finalizeAll :: calls => p.madeForDevices ++ finalizations p.finalizeAll calls
  | c :: calls => finalizations (p.afterCall c) calls

/-- What the constructor of a device gave, if it was called. -/
def remembered (p : Platform) (device : Device) : Option (Except RegistryError BackendId) :=
  p.registry.instances.lookup device

def constructions (p : Platform) (device : Device) : List ConstructorCall :=
  p.registry.calls.filter (·.device = device)

variable {p : Platform} {c : RegistryCall} {calls : List RegistryCall} {device : Device} {registration : Registration}
  {result : Except RegistryError BackendId} {id : BackendId}

theorem afterCalls_append (p : Platform) (calls calls' : List RegistryCall) :
    p.afterCalls (calls ++ calls') = (p.afterCalls calls).afterCalls calls' := foldl_append

/-! ## Single calls -/

theorem registry_foldl_finalizeBackend (ids : List BackendId) (p : Platform) :
    (ids.foldl finalizeBackend p).registry = p.registry := by
  induction ids generalizing p with
  | nil => rfl
  | cons id ids ih => exact ih _

theorem registry_finalizeAll (p : Platform) : p.finalizeAll.registry = { p.registry with instances := [] } := by
  rw [finalizeAll, registry_foldl_finalizeBackend]

/-- What a call for a device does: nothing, or a construction if there is a constructor and no instance. -/
theorem forDevice_cases (p : Platform) (device : Device) :
    (p.forDevice device).2 = p ∨ ∃ r, p.registry.registration? device.kind = some r ∧ p.remembered device = none ∧
      p.forDevice device = p.construct device r := by
  rw [forDevice, remembered]
  split
  · exact .inl rfl
  · split
    · exact .inl rfl
    · rename_i r hr
      split
      · exact .inl rfl
      · exact .inr ⟨r, hr, ‹_›, rfl⟩

theorem registry_forDevice (p : Platform) (device : Device) :
    ∃ instances calls, (p.forDevice device).2.registry = { p.registry with instances, calls } := by
  obtain hsame | ⟨r, -, -, hconstruct⟩ := p.forDevice_cases device
  · exact ⟨_, _, congrArg registry hsame⟩
  · rw [hconstruct, construct]
    cases r.construct device (p.registry.configuration r.name) <;> exact ⟨_, _, rfl⟩

theorem registration?_afterCall (p : Platform) (c : RegistryCall) (kind : DeviceKind) :
    (p.afterCall c).registry.registration? kind = (c.registers? kind).or (p.registry.registration? kind) := by
  cases c with
  | register k registration =>
    rw [afterCall, Registry.register, Registry.registration?, Registry.setEntry, lookup_cons]
    by_cases hkind : kind = k
    · simp [RegistryCall.registers?, hkind]
    · have hother : (kind == k) = false := by simpa using hkind
      simp [RegistryCall.registers?, hkind, hother, lookup_filter _ _ _ hkind, Registry.registration?]
  | configure name configuration => rfl
  | finalizeAll => rw [afterCall, registry_finalizeAll]; rfl
  | forDevice device =>
    obtain ⟨instances, calls, h⟩ := p.registry_forDevice device
    rw [afterCall, h]
    rfl

theorem configuration_afterCall (p : Platform) (c : RegistryCall) (name : String) :
    (p.afterCall c).registry.configuration name = (c.configures? name).getD (p.registry.configuration name) := by
  cases c with
  | register k registration => rfl
  | configure n configuration =>
    rw [afterCall, Registry.setConfiguration, Registry.configuration, Settings.insert, Settings.get?, lookup_append,
      Settings.erase]
    by_cases hname : name = n
    · have hgone : lookup n (p.registry.overrides.filter (·.1 != n)) = none := by
        refine lookup_eq_none_iff.mpr fun q hq => ?_
        have hne : q.1 ≠ n := by simpa using (mem_filter.mp hq).2
        simpa using hne.symm
      simp [RegistryCall.configures?, hname, hgone]
    · have hother : (name == n) = false := by simpa using hname
      simp [RegistryCall.configures?, hname, lookup_filter _ _ _ hname, lookup_cons, hother, Registry.configuration,
        Settings.get?]
  | finalizeAll => rw [afterCall, registry_finalizeAll]; rfl
  | forDevice device =>
    obtain ⟨instances, calls, h⟩ := p.registry_forDevice device
    rw [afterCall, h]
    rfl

theorem registration?_afterCalls (registrations : List (DeviceKind × Registration)) (environment : Option String)
    (calls : List RegistryCall) (kind : DeviceKind) :
    ((ofRegistrations registrations environment).afterCalls calls).registry.registration? kind =
      inForce registrations calls kind := by
  induction calls using reverseRecOn with
  | nil => rfl
  | append_singleton calls c ih =>
    rw [afterCalls_append]
    refine (registration?_afterCall _ c kind).trans ?_
    rw [ih, inForce, inForce, reverse_concat, findSome?_cons]
    cases c.registers? kind <;> rfl

theorem configuration_afterCalls (registrations : List (DeviceKind × Registration)) (environment : Option String)
    (calls : List RegistryCall) (name : String) :
    ((ofRegistrations registrations environment).afterCalls calls).registry.configuration name =
      configurationInForce environment calls name := by
  induction calls using reverseRecOn with
  | nil => rfl
  | append_singleton calls c ih =>
    rw [afterCalls_append]
    refine (configuration_afterCall _ c name).trans ?_
    rw [ih, configurationInForce, configurationInForce, reverse_concat, findSome?_cons]
    cases c.configures? name <;> rfl

theorem isSome_registration?_afterCalls {kind : DeviceKind} (h : (p.registry.registration? kind).isSome = true)
    (calls : List RegistryCall) : ((p.afterCalls calls).registry.registration? kind).isSome = true := by
  induction calls generalizing p with
  | nil => exact h
  | cons c calls ih =>
    refine ih ?_
    rw [registration?_afterCall, isSome_or, h, Bool.or_true]

/-- What a call does to instances, constructions and backends: it keeps them, or it constructs a backend for a device that
has none, or it finalizes all. -/
theorem afterCall_cases (p : Platform) (c : RegistryCall) :
    ((p.afterCall c).registry.instances = p.registry.instances ∧ (p.afterCall c).registry.calls = p.registry.calls ∧
      (p.afterCall c).backends = p.backends) ∨
    (∃ device r, c = .forDevice device ∧ p.registry.registration? device.kind = some r ∧ p.remembered device = none ∧
      p.afterCall c = (p.construct device r).2) ∨
    c = .finalizeAll := by
  cases c with
  | register | configure => exact .inl ⟨rfl, rfl, rfl⟩
  | finalizeAll => exact .inr (.inr rfl)
  | forDevice device =>
    obtain hsame | ⟨r, hr, hnone, hconstruct⟩ := p.forDevice_cases device
    · refine .inl ⟨?_, ?_, ?_⟩ <;> rw [afterCall, hsame]
    · exact .inr (.inl ⟨device, r, rfl, hr, hnone, congrArg Prod.snd hconstruct⟩)

theorem construct_spec (p : Platform) (device : Device) (r : Registration) :
    let configuration := p.registry.configuration r.name
    (p.construct device r).2.registry.instances = (device, (p.construct device r).1) :: p.registry.instances ∧
    (p.construct device r).2.registry.calls = p.registry.calls ++ [⟨device, r.name, configuration, r.custom⟩] ∧
    (∀ e, r.construct device configuration = .error e →
      (p.construct device r).1 = .error (.failed r.name device configuration e) ∧
        (p.construct device r).2.backends = p.backends) ∧
    (∀ b, r.construct device configuration = .ok b →
      (p.construct device r).1 = .ok p.backends.size ∧ (p.construct device r).2.backends = p.backends.push b) := by
  dsimp only
  rw [construct]
  refine ⟨?_, ?_, fun e h => ?_, fun b h => ?_⟩
  · cases r.construct device (p.registry.configuration r.name) <;> rfl
  · cases r.construct device (p.registry.configuration r.name) <;> rfl
  · simp [h]
  · simp [h, addBackend]

/-! ## Instances between two finalizations -/

theorem forDevice_of_remembered (hok : device.ok = true)
    (hr : (p.registry.registration? device.kind).isSome = true) (h : p.remembered device = some result) :
    (p.forDevice device).1 = result := by
  obtain ⟨r, hr⟩ := isSome_iff_exists.mp hr
  rw [remembered] at h
  simp [forDevice, hok, hr, h]

theorem forDevice_of_remembered_none (hok : device.ok = true)
    (hr : p.registry.registration? device.kind = some registration) (h : p.remembered device = none) :
    p.forDevice device = p.construct device registration := by
  rw [remembered] at h
  simp [forDevice, hok, hr, h]

theorem forDevice_of_notRegistered (hok : device.ok = true) (h : p.registry.registration? device.kind = none) :
    (p.forDevice device).1 = .error (.notRegistered device.kind) := by
  simp [forDevice, hok, h]

/-- A call changes nothing for a device that has an instance, or that is not asked for while it has a constructor. -/
theorem remembered_afterCall (hc : c ≠ .finalizeAll) (h : c = .forDevice device →
      p.registry.registration? device.kind = none ∨ ∃ result, p.remembered device = some result) :
    (p.afterCall c).remembered device = p.remembered device ∧
      (p.afterCall c).constructions device = p.constructions device := by
  obtain ⟨hinstances, hcalls, -⟩ | ⟨d, r, rfl, hr, hnone, hconstruct⟩ | rfl := p.afterCall_cases c
  · rw [remembered, constructions, hinstances, hcalls]
    exact ⟨rfl, rfl⟩
  · have hne : d ≠ device := by
      rintro rfl
      rcases h rfl with h | ⟨result, h⟩
      · rw [hr] at h
        cases h
      · rw [hnone] at h
        cases h
    obtain ⟨hinstances, hcalls, -⟩ := p.construct_spec d r
    have hother : (device == d) = false := by simpa using hne.symm
    rw [remembered, constructions, hconstruct, hinstances, hcalls, lookup_cons, hother]
    exact ⟨rfl, by simp [constructions, hne]⟩
  · exact absurd rfl hc

theorem remembered_afterCalls (hcalls : .finalizeAll ∉ calls) (h : (∃ result, p.remembered device = some result) ∨
      ∀ early late, calls = early ++ .forDevice device :: late →
        (p.afterCalls early).registry.registration? device.kind = none) :
    (p.afterCalls calls).remembered device = p.remembered device ∧
      (p.afterCalls calls).constructions device = p.constructions device := by
  induction calls generalizing p with
  | nil => exact ⟨rfl, rfl⟩
  | cons c calls ih =>
    rw [mem_cons, not_or] at hcalls
    have hstep : (p.afterCall c).remembered device = p.remembered device ∧
        (p.afterCall c).constructions device = p.constructions device :=
      remembered_afterCall (Ne.symm hcalls.1) fun hc => h.elim .inr fun h => .inl (h [] calls (by rw [hc]; rfl))
    obtain ⟨hrest, hrest'⟩ := ih (p := p.afterCall c) hcalls.2 <| h.imp
      (fun ⟨result, h⟩ => ⟨result, hstep.1.trans h⟩) fun h early late heq => h (c :: early) late (by rw [heq]; rfl)
    exact ⟨hrest.trans hstep.1, hrest'.trans hstep.2⟩

/-! ## Numbers of backends -/

/-- Instances have numbers of different backends. -/
structure Numbered (p : Platform) : Prop where
  nodup : p.madeForDevices.Nodup
  lt : ∀ id ∈ p.madeForDevices, id < p.backends.size

theorem madeForDevices_finalizeAll (p : Platform) : p.finalizeAll.madeForDevices = [] := by
  rw [madeForDevices, registry_finalizeAll]
  rfl

theorem getElem?_foldl_finalizeBackend (ids : List BackendId) (p : Platform) (id : BackendId) :
    (ids.foldl finalizeBackend p).backends[id]? = p.backends[id]?.map Backend.finalize^[ids.count id] := by
  induction ids generalizing p with
  | nil => simp
  | cons i ids ih =>
    rw [foldl_cons, ih, finalizeBackend, Array.getElem?_modify, count_cons]
    by_cases hi : i = id
    · simp only [hi, beq_self_eq_true, if_true, Option.map_map, Function.iterate_succ]
      rfl
    · simp [hi]

theorem size_finalizeAll (p : Platform) : p.finalizeAll.backends.size = p.backends.size := by
  have hsize : ∀ (ids : List BackendId) (p : Platform), (ids.foldl finalizeBackend p).backends.size = p.backends.size := by
    intro ids
    induction ids with
    | nil => exact fun _ => rfl
    | cons id ids ih => exact fun p => (ih _).trans (by simp [finalizeBackend])
  exact hsize _ p

theorem made_afterCall (p : Platform) (hc : c ≠ .finalizeAll) :
    ((p.afterCall c).madeForDevices = p.madeForDevices ∧ (p.afterCall c).backends = p.backends) ∨
    ((p.afterCall c).madeForDevices = p.backends.size :: p.madeForDevices ∧
      ∃ b, (p.afterCall c).backends = p.backends.push b) := by
  obtain ⟨hinstances, -, hbackends⟩ | ⟨device, r, -, -, -, hconstruct⟩ | h := p.afterCall_cases c
  · rw [madeForDevices, hinstances, hbackends]
    exact .inl ⟨rfl, rfl⟩
  · obtain ⟨hinstances, -, herror, hok⟩ := p.construct_spec device r
    rw [hconstruct, madeForDevices, hinstances, filterMap_cons]
    cases hr : r.construct device (p.registry.configuration r.name) with
    | error e =>
      rw [(herror e hr).1]
      exact .inl ⟨rfl, (herror e hr).2⟩
    | ok b =>
      rw [(hok b hr).1]
      exact .inr ⟨rfl, b, (hok b hr).2⟩
  · exact absurd h hc

theorem Numbered.afterCall (h : p.Numbered) (c : RegistryCall) : (p.afterCall c).Numbered := by
  by_cases hc : c = .finalizeAll
  · subst hc
    have hmade : (p.afterCall .finalizeAll).madeForDevices = [] := p.madeForDevices_finalizeAll
    exact ⟨hmade ▸ nodup_nil, fun id hid => by rw [hmade] at hid; cases hid⟩
  · obtain ⟨hmade, hbackends⟩ | ⟨hmade, b, hbackends⟩ := p.made_afterCall hc
    · exact ⟨hmade ▸ h.nodup, by rw [hmade, hbackends]; exact h.lt⟩
    · refine ⟨?_, fun id hid => ?_⟩
      · rw [hmade, nodup_cons]
        exact ⟨fun hmem => Nat.lt_irrefl _ (h.lt _ hmem), h.nodup⟩
      · rw [hbackends, Array.size_push]
        rw [hmade, mem_cons] at hid
        rcases hid with rfl | hid
        · exact Nat.lt_succ_self _
        · exact Nat.lt_succ_of_lt (h.lt id hid)

theorem Numbered.afterCalls (h : p.Numbered) (calls : List RegistryCall) : (p.afterCalls calls).Numbered := by
  induction calls generalizing p with
  | nil => exact h
  | cons c calls ih => exact ih (h.afterCall c)

theorem finalizations_cons (p : Platform) (c : RegistryCall) (calls : List RegistryCall) :
    p.finalizations (c :: calls) = p.finalizations [c] ++ (p.afterCall c).finalizations calls := by
  cases c <;> simp [finalizations, afterCall]

theorem finalizations_append (p : Platform) (calls calls' : List RegistryCall) :
    p.finalizations (calls ++ calls') = p.finalizations calls ++ (p.afterCalls calls).finalizations calls' := by
  induction calls generalizing p with
  | nil => rfl
  | cons c calls ih =>
    rw [cons_append, finalizations_cons, ih, finalizations_cons p c calls, append_assoc]
    rfl

theorem finalizations_eq_nil (h : .finalizeAll ∉ calls) : p.finalizations calls = [] := by
  induction calls generalizing p with
  | nil => rfl
  | cons c calls ih =>
    rw [mem_cons, not_or] at h
    rw [finalizations_cons, ih h.2, append_nil]
    cases c with
    | finalizeAll => exact absurd rfl h.1
    | _ => rfl

theorem getElem?_backends_afterCall (hid : id < p.backends.size) (c : RegistryCall) :
    (p.afterCall c).backends[id]? = p.backends[id]?.map Backend.finalize^[(p.finalizations [c]).count id] ∧
      id < (p.afterCall c).backends.size := by
  by_cases hc : c = .finalizeAll
  · subst hc
    have hfinalized : p.finalizations [.finalizeAll] = p.madeForDevices := append_nil _
    rw [hfinalized, afterCall, size_finalizeAll]
    exact ⟨getElem?_foldl_finalizeBackend _ p id, hid⟩
  · rw [finalizations_eq_nil (by simpa using Ne.symm hc)]
    obtain ⟨-, hbackends⟩ | ⟨-, b, hbackends⟩ := p.made_afterCall hc
    · rw [hbackends]
      exact ⟨by simp, hid⟩
    · rw [hbackends, Array.getElem?_push_lt hid, Array.size_push]
      exact ⟨by simp [hid], Nat.lt_succ_of_lt hid⟩

theorem getElem?_backends_afterCalls (hid : id < p.backends.size) (calls : List RegistryCall) :
    (p.afterCalls calls).backends[id]? = p.backends[id]?.map Backend.finalize^[(p.finalizations calls).count id] ∧
      id < (p.afterCalls calls).backends.size := by
  induction calls generalizing p with
  | nil => exact ⟨by simp [finalizations, afterCalls], hid⟩
  | cons c calls ih =>
    obtain ⟨hget, hlt⟩ := getElem?_backends_afterCall hid c
    obtain ⟨hget', hlt'⟩ := ih hlt
    refine ⟨?_, hlt'⟩
    rwa [finalizations_cons, List.count_append, Nat.add_comm, Function.iterate_add, ← Option.map_map, ← hget]

theorem notMem_finalizations (hid : id < p.backends.size) (h : id ∉ p.madeForDevices) (calls : List RegistryCall) :
    id ∉ p.finalizations calls := by
  induction calls generalizing p with
  | nil => exact not_mem_nil
  | cons c calls ih =>
    rw [finalizations_cons, mem_append, not_or]
    by_cases hc : c = .finalizeAll
    · subst hc
      refine ⟨fun hmem => h (append_nil p.madeForDevices ▸ hmem), ih (getElem?_backends_afterCall hid _).2 ?_⟩
      rw [afterCall, madeForDevices_finalizeAll]
      exact not_mem_nil
    · rw [finalizations_eq_nil (by simpa using Ne.symm hc)]
      refine ⟨not_mem_nil, ih (getElem?_backends_afterCall hid c).2 ?_⟩
      obtain ⟨hmade, -⟩ | ⟨hmade, -⟩ := p.made_afterCall hc
      · rwa [hmade]
      · rw [hmade, mem_cons, not_or]
        exact ⟨Nat.ne_of_lt hid, h⟩

theorem lt_of_mem_finalizations (h : p.Numbered) (hid : id ∈ p.finalizations calls) :
    id < (p.afterCalls calls).backends.size := by
  induction calls generalizing p with
  | nil => cases hid
  | cons c calls ih =>
    rw [finalizations_cons, mem_append] at hid
    rcases hid with hid | hid
    · cases c with
      | finalizeAll =>
        have hlt := h.lt id ((append_nil p.madeForDevices) ▸ hid)
        exact (getElem?_backends_afterCalls hlt (.finalizeAll :: calls)).2
      | _ => cases hid
    · exact ih (h.afterCall c) hid

theorem count_finalizations (h : p.Numbered) (hid : id ∈ p.madeForDevices) (calls : List RegistryCall) :
    (p.finalizations (.finalizeAll :: calls)).count id = 1 := by
  have hrest := notMem_finalizations (p := p.finalizeAll) (by rw [size_finalizeAll]; exact h.lt id hid)
    (by rw [madeForDevices_finalizeAll]; exact not_mem_nil) calls
  rw [finalizations, List.count_append, count_eq_one_of_mem h.nodup hid, count_eq_zero_of_not_mem hrest]

theorem mem_madeForDevices (h : p.remembered device = some (.ok id)) : id ∈ p.madeForDevices := by
  obtain ⟨before, after, hinstances, -⟩ := lookup_eq_some_iff.mp h
  rw [madeForDevices, hinstances]
  simp [Except.toOption]

/-! ## One backend per device -/

section Constructed

variable (hok : device.ok = true) (hr : p.registry.registration? device.kind = some registration)
  (hnone : p.remembered device = none) (hcalls : .finalizeAll ∉ calls)

include hok hr hnone hcalls

/-- The first call for a device that has a constructor runs it, and no later one does. -/
theorem constructed_afterCalls :
    (p.afterCalls (.forDevice device :: calls)).remembered device = some (p.forDevice device).1 ∧
    (p.afterCalls (.forDevice device :: calls)).constructions device = p.constructions device ++
      [⟨device, registration.name, p.registry.configuration registration.name, registration.custom⟩] := by
  have huse := forDevice_of_remembered_none hok hr hnone
  obtain ⟨hinstances, hlog, -⟩ := p.construct_spec device registration
  have hfirst : (p.afterCall (.forDevice device)).remembered device = some (p.forDevice device).1 := by
    rw [afterCall, huse, remembered, hinstances, lookup_cons, beq_self_eq_true]
  obtain ⟨hlast, hkept⟩ := remembered_afterCalls hcalls (.inl ⟨_, hfirst⟩)
  refine ⟨hlast.trans hfirst, hkept.trans ?_⟩
  rw [afterCall, huse, constructions, hlog, filter_append]
  simp [constructions]

theorem forDevice_afterCalls :
    ((p.afterCalls (.forDevice device :: calls)).forDevice device).1 = (p.forDevice device).1 :=
  forDevice_of_remembered hok (isSome_registration?_afterCalls (by rw [hr]; rfl) _)
    (constructed_afterCalls hok hr hnone hcalls).1

/-- A backend has the next number, and it is finalized once, by the next finalization. -/
theorem finalized_afterCalls (hp : p.Numbered) {b : Backend}
    (hb : registration.construct device (p.registry.configuration registration.name) = .ok b) :
    let q := p.afterCalls (.forDevice device :: calls)
    (p.forDevice device).1 = .ok p.backends.size ∧ p.finalizations (.forDevice device :: calls) = [] ∧
    q.backends[p.backends.size]? = some b ∧
    ∀ rest, (q.finalizations (.finalizeAll :: rest)).count p.backends.size = 1 ∧
      (q.afterCalls (.finalizeAll :: rest)).backends[p.backends.size]? = some b.finalize := by
  intro q
  have huse := forDevice_of_remembered_none hok hr hnone
  obtain ⟨hresult, hbackends⟩ := (p.construct_spec device registration).2.2.2 b hb
  have hanswer : (p.forDevice device).1 = .ok p.backends.size := (congrArg Prod.fst huse).trans hresult
  have hpush : (p.afterCall (.forDevice device)).backends = p.backends.push b := by rw [afterCall, huse, hbackends]
  have hnew : p.backends.size < (p.afterCall (.forDevice device)).backends.size := by simp [hpush]
  obtain ⟨hget, hlt⟩ := getElem?_backends_afterCalls hnew calls
  rw [finalizations_eq_nil hcalls, hpush, Array.getElem?_push_size] at hget
  have hremembered := (constructed_afterCalls hok hr hnone hcalls).1
  rw [hanswer] at hremembered
  refine ⟨hanswer, finalizations_eq_nil (by simpa using hcalls), hget, fun rest => ?_⟩
  have hcount := count_finalizations (hp.afterCalls _) (mem_madeForDevices hremembered) rest
  refine ⟨hcount, ?_⟩
  refine (getElem?_backends_afterCalls hlt (.finalizeAll :: rest)).1.trans ?_
  rw [hget]
  exact congrArg (fun n => some (Backend.finalize^[n] b)) hcount

end Constructed

theorem remembered_eq_none {before : List RegistryCall} (registrations : List (DeviceKind × Registration))
    (environment : Option String) (h : before = [] ∨ before.getLast? = some .finalizeAll) (device : Device) :
    ((ofRegistrations registrations environment).afterCalls before).remembered device = none := by
  rcases h with rfl | h
  · rfl
  · obtain ⟨calls, rfl⟩ := getLast?_eq_some_iff.mp h
    rw [afterCalls_append, remembered]
    exact congrArg (lookup device) (congrArg Registry.instances (registry_finalizeAll _))

end Platform

end LazyTensor
