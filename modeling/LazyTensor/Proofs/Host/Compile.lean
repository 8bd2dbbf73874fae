import LazyTensor.Proofs.Host.Reach

/-!
# Kernels are compiled once

Kernels are found by the signatures of programs, and a program that is found is not validated again. Signatures
determine programs, so that after any calls of `HostM.compile` the cache holds the accepted programs, each under
its own signature (`KernelCache.Compiled`): no call is given the kernel of another program, and no rejected
program is found there. The compilations that are counted are then one for each of the accepted programs and
one for each call that was rejected.
-/

namespace LazyTensor

open List Option

open HostM (kernelOf compile)

/-- Whether the host compiles a program. -/
def Program.compiles (p : Program) : Bool := p.validate.isOk && p.dtype.isSupported

/-- The different programs among the calls that the host compiles. -/
def Program.accepted (calls : List Program) : List Program := (calls.filter Program.compiles).eraseDups

/-- The calls with a program that the host does not compile. -/
def Program.rejected (calls : List Program) : List Program := calls.filter (!·.compiles)

namespace Program

variable {p : Program} {calls : List Program}

theorem compiles_iff : p.compiles = true ↔ p.validate = .ok () ∧ p.dtype.isSupported = true := by
  cases hvalid : p.validate <;> simp [compiles, hvalid, Except.toBool]

theorem kernelOf_of_compiles (h : p.compiles = true) : kernelOf p = .ok p :=
  HostM.kernelOf_eq_ok_iff.mpr ⟨rfl, compiles_iff.mp h⟩

theorem kernelOf_of_not_compiles (h : p.compiles = false) : ∃ e, kernelOf p = .error e := by
  cases hkernel : kernelOf p with
  | error e => exact ⟨e, rfl⟩
  | ok q =>
    rw [compiles_iff.mpr (HostM.kernelOf_eq_ok_iff.mp hkernel).2] at h
    cases h

theorem mem_accepted : p ∈ accepted calls ↔ p ∈ calls ∧ p.compiles = true := by
  simp [accepted]

theorem accepted_concat :
    accepted (calls ++ [p]) =
      if p.compiles = true ∧ p ∉ accepted calls then accepted calls ++ [p] else accepted calls := by
  rw [accepted, filter_append, eraseDups_append, ← accepted]
  cases hp : p.compiles with
  | false => simp [hp]
  | true => by_cases hmem : p ∈ calls <;> simp [hp, hmem, mem_accepted, removeAll, eraseDups_cons]

theorem rejected_concat :
    (rejected (calls ++ [p])).length = (rejected calls).length + if p.compiles then 0 else 1 := by
  rw [rejected, filter_append, ← rejected]
  cases hp : p.compiles <;> simp [hp]

end Program

/-! ## The cache after calls -/

/-- The cache after calls: the accepted programs in the order of their first calls, with the number of
compilations. -/
structure KernelCache.Compiled (c : KernelCache Program) (calls : List Program) : Prop where
  entries_eq : c.entries = (Program.accepted calls).map fun p => (p.signature, p)
  compilations_eq : c.compilations = (Program.accepted calls).length + (Program.rejected calls).length

namespace KernelCache.Compiled

variable {c : KernelCache Program} {calls : List Program}

theorem sound (h : c.Compiled calls) : c.Sound := by
  intro entry hentry
  rw [h.entries_eq] at hentry
  obtain ⟨p, hp, rfl⟩ := List.mem_map.mp hentry
  exact ⟨rfl, Program.kernelOf_of_compiles (Program.mem_accepted.mp hp).2⟩

theorem find?_eq (h : c.Compiled calls) (p : Program) :
    c.find? p.signature = if p ∈ Program.accepted calls then some p else none := by
  cases hfind : c.find? p.signature with
  | some q =>
    obtain ⟨rfl, hkernel⟩ := HostM.find?_signature h.sound hfind
    obtain ⟨entry, hentry, rfl⟩ := map_eq_some_iff.mp hfind
    have hmem := mem_of_find?_eq_some hentry
    rw [h.entries_eq] at hmem
    obtain ⟨p, hp, rfl⟩ := List.mem_map.mp hmem
    rw [if_pos hp]
  | none =>
    rw [if_neg]
    intro hp
    have hentry : (p.signature, p) ∈ c.entries := by
      rw [h.entries_eq]
      exact List.mem_map_of_mem hp
    rw [find?, map_eq_none_iff, find?_eq_none] at hfind
    simpa using hfind _ hentry

/-- A program that compiles is given back, and compiled only if it is new. -/
theorem get_accepted (h : c.Compiled calls) {p : Program} (hp : p.compiles = true) :
    ∃ c', c.get p.signature (fun cache => (kernelOf p, cache)) = (.ok p, c') ∧ c'.Compiled (calls ++ [p]) := by
  have hrejected : (Program.rejected (calls ++ [p])).length = (Program.rejected calls).length := by
    simp [Program.rejected_concat, hp]
  rw [get, h.find?_eq]
  by_cases hmem : p ∈ Program.accepted calls
  · have haccepted : Program.accepted (calls ++ [p]) = Program.accepted calls := by
      simp [Program.accepted_concat, hmem]
    -- the kernel is found, and nothing changes
    rw [if_pos hmem]
    refine ⟨c, rfl, ?_, ?_⟩
    · rw [haccepted, h.entries_eq]
    · rw [haccepted, hrejected, h.compilations_eq]
  · have haccepted : Program.accepted (calls ++ [p]) = Program.accepted calls ++ [p] := by
      simp [Program.accepted_concat, hp, hmem]
    have hfind : KernelCache.find? { c with compilations := c.compilations + 1 } p.signature = none := by
      show c.find? p.signature = none
      rw [h.find?_eq, if_neg hmem]
    -- the kernel is new, and is stored after the others
    rw [if_neg hmem]
    simp only [Program.kernelOf_of_compiles hp, store, hfind]
    refine ⟨_, rfl, ?_, ?_⟩
    · rw [haccepted, map_append, h.entries_eq]
      rfl
    · simp only [haccepted, h.compilations_eq, length_append, length_singleton]
      omega

theorem get_rejected (h : c.Compiled calls) {p : Program} (hp : p.compiles = false) :
    ∃ e c', c.get p.signature (fun cache => (kernelOf p, cache)) = (.error e, c') ∧ c'.Compiled (calls ++ [p]) := by
  have hmem : p ∉ Program.accepted calls := by
    simp [Program.mem_accepted, hp]
  have haccepted : Program.accepted (calls ++ [p]) = Program.accepted calls := by
    simp [Program.accepted_concat, hp]
  obtain ⟨e, he⟩ := Program.kernelOf_of_not_compiles hp
  rw [get, h.find?_eq, if_neg hmem]
  simp only [he]
  refine ⟨_, _, rfl, ?_, ?_⟩
  · rw [haccepted, ← h.entries_eq]
  · simp only [haccepted, Program.rejected_concat, hp, h.compilations_eq]
    rfl

end KernelCache.Compiled

/-! ## Sequences of calls -/

namespace HostState

/-- The state after programs were compiled, whether they were accepted or not. -/
def compileEach (s : HostState) (calls : List Program) : HostState :=
  calls.foldl (fun s p => (exec (compile p) s).2) s

variable {s : HostState} {calls : List Program} {p : Program}

theorem compiled_compile (h : s.host.kernels.Compiled calls) (p : Program) :
    (exec (compile p) s).2.host.kernels.Compiled (calls ++ [p]) := by
  cases hp : p.compiles with
  | true =>
    obtain ⟨kernels, hget, hcompiled⟩ := h.get_accepted hp
    rwa [HostM.exec_compile, hget]
  | false =>
    obtain ⟨e, kernels, hget, hcompiled⟩ := h.get_rejected hp
    rwa [HostM.exec_compile, hget]

theorem compiled_compileEach {before : List Program} (h : s.host.kernels.Compiled before) (calls : List Program) :
    (compileEach s calls).host.kernels.Compiled (before ++ calls) := by
  induction calls generalizing s before with
  | nil =>
    rwa [append_nil]
  | cons p calls ih =>
    rw [append_cons]
    exact ih (compiled_compile h p)

/-- Signatures determine programs. Hence on a new host, after any calls, a program that is valid and of a supported
type is given its own kernel and any other program is not compiled, and the compilations are those of the
different accepted programs and of the rejected calls. -/
theorem kernels_coherent :
    (∀ p q : Program, p.signature = q.signature → p = q) ∧
    ∀ (configuration : String) (host : Host), Host.ofConfiguration configuration = .ok host →
      ∀ calls : List Program,
        let s := compileEach ⟨host, {}⟩ calls
        (∀ p : Program, p.validate = .ok () ∧ p.dtype.isSupported = true → (exec (compile p) s).1 = .ok p) ∧
        (∀ p : Program, ¬(p.validate = .ok () ∧ p.dtype.isSupported = true) →
          ∃ e, (exec (compile p) s).1 = .error e ∧ e.kind = .compilation) ∧
        s.host.kernels.compilations = (Program.accepted calls).length + (Program.rejected calls).length := by
  refine ⟨fun p q => Program.signature_injective, fun configuration host hhost calls => ?_⟩
  have hnew : host.kernels.Compiled [] := by
    rw [(Host.ofConfiguration_eq_ok hhost).2.1]
    exact ⟨rfl, rfl⟩
  intro s
  have hcompiled : s.host.kernels.Compiled calls := compiled_compileEach (s := ⟨host, {}⟩) hnew calls
  refine ⟨fun p hp => ?_, fun p hp => ?_, hcompiled.compilations_eq⟩
  · obtain ⟨kernels, hget, -⟩ := hcompiled.get_accepted (Program.compiles_iff.mpr hp)
    rw [HostM.exec_compile, hget]
    rfl
  · rw [← Program.compiles_iff, Bool.not_eq_true] at hp
    obtain ⟨e, kernels, hget, -⟩ := hcompiled.get_rejected hp
    rw [HostM.exec_compile, hget]
    exact ⟨_, rfl, rfl⟩

/-- Six calls with four programs: a negation of two types, one that reads its own result, and one of a type without
elements. The rejected programs are rejected again. -/
theorem kernels_coherent_repeated :
    let neg (operand : Operand) : List Step := [⟨.elementwise (.unary .neg), [operand]⟩]
    let signed : Program := ⟨.int32, 1, neg (.input 0)⟩
    let unsigned : Program := ⟨.uint32, 1, neg (.input 0)⟩
    let cyclic : Program := ⟨.int32, 1, neg (.step 0)⟩
    let untyped : Program := ⟨.invalid, 1, neg (.input 0)⟩
    ∃ host, Host.ofConfiguration "" = .ok host ∧
      let s := compileEach ⟨host, {}⟩ [signed, cyclic, signed, untyped, unsigned, cyclic]
      (exec (compile signed) s).1 = .ok signed ∧
      (∃ e, (exec (compile cyclic) s).1 = .error e ∧ e.kind = .compilation) ∧
      (∃ e, (exec (compile untyped) s).1 = .error e ∧ e.kind = .compilation) ∧
      s.host.kernels.compilations = 2 + 3 := by
  intro neg signed unsigned cyclic untyped
  let host := Host.plain
  have hhost := Host.ofConfiguration_empty
  obtain ⟨haccepted, hrejected, hcount⟩ := kernels_coherent.2 "" host hhost
    [signed, cyclic, signed, untyped, unsigned, cyclic]
  exact ⟨host, hhost, haccepted signed ⟨rfl, rfl⟩, hrejected cyclic (fun h => nomatch h.1),
    hrejected untyped (fun h => nomatch h.2), hcount⟩

end HostState

end LazyTensor
