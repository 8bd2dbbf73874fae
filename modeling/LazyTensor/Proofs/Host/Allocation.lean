import LazyTensor.Proofs.Host.Partition

/-!
# Steps that make a new buffer

A step makes a new buffer with certain elements in a division of work, if it fails at the limit of memory only and
changes nothing then, and otherwise gives a buffer that was not live before and has these elements. The account says
which of the two happens, so the division of work has no part in it.

A new buffer is taken before anything is written, whether it is empty (`makes_newBuffer_bind`) or a copy of another
(`makes_clone_bind`). What follows only has to write the right elements.
-/

namespace LazyTensor

theorem Shape.Bounded.size_eq {x : Shape} (h : x.Bounded) : x.size = x.dims.prod :=
  size_eq_prod (Int.le_of_lt (prod_pos h.positive)) h.small

theorem HostState.Live.dividedBy {s : HostState} {id : Nat} {b : HostBuffer} (h : s.Live id b) (p : Partition) :
    (s.dividedBy p).Live id b := h

namespace HostM

open HostState

/-- In a division of work there is a new buffer of a shape with these elements, if there is room for it. -/
inductive Makes (s : HostState) (p : Partition) (output : Shape) (flat : Flat) :
    Except Stop BufferId × HostState → Prop where
  | full (cause : Account.Error) (refused : s.host.account.allocate output.footprint = .error cause) :
    Makes s p output flat (.error (.limit output cause), s.dividedBy p)
  | made (out : Nat) (s' : HostState) (made : Made s [] output out s' flat) :
    Makes s p output flat (.ok out, s'.dividedBy p)

variable {ε : Type} {s : HostState} {p : Partition} {output : Shape} {flat : Flat} {id : Nat} {b : HostBuffer}
  {l : Layout}

theorem exec_buffer_dividedBy (h : s.Live id b) (p : Partition) :
    exec (buffer id) (s.dividedBy p) = (.ok b, s.dividedBy p) := by
  rw [equivariant_buffer id s p, exec_buffer h.1]

theorem exec_write_dividedBy (h : s.Live id b) (flat : Flat) (p : Partition) :
    exec (write id flat : HostM ε Unit) (s.dividedBy p) = (.ok (), (s.put id { b with flat }).dividedBy p) := by
  rw [equivariant_write id flat s p, exec_write h.1]

theorem exec_newBuffer_dividedBy (hs : s.Sound) (hlayout : Layout.make output.dtype output.size = .ok l) (p : Partition) :
    (∃ cause, s.host.account.allocate output.footprint = .error cause ∧
      exec (newBuffer output) (s.dividedBy p) = (.error (.limit output cause), s.dividedBy p)) ∨
    ∃ out s' old, exec (newBuffer output) (s.dividedBy p) = (.ok out, s'.dividedBy p) ∧ Made s [] output out s' old := by
  rw [equivariant_newBuffer output s p]
  rcases exec_newBuffer hs hlayout with ⟨cause, hrefused, hexec⟩ | ⟨out, s', old, hexec, hmade⟩
  · exact .inl ⟨cause, hrefused, by rw [hexec]⟩
  · exact .inr ⟨out, s', old, by rw [hexec], hmade⟩

theorem makes_newBuffer_bind (hs : s.Sound) (hlayout : Layout.make output.dtype output.size = .ok l)
    {next : BufferId → HostM Stop BufferId}
    (hnext : ∀ (out : Nat) (s' : HostState) (old : Flat), Made s [] output out s' old →
      ∃ s'', exec (next out) (s'.dividedBy p) = (.ok out, s''.dividedBy p) ∧ Made s [] output out s'' flat) :
    Makes s p output flat (exec (newBuffer output >>= next) (s.dividedBy p)) := by
  rcases exec_newBuffer_dividedBy hs hlayout p with ⟨cause, hrefused, hexec⟩ | ⟨out, s', old, hexec, hmade⟩
  · rw [exec_bind_error hexec]
    exact .full cause hrefused
  · obtain ⟨s'', hexec', hmade'⟩ := hnext out s' old hmade
    rw [exec_bind_ok hexec, hexec']
    exact .made out s'' hmade'

theorem makes_clone_bind (hs : s.Sound) (hb : s.Live id b) {next : BufferId → HostM Stop BufferId}
    (hnext : ∀ (out : Nat) (s' : HostState), Made s [] b.shape out s' b.flat →
      ∃ s'', exec (next out) (s'.dividedBy p) = (.ok out, s''.dividedBy p) ∧ Made s [] b.shape out s'' flat) :
    Makes s p b.shape flat (exec (clone id >>= next) (s.dividedBy p)) := by
  obtain ⟨l, hlayout, hhas⟩ := hs.buffers id b hb.1
  rcases exec_newBuffer_dividedBy hs hlayout p with ⟨cause, hrefused, hexec⟩ | ⟨out, s', old, hexec, hmade⟩
  · have hclone : exec (clone id) (s.dividedBy p) = (.error (.limit b.shape cause), s.dividedBy p) := by
      rw [clone, exec_bind_ok (exec_buffer_dividedBy hb p), exec_bind_error hexec]
    rw [exec_bind_error hclone]
    exact .full cause hrefused
  · -- the copy has the elements before the step goes on
    have hcopy : Made s [] b.shape out (s'.put out ⟨b.shape, b.flat, false⟩) b.flat :=
      ⟨hmade.sound.put hmade.live ⟨l, hlayout, hhas⟩, hmade.frame.trans (hmade.live.frame_put _), hmade.live.put rfl,
        hmade.place.congr rfl⟩
    have hclone : exec (clone id) (s.dividedBy p) =
        (.ok out, (s'.put out ⟨b.shape, b.flat, false⟩).dividedBy p) := by
      rw [clone, exec_bind_ok (exec_buffer_dividedBy hb p), exec_bind_ok hexec,
        exec_bind_ok (exec_write_dividedBy hmade.live b.flat p)]
      rfl
    obtain ⟨s'', hexec', hmade'⟩ := hnext out _ hcopy
    rw [exec_bind_ok hclone, hexec']
    exact .made out s'' hmade'

theorem makes_tabulate (hs : s.Sound) (hlayout : Layout.make output.dtype output.size = .ok l) {t : ElementType}
    (ht : output.dtype.element? = some t) (value : (t : ElementType) → Nat → t.Elem) (p : Partition) :
    Makes s p output (.ofElements t (Array.ofFn fun i : Fin output.size.toNat => value t i))
      (exec (tabulate output value) (s.dividedBy p)) := by
  refine makes_newBuffer_bind hs hlayout fun out s' old hmade => ?_
  obtain ⟨data, rfl, hdata, -⟩ := hmade.elements ht
  have htable : Kernel.tabulate ((s'.dividedBy p).host.ranges output.size) (value t) data =
      Array.ofFn fun i : Fin output.size.toNat => value t i := by
    have hsize : data.size = output.size.toNat := by omega
    rw [Kernel.tabulate_eq_ofFn _ (covers_ranges (s'.dividedBy p).host hdata), hsize]
  refine ⟨_, ?_, hmade.put ht _ (by rw [Array.size_ofFn]; omega)⟩
  rw [exec_bind_ok (exec_elementType ht _), exec_bind_ok (exec_buffer_dividedBy hmade.live p),
    exec_bind_ok (exec_elements t rfl _), exec_bind_ok (exec_get _)]
  simp only [htable]
  rw [exec_bind_ok (exec_write_dividedBy hmade.live _ p)]
  rfl

end HostM

end LazyTensor
