import LazyTensor.Host.Execute
import LazyTensor.Proofs.Account
import LazyTensor.Proofs.Exec
import LazyTensor.Proofs.Signature

/-!
# The memory of the host

A state of the host is sound if every buffer has the elements that its shape says, if the buffers on the
shelves are finalized and lie there once, and if the kernels in the cache are those of their signatures.
Each step of memory keeps this. `Frame` says which live buffers a step leaves as they are, and `Place` and `Kept`
say what a step adds to the account. No step of memory looks at how the host divides its work (`Equivariant`).
-/

namespace LazyTensor

open List Option

/-! ## Layouts -/

variable {t : ElementType}

theorem DType.eq_dtype {dtype : DType} (h : dtype.element? = some t) : dtype = t.dtype := by
  unfold DType.element? at h
  repeat' split at h
  all_goals cases h
  all_goals assumption

theorem Layout.make_eq_ok {t : DType} {n : Int} {l : Layout} (h : Layout.make t n = .ok l) :
    t.storage? = some l.type ∧ (l.size : Int) = n := by
  simp only [make] at h
  split at h
  · rename_i type bytes htype hbytes
    split at h
    · cases h
    · split at h
      · cases h
      · obtain rfl := Except.ok.inj h
        exact ⟨htype, Int.toNat_of_nonneg (by omega)⟩
  · cases h

namespace Flat

/-- The elements are of the type of a layout, and as many if there are any of the type. -/
structure Has (x : Flat) (l : Layout) : Prop where
  type_eq : x.type = l.type
  size_eq : ∀ t, l.type = .element t → x.size = l.size

theorem has_zeros (l : Layout) : (zeros l).Has l := by
  obtain ⟨type, size⟩ := l
  cases type with
  | element t => exact ⟨rfl, fun _ _ => Array.size_replicate⟩
  | inert t => exact ⟨rfl, nofun⟩

theorem has_ofElements {data : Array t.Elem} {l : Layout} (htype : l.type = .element t) (hsize : data.size = l.size) :
    (ofElements t data).Has l :=
  ⟨htype.symm, fun _ _ => hsize⟩

end Flat

variable {shape : Shape}

namespace HostBuffer

/-- The buffer has the elements that its shape says. -/
def Sound (b : HostBuffer) : Prop := ∃ l, Layout.make b.shape.dtype b.shape.size = .ok l ∧ b.flat.Has l

variable {b : HostBuffer}

theorem Sound.exists_elements (h : b.Sound) (ht : b.shape.dtype.element? = some t) :
    ∃ data : Array t.Elem, b.flat = .ofElements t data ∧ (data.size : Int) = b.shape.size ∧
      Layout.make b.shape.dtype b.shape.size = .ok ⟨.element t, data.size⟩ := by
  obtain ⟨⟨type, len⟩, hl, htype, hsize⟩ := h
  obtain ⟨hstorage, hlen⟩ := Layout.make_eq_ok hl
  obtain rfl : type = .element t := by
    rw [DType.storage?, ht] at hstorage
    exact (Option.some.inj hstorage).symm
  obtain ⟨shape, ⟨type, data⟩, finalized⟩ := b
  obtain rfl : type = .element t := htype
  have hdata : data.size = len := hsize t rfl
  subst hdata
  exact ⟨data, rfl, hlen, hl⟩

theorem Sound.write (h : b.Sound) (ht : b.shape.dtype.element? = some t) {data : Array t.Elem}
    (hsize : (data.size : Int) = b.shape.size) : Sound { b with flat := .ofElements t data } := by
  obtain ⟨old, -, hold, hmake⟩ := h.exists_elements ht
  refine ⟨_, hmake, Flat.has_ofElements rfl ?_⟩
  show data.size = old.size
  omega

theorem Sound.reshape (h : b.Sound) {finalized : Bool} (hdtype : shape.dtype = b.shape.dtype)
    (hsize : shape.size = b.shape.size) : Sound { b with shape, finalized } := by
  obtain ⟨l, hl, hhas⟩ := h
  exact ⟨l, by rw [← hl, hdtype, hsize], hhas⟩

end HostBuffer

/-! ## Shelves -/

namespace Shelf

def ids (s : Shelf) : List BufferId := s.atHand.toList ++ s.stack

variable {id : BufferId} {s : Shelf}

theorem perm_ids_put (s : Shelf) (id : BufferId) : (s.put id).ids.Perm (id :: s.ids) := by
  obtain ⟨atHand, stack⟩ := s
  cases atHand with
  | none => exact .refl _
  | some x => exact .swap id x stack

theorem ids_of_take? {s' : Shelf} (h : s.take? = some (id, s')) : s.ids = id :: s'.ids := by
  obtain ⟨atHand, stack⟩ := s
  cases atHand with
  | some x =>
    obtain ⟨rfl, rfl⟩ := Prod.mk.inj (Option.some.inj h)
    rfl
  | none =>
    cases stack with
    | nil => cases h
    | cons x stack =>
      obtain ⟨rfl, rfl⟩ := Prod.mk.inj (Option.some.inj h)
      rfl

theorem take?_eq_some {s' : Shelf} (h : s.take? = some (id, s')) (hs : s.ids.Nodup) :
    id ∈ s.ids ∧ s'.ids.Nodup ∧ ∀ i ∈ s'.ids, i ∈ s.ids ∧ i ≠ id := by
  rw [ids_of_take? h, nodup_cons] at hs
  rw [ids_of_take? h]
  refine ⟨mem_cons_self, hs.2, fun i hi => ⟨mem_cons_of_mem id hi, ?_⟩⟩
  rintro rfl
  exact hs.1 hi

end Shelf

theorem lookup_filter {α β : Type} [BEq α] [LawfulBEq α] (l : List (α × β)) (key k : α) (h : k ≠ key) :
    (l.filter (·.1 != key)).lookup k = l.lookup k := by
  induction l with
  | nil => rfl
  | cons p l ih =>
    obtain ⟨x, y⟩ := p
    by_cases hx : x = key
    · have hk : (k == x) = false := by simpa [hx] using h
      rw [filter_cons, if_neg (by simp [hx]), ih, lookup_cons, hk]
    · rw [filter_cons, if_pos (by simpa using hx), lookup_cons, lookup_cons, ih]

namespace Shelves

theorem shelf_setShelf (s : Shelves) (key k : DType × Int) (shelf : Shelf) :
    (s.setShelf key shelf).shelf k = if k = key then shelf else s.shelf k := by
  simp only [setShelf, Shelves.shelf, lookup_cons]
  by_cases hk : k = key
  · simp [hk]
  · rw [if_neg hk, show (k == key) = false by simpa using hk]
    rw [lookup_filter _ _ _ hk]

end Shelves

/-! ## Sound states -/

namespace Heap

theorem get?_set {h : Heap} {id : Nat} {b : HostBuffer} (hb : h.get? id = some b) (b' : HostBuffer) (j : Nat) :
    (h.set id b').get? j = if j = id then some b' else h.get? j := by
  have hlt : id < h.buffers.size := (Array.getElem?_eq_some_iff.mp hb).1
  simp only [get?, set, Array.getElem?_setIfInBounds]
  by_cases hj : j = id
  · rw [if_pos hj.symm, if_pos hj, if_pos (by omega)]
  · rw [if_neg (fun h => hj h.symm), if_neg hj]

theorem get?_push (h : Heap) (b : HostBuffer) (j : Nat) :
    (h.push b).2.get? j = if j = h.buffers.size then some b else h.get? j := by
  simp only [get?, push, Array.getElem?_push]

theorem get?_size (h : Heap) : h.get? h.buffers.size = none := by
  simp [get?]

theorem sound_of_set {h : Heap} {id j : Nat} {b b' c : HostBuffer} (hs : ∀ j c, h.get? j = some c → c.Sound)
    (hb : h.get? id = some b) (hb' : b'.Sound) (hc : (h.set id b').get? j = some c) : c.Sound := by
  rw [get?_set hb] at hc
  split at hc
  · obtain rfl := Option.some.inj hc
    exact hb'
  · exact hs j c hc

end Heap

/-- Every kernel is a program that can be compiled, under its own signature. -/
def KernelCache.Sound (c : KernelCache Program) : Prop :=
  ∀ entry ∈ c.entries, entry.1 = entry.2.signature ∧ HostM.kernelOf entry.2 = .ok entry.2

variable {more : List Nat}

namespace HostState

/-- The buffer can be used. -/
def Live (s : HostState) (id : Nat) (b : HostBuffer) : Prop := s.heap.get? id = some b ∧ b.finalized = false

/-- Buffers have the elements that their shapes say, the shelves hold finalized buffers of their own length
and no buffer twice, kernels are found by their signatures, and the ranges of an operation come in order. -/
structure Sound (s : HostState) : Prop where
  buffers : ∀ (id : Nat) (b : HostBuffer), s.heap.get? id = some b → b.Sound
  shelved : ∀ (key : DType × Int) (id : Nat), id ∈ (s.host.shelves.shelf key).ids →
    ∃ b, s.heap.get? id = some b ∧ b.finalized = true ∧ (b.shape.dtype, b.shape.size) = key
  distinct : ∀ key : DType × Int, (s.host.shelves.shelf key).ids.Nodup
  kernels : s.host.kernels.Sound
  inOrder : s.host.workers.turns = []

/-- The settings of the host stay, and so do the live buffers that are not written. -/
structure Frame (s s' : HostState) (written : List Nat) : Prop where
  workers_eq : s'.host.workers = s.host.workers
  minParallel_eq : s'.host.minParallel = s.host.minParallel
  limit_eq : s'.host.account.limit = s.host.account.limit
  finalized_eq : s'.host.finalized = s.host.finalized
  live : ∀ (id : Nat) (b : HostBuffer), s.Live id b → id ∉ written → s'.Live id b

variable {s s' s'' : HostState} {id : Nat} {b b' : HostBuffer} {written : List Nat}

namespace Frame

theorem refl (s : HostState) (written : List Nat) : Frame s s written := ⟨rfl, rfl, rfl, rfl, fun _ _ h _ => h⟩

theorem trans (h : Frame s s' written) (h' : Frame s' s'' written) : Frame s s'' written where
  workers_eq := h'.workers_eq.trans h.workers_eq
  minParallel_eq := h'.minParallel_eq.trans h.minParallel_eq
  limit_eq := h'.limit_eq.trans h.limit_eq
  finalized_eq := h'.finalized_eq.trans h.finalized_eq
  live id b hb hid := h'.live id b (h.live id b hb hid) hid

theorem mono (h : Frame s s' written) (hmore : ∀ id : Nat, id ∈ written → id ∈ more) : Frame s s' more :=
  { h with live := fun id b hb hid => h.live id b hb (fun hmem => hid (hmore id hmem)) }

theorem trans_fresh (h : Frame s s' written) (h' : Frame s' s'' [id]) (hid : ∀ b, ¬ s.Live id b) :
    Frame s s'' written where
  __ := (h.mono fun _ => mem_cons_of_mem id).trans
    (h'.mono fun _ hmem => mem_cons.mpr (.inl (mem_singleton.mp hmem)))
  live j c hc hj := by
    refine h'.live j c (h.live j c hc hj) ?_
    rw [mem_singleton]
    rintro rfl
    exact hid c hc

end Frame

/-- The state with another buffer at a number. -/
def put (s : HostState) (id : BufferId) (b : HostBuffer) : HostState := { s with heap := s.heap.set id b }

theorem Live.put (h : s.Live id b) (hb' : b'.finalized = false) : (s.put id b').Live id b' := by
  refine ⟨?_, hb'⟩
  rw [HostState.put, Heap.get?_set h.1, if_pos rfl]

theorem Live.frame_put (h : s.Live id b) (b' : HostBuffer) : Frame s (s.put id b') [id] where
  workers_eq := rfl
  minParallel_eq := rfl
  limit_eq := rfl
  finalized_eq := rfl
  live j c hc hj := by
    rw [mem_singleton] at hj
    refine ⟨?_, hc.2⟩
    rw [HostState.put, Heap.get?_set h.1, if_neg hj]
    exact hc.1

theorem Live.live_eq (h : s.Live id b) : s.heap.live (.host id) = .ok (id, b) := by
  rw [Heap.live, h.1]
  exact if_neg (by rw [h.2]; exact Bool.false_ne_true)

theorem live_eq_ok {j : Nat} (h : s.heap.live (.host j) = .ok (id, b)) : j = id ∧ s.Live id b := by
  rw [Heap.live] at h
  split at h
  · cases h
  · rename_i c hc
    split at h
    · cases h
    · rename_i hfinal
      obtain ⟨rfl, rfl⟩ := Prod.mk.inj (Except.ok.inj h)
      exact ⟨rfl, hc, by simpa using hfinal⟩

theorem Live.not_shelved (h : s.Live id b) (hs : s.Sound) (key : DType × Int) :
    id ∉ (s.host.shelves.shelf key).ids := by
  intro hid
  obtain ⟨c, hc, hfinal, -⟩ := hs.shelved key id hid
  obtain rfl := Option.some.inj (h.1.symm.trans hc)
  exact absurd (h.2.symm.trans hfinal) Bool.false_ne_true

theorem Sound.put (hs : s.Sound) (h : s.Live id b) (hb' : b'.Sound) : (s.put id b').Sound where
  buffers _ _ hc := Heap.sound_of_set hs.buffers h.1 hb' hc
  shelved key j hj := by
    obtain ⟨c, hc, hrest⟩ := hs.shelved key j hj
    refine ⟨c, ?_, hrest⟩
    rw [HostState.put, Heap.get?_set h.1, if_neg]
    · exact hc
    · rintro rfl
      exact h.not_shelved hs key hj
  distinct := hs.distinct
  kernels := hs.kernels
  inOrder := hs.inOrder

/-- The state with other kernels in its cache. -/
def withKernels (s : HostState) (kernels : KernelCache Program) : HostState :=
  { s with host := { s.host with kernels } }

theorem Sound.withKernels (hs : s.Sound) {kernels : KernelCache Program} (hkernels : kernels.Sound) :
    (s.withKernels kernels).Sound :=
  ⟨hs.buffers, hs.shelved, hs.distinct, hkernels, hs.inOrder⟩

theorem frame_withKernels (s : HostState) (kernels : KernelCache Program) : Frame s (s.withKernels kernels) [] :=
  ⟨rfl, rfl, rfl, rfl, fun _ _ h _ => h⟩

end HostState

/-! ## Results of steps -/

/-- After the failure a step holds nothing that it did not hold before: at the limit of memory it has not taken a
buffer yet, and after a division by zero it has given back the one that it took. -/
def Stop.IsClean : Stop → Prop
  | .limit _ _ => True
  | .divisionByZero _ => True
  | _ => False

namespace HostState

/-- Where a buffer of a shape comes from: it is new and counted, or it was given away with this shape. -/
inductive Place (s : HostState) (given : List Nat) (output : Shape) (out : Nat) (s' : HostState) : Prop where
  | new (fresh : ∀ b, ¬ s.Live out b) (counted : s.host.account.allocate output.footprint = .ok s'.host.account)
  | given (mem : out ∈ given) (live : ∃ flat, s.Live out ⟨output, flat, false⟩)
    (account_eq : s'.host.account = s.host.account)

/-- The account counts the same, and live buffers still have their shapes. -/
structure Kept (s s' : HostState) : Prop where
  sameUse : s.host.account.SameUse s'.host.account
  live : ∀ (id : Nat) (b : HostBuffer), s.Live id b → ∃ flat, s'.Live id ⟨b.shape, flat, false⟩

/-- A buffer was not to be had as the limit of memory is reached. -/
def LimitReached (s : HostState) (e : Stop) : Prop :=
  s.host.account.limit ≠ 0 ∧ ∃ shape cause, e = .limit shape cause

/-- A buffer of a shape was made: it is new or one of those `given` away, and no other live buffer was
written. -/
structure Made (s : HostState) (given : List Nat) (output : Shape) (out : Nat) (s' : HostState) (flat : Flat) :
    Prop where
  sound : s'.Sound
  frame : Frame s s' [out]
  live : s'.Live out ⟨output, flat, false⟩
  place : Place s given output out s'

/-- What a step may give that makes a buffer of a shape: a buffer with elements that are `right`, or a failure for
one of the `causes` or for the limit of memory. -/
inductive Ran (s : HostState) (given : List Nat) (output : Shape) (causes : Stop → Prop) (right : Flat → Prop) :
    Except Stop BufferId × HostState → Prop where
  | error (e : Stop) (s' : HostState) (sound : s'.Sound) (frame : Frame s s' given) (kept : e.IsClean → Kept s s')
    (cause : s.LimitReached e ∨ causes e) : Ran s given output causes right (.error e, s')
  | ok (out : Nat) (s' : HostState) (flat : Flat) (made : Made s given output out s' flat)
    (value : right flat) : Ran s given output causes right (.ok out, s')

variable {s s' s'' : HostState} {given : List Nat} {output : Shape} {out : Nat} {flat : Flat}

theorem Frame.of_place (h : Frame s s'' [out]) (hplace : Place s given output out s') : Frame s s'' given := by
  cases hplace with
  | new hfresh _ =>
    have hempty := (Frame.refl s []).trans_fresh h hfresh
    exact hempty.mono nofun
  | given hmem _ _ =>
    apply h.mono
    intro id hid
    rwa [mem_singleton.mp hid]

theorem Place.takes (h : Place s given output out s') : s.host.account.Takes output s'.host.account := by
  cases h with
  | new _ hcounted => exact .inr hcounted
  | given _ _ haccount => exact .inl haccount

theorem Place.mono (h : Place s given output out s') (hmore : ∀ id : Nat, id ∈ given → id ∈ more) :
    Place s more output out s' := by
  cases h with
  | new hfresh hcounted => exact .new hfresh hcounted
  | given hmem hlive haccount => exact .given (hmore out hmem) hlive haccount

theorem Place.congr (h : Place s given output out s') (haccount : s''.host.account = s'.host.account) :
    Place s given output out s'' := by
  cases h with
  | new hfresh hcounted => exact .new hfresh (by rwa [haccount])
  | given hmem hlive hsame => exact .given hmem hlive (haccount.trans hsame)

theorem Made.mono (h : Made s given output out s' flat) (hmore : ∀ id : Nat, id ∈ given → id ∈ more) :
    Made s more output out s' flat :=
  { h with place := h.place.mono hmore }

theorem Made.fresh (h : Made s [] output out s' flat) {j : Nat} {b : HostBuffer} (hj : s.Live j b) : j ≠ out := by
  rintro rfl
  cases h.place with
  | new hfresh _ => exact hfresh b hj
  | given hmem _ _ => cases hmem

theorem Kept.of_frame (h : Frame s s' []) (haccount : s.host.account.SameUse s'.host.account) : Kept s s' where
  sameUse := haccount
  live id b hb := by
    refine ⟨b.flat, ?_⟩
    rw [← hb.2]
    exact h.live id b hb nofun

theorem Made.kept_of_given (h : Made s given output out s' flat) (haccount : s'.host.account = s.host.account)
    (hlive : ∃ flat, s.Live out ⟨output, flat, false⟩) : Kept s s' where
  sameUse := by
    rw [haccount]
    exact .refl _
  live id b hb := by
    by_cases hid : id = out
    · subst hid
      obtain ⟨old, hold⟩ := hlive
      obtain rfl := Option.some.inj (hold.1.symm.trans hb.1)
      exact ⟨flat, h.live⟩
    · refine ⟨b.flat, ?_⟩
      rw [← hb.2]
      exact h.frame.live id b hb (fun hmem => hid (mem_singleton.mp hmem))

theorem Made.elements (h : Made s given output out s' flat) (ht : output.dtype.element? = some t) :
    ∃ data : Array t.Elem, flat = .ofElements t data ∧ (data.size : Int) = output.size ∧
      Layout.make output.dtype output.size = .ok ⟨.element t, data.size⟩ :=
  (h.sound.buffers out _ h.live.1).exists_elements ht

/-- Other causes of failures and other elements that are right. A buffer that was made has a layout. -/
theorem Ran.imp {causes causes' : Stop → Prop} {right right' : Flat → Prop} {r : Except Stop BufferId × HostState}
    (h : Ran s given output causes right r) (hcauses : ∀ e, causes e → causes' e)
    (hright : ∀ flat, right flat → (∃ l, Layout.make output.dtype output.size = .ok l) → right' flat) :
    Ran s given output causes' right' r := by
  cases h with
  | error e s' hsound hframe hkept hcause => exact .error e s' hsound hframe hkept (hcause.imp_right (hcauses e))
  | ok out s' flat hmade hvalue =>
    obtain ⟨l, hl, -⟩ := hmade.sound.buffers out _ hmade.live.1
    exact .ok out s' flat hmade (hright flat hvalue ⟨l, hl⟩)

theorem Ran.of_heap {s₁ : HostState} {causes : Stop → Prop} {right : Flat → Prop} {r : Except Stop BufferId × HostState}
    (hframe : Frame s s₁ []) (hheap : s₁.heap = s.heap) (haccount : s₁.host.account = s.host.account)
    (h : Ran s₁ given output causes right r) : Ran s given output causes right r := by
  have hlive : ∀ id b, s.Live id b ↔ s₁.Live id b := fun id b => by rw [Live, Live, hheap]
  cases h with
  | error e s' hsound hframe' hkept hcause =>
    have hlimit : s₁.LimitReached e ↔ s.LimitReached e := by rw [LimitReached, haccount, LimitReached]
    refine .error e s' hsound ((hframe.mono nofun).trans hframe') (fun hclean => ?_) (hcause.imp_left hlimit.mp)
    exact ⟨haccount ▸ (hkept hclean).sameUse, fun id b hb => (hkept hclean).live id b ((hlive id b).mp hb)⟩
  | ok out s' flat hmade hvalue =>
    refine .ok out s' flat ⟨hmade.sound, (hframe.mono nofun).trans hmade.frame, hmade.live, ?_⟩ hvalue
    cases hmade.place with
    | new hfresh hcounted => exact .new (fun b hb => hfresh b ((hlive out b).mp hb)) (haccount ▸ hcounted)
    | given hmem hold hsame => exact .given hmem (hold.imp fun _ => (hlive out _).mpr) (hsame.trans haccount)

theorem Ran.mono {causes : Stop → Prop} {right : Flat → Prop} {r : Except Stop BufferId × HostState}
    (h : Ran s given output causes right r) (hmore : ∀ id : Nat, id ∈ given → id ∈ more) :
    Ran s more output causes right r := by
  cases h with
  | error e s' hsound hframe hkept hcause => exact .error e s' hsound (hframe.mono hmore) hkept hcause
  | ok out s' flat hmade hvalue => exact .ok out s' flat (hmade.mono hmore) hvalue

theorem Made.put (h : Made s given output out s' flat) (ht : output.dtype.element? = some t) (data : Array t.Elem)
    (hsize : (data.size : Int) = output.size) :
    Made s given output out (s'.put out ⟨output, .ofElements t data, false⟩) (.ofElements t data) where
  sound := h.sound.put h.live ((h.sound.buffers out _ h.live.1).write ht hsize)
  frame := h.frame.trans (h.live.frame_put _)
  live := h.live.put rfl
  place := h.place.congr rfl

end HostState

namespace HostM

open HostState

variable {ε : Type} {s : HostState} {id : Nat} {b : HostBuffer}

theorem exec_buffer (h : s.heap.get? id = some b) : exec (buffer id) s = (.ok b, s) := by
  rw [buffer, exec_bind_ok (exec_get s), h]
  rfl

theorem exec_write (h : s.heap.get? id = some b) (flat : Flat) :
    exec (write id flat : HostM ε Unit) s = (.ok (), s.put id { b with flat }) := by
  rw [write, exec_bind_ok (exec_get s), h]
  rfl

/-! ## Allocation -/

/-- Why there is no new buffer of a shape. -/
def NoLayout (shape : Shape) (e : Stop) : Prop :=
  ∃ cause, Layout.make shape.dtype shape.size = .error cause ∧ e = .ofLayout cause

theorem not_isClean_ofLayout (e : Layout.Error) : ¬ (Stop.ofLayout e).IsClean := by
  cases e <;> exact id

private theorem sound_account (hs : s.Sound) (account : Account) :
    Sound { s with host := { s.host with account } } :=
  ⟨hs.buffers, hs.shelved, hs.distinct, hs.kernels, hs.inOrder⟩

private theorem ran_newBuffer_shelf (hs : s.Sound) {account : Account} {shelves : Shelves}
    (haccount : s.host.account.allocate shape.footprint = .ok account)
    (htake : s.host.shelves.take? shape = some (id, shelves)) :
    ∃ b, s.heap.get? id = some b ∧ b.finalized = true ∧
      Ran s [] shape (NoLayout shape) (fun _ => True) (.ok id,
        ⟨{ s.host with account, shelves }, s.heap.set id { b with shape, finalized := false }⟩) := by
  obtain ⟨⟨id', shelf⟩, hshelf, heq⟩ := map_eq_some_iff.mp htake
  obtain ⟨rfl, rfl⟩ := Prod.mk.inj heq
  obtain ⟨hmem, hnodup, hids⟩ := Shelf.take?_eq_some hshelf (hs.distinct _)
  obtain ⟨b, hb, hfinal, hkey⟩ := hs.shelved _ id' hmem
  obtain ⟨hdtype, hsize⟩ := Prod.mk.inj hkey
  -- the shelves lose the buffer and nothing else
  have hshelves : ∀ (key : DType × Int) (j : Nat),
      j ∈ ((s.host.shelves.setShelf (shape.dtype, shape.size) shelf).shelf key).ids →
        j ∈ (s.host.shelves.shelf key).ids ∧ j ≠ id' := by
    intro key j hj
    rw [Shelves.shelf_setShelf] at hj
    split at hj
    · rename_i hk
      rw [hk]
      exact hids j hj
    · rename_i hk
      refine ⟨hj, ?_⟩
      rintro rfl
      obtain ⟨c, hc, -, hkey'⟩ := hs.shelved key j hj
      obtain rfl := Option.some.inj (hb.symm.trans hc)
      exact hk (hkey'.symm.trans hkey)
  refine ⟨b, hb, hfinal, .ok _ _ b.flat ⟨?_, ?_, ?_, .new ?_ haccount⟩ trivial⟩
  · refine ⟨fun j c hc => ?_, fun key j hj => ?_, fun key => ?_, hs.kernels, hs.inOrder⟩
    · exact Heap.sound_of_set hs.buffers hb ((hs.buffers _ b hb).reshape hdtype.symm hsize.symm) hc
    · obtain ⟨hj, hne⟩ := hshelves key j hj
      obtain ⟨c, hc, hrest⟩ := hs.shelved key j hj
      exact ⟨c, by rwa [Heap.get?_set hb, if_neg hne], hrest⟩
    · rw [Shelves.shelf_setShelf]
      split
      · exact hnodup
      · exact hs.distinct key
  · refine ⟨rfl, rfl, Account.limit_eq_of_allocate haccount, rfl, fun j c hc hj => ⟨?_, hc.2⟩⟩
    rw [Heap.get?_set hb, if_neg (fun h => hj (mem_singleton.mpr h))]
    exact hc.1
  · exact ⟨by rw [Heap.get?_set hb, if_pos rfl], rfl⟩
  · intro c hc
    obtain rfl := Option.some.inj (hb.symm.trans hc.1)
    exact absurd (hc.2.symm.trans hfinal) Bool.false_ne_true

private theorem ran_newBuffer_push (hs : s.Sound) {account : Account} {layout : Layout}
    (haccount : s.host.account.allocate shape.footprint = .ok account)
    (hlayout : Layout.make shape.dtype shape.size = .ok layout) :
    Ran s [] shape (NoLayout shape) (fun _ => True) (.ok s.heap.buffers.size,
      ⟨{ s.host with account }, (s.heap.push ⟨shape, .zeros layout, false⟩).2⟩) := by
  -- the heap only grows, so the other buffers are where they were
  refine .ok _ _ (.zeros layout) ⟨⟨fun j c hc => ?_, fun key j hj => ?_, hs.distinct, hs.kernels, hs.inOrder⟩,
    ⟨rfl, rfl, Account.limit_eq_of_allocate haccount, rfl, fun j c hc hj => ⟨?_, hc.2⟩⟩,
    ⟨by rw [Heap.get?_push, if_pos rfl], rfl⟩, .new (fun c hc => ?_) haccount⟩ trivial
  · rw [Heap.get?_push] at hc
    split at hc
    · obtain rfl := Option.some.inj hc
      exact ⟨layout, hlayout, Flat.has_zeros layout⟩
    · exact hs.buffers j c hc
  · obtain ⟨c, hc, hrest⟩ := hs.shelved key j hj
    refine ⟨c, ?_, hrest⟩
    rw [Heap.get?_push, if_neg]
    · exact hc
    · rintro rfl
      rw [Heap.get?_size] at hc
      cases hc
  · rw [Heap.get?_push, if_neg (fun h => hj (mem_singleton.mpr h))]
    exact hc.1
  · rw [HostState.Live, Heap.get?_size] at hc
    exact nomatch hc.1

/-- A new buffer was not live before, and without a limit there is one if there is a layout for it. -/
theorem ran_newBuffer (hs : s.Sound) (shape : Shape) :
    Ran s [] shape (NoLayout shape) (fun _ => True) (exec (newBuffer shape) s) := by
  rw [newBuffer, exec_bind_ok (exec_get s)]
  cases haccount : s.host.account.allocate shape.footprint with
  | error e =>
    exact .error _ _ hs (Frame.refl _ _) (fun _ => .of_frame (Frame.refl _ _) (.refl _))
      (.inl ⟨Account.limit_ne_zero_of_allocate haccount, shape, e, rfl⟩)
  | ok account =>
    cases htake : s.host.shelves.take? shape with
    | some taken =>
      obtain ⟨b, hb, -, hran⟩ := ran_newBuffer_shelf hs haccount htake
      simp only
      rwa [hb]
    | none =>
      cases hlayout : Layout.make shape.dtype shape.size with
      | error e =>
        exact .error _ _ (sound_account hs account)
          ⟨rfl, rfl, Account.limit_eq_of_allocate haccount, rfl, fun _ _ h _ => h⟩
          (fun hclean => absurd hclean (not_isClean_ofLayout e)) (.inr ⟨e, hlayout, rfl⟩)
      | ok layout => exact ran_newBuffer_push hs haccount hlayout

/-- A buffer of a shape that has a layout is to be had unless the limit of memory is reached. -/
theorem exec_newBuffer (hs : s.Sound) {output : Shape} {l : Layout}
    (hlayout : Layout.make output.dtype output.size = .ok l) :
    (∃ cause, s.host.account.allocate output.footprint = .error cause ∧
      exec (newBuffer output) s = (.error (.limit output cause), s)) ∨
    ∃ out s' old, exec (newBuffer output) s = (.ok out, s') ∧ Made s [] output out s' old := by
  cases haccount : s.host.account.allocate output.footprint with
  | error cause =>
    refine .inl ⟨cause, rfl, ?_⟩
    rw [newBuffer, exec_bind_ok (exec_get s), haccount]
    rfl
  | ok account =>
    have hnew := ran_newBuffer hs output
    rcases hexec : exec (newBuffer output) s with ⟨e | out, s'⟩
    · -- the account has room and there is a layout, so nothing is left to fail
      rw [newBuffer, exec_bind_ok (exec_get s), haccount] at hexec
      cases htake : s.host.shelves.take? output with
      | none =>
        rw [htake, hlayout] at hexec
        cases hexec
      | some taken =>
        rw [htake] at hexec
        simp only at hexec
        cases hget : s.heap.get? taken.1 with
        | none | some b =>
          rw [hget] at hexec
          cases hexec
    · rw [hexec] at hnew
      cases hnew with
      | ok _ _ old hmade _ => exact .inr ⟨out, s', old, rfl, hmade⟩

theorem ran_clone (hs : s.Sound) (h : s.Live id b) :
    Ran s [] b.shape (NoLayout b.shape) (· = b.flat) (exec (clone id) s) := by
  rw [clone, exec_bind_ok (exec_buffer h.1)]
  rcases hr : exec (newBuffer b.shape) s with r
  have hnew := ran_newBuffer hs b.shape
  rw [hr] at hnew
  cases hnew with
  | error e s' hsound hframe hkept hcause =>
    rw [exec_bind_error hr]
    exact .error e s' hsound hframe hkept hcause
  | ok copy s' flat hmade _ =>
    obtain ⟨l, hl, hhas⟩ := hs.buffers id b h.1
    rw [exec_bind_ok hr, exec_bind_ok (exec_write hmade.live.1 b.flat)]
    exact .ok copy _ b.flat ⟨hmade.sound.put hmade.live ⟨l, hl, hhas⟩,
      hmade.frame.trans (hmade.live.frame_put _), hmade.live.put rfl, hmade.place.congr rfl⟩ rfl

/-! ## Return -/

/-- A live buffer that is recycled lies on the shelf of its shape. -/
theorem recycle_live (hs : s.Sound) (h : s.Live id b) :
    ∃ s', exec (recycle id : HostM ε Unit) s = (.ok (), s') ∧ s'.Sound ∧ Frame s s' [id] ∧
      s'.host.account = s.host.account.free b.shape.footprint := by
  let final : HostBuffer := { b with finalized := true }
  let key := (b.shape.dtype, b.shape.size)
  have hexec : exec (recycle id : HostM ε Unit) s = (.ok (), ⟨{ s.host with
      account := s.host.account.free b.shape.footprint
      shelves := s.host.shelves.put b.shape id }, s.heap.set id final⟩) := by
    rw [recycle, exec_bind_ok (exec_get s), h.1]
    rfl
  have hshelf : ∀ k : DType × Int, (s.host.shelves.put b.shape id).shelf k =
      if k = key then (s.host.shelves.shelf key).put id else s.host.shelves.shelf k :=
    fun k => Shelves.shelf_setShelf _ key k _
  have hfree : (s.host.account.free b.shape.footprint).limit = s.host.account.limit := rfl
  refine ⟨_, hexec, ⟨fun j c hc => ?_, fun k j hj => ?_, fun k => ?_, hs.kernels, hs.inOrder⟩,
    ⟨rfl, rfl, hfree, rfl, (h.frame_put final).live⟩, rfl⟩
  · exact Heap.sound_of_set hs.buffers h.1 ((hs.buffers id b h.1).reshape rfl rfl) hc
  · -- the buffer was on no shelf before, so it is on the one of its shape only
    by_cases hj' : j = id
    · subst hj'
      refine ⟨final, by rw [Heap.get?_set h.1, if_pos rfl], rfl, ?_⟩
      rw [hshelf] at hj
      split at hj
      · rename_i hk
        exact hk.symm
      · exact absurd hj (h.not_shelved hs k)
    · have hold : j ∈ (s.host.shelves.shelf k).ids := by
        rw [hshelf] at hj
        split at hj
        · rename_i hk
          rw [hk]
          exact (mem_cons.mp ((Shelf.perm_ids_put _ id).mem_iff.mp hj)).resolve_left hj'
        · exact hj
      obtain ⟨c, hc, hrest⟩ := hs.shelved k j hold
      exact ⟨c, by rwa [Heap.get?_set h.1, if_neg hj'], hrest⟩
  · rw [hshelf]
    split
    · exact (Shelf.perm_ids_put _ id).nodup_iff.mpr (nodup_cons.mpr ⟨h.not_shelved hs key, hs.distinct key⟩)
    · exact hs.distinct k

theorem recycle_made {s₀ : HostState} {gave : List Nat} {output : Shape} {out : Nat} {flat : Flat}
    (h : Made s₀ gave output out s flat) (hfresh : ∀ b, ¬ s₀.Live out b)
    (hcounted : s₀.host.account.allocate output.footprint = .ok s.host.account) :
    ∃ s', exec (recycle out : HostM ε Unit) s = (.ok (), s') ∧ s'.Sound ∧ Frame s₀ s' [] ∧
      s₀.host.account.SameUse s'.host.account := by
  obtain ⟨s', hrecycle, hsound, hframe, haccount⟩ := recycle_live h.sound h.live
  refine ⟨s', hrecycle, hsound, (Frame.refl s₀ []).trans_fresh (h.frame.trans hframe) hfresh, ?_⟩
  rw [haccount]
  exact Account.sameUse_free hcounted

theorem finalizeBuffer_frame (hs : s.Sound) (id : Nat) :
    (exec (finalizeBuffer (.host id)) s).2.Sound ∧ Frame s (exec (finalizeBuffer (.host id)) s).2 [id] := by
  rw [finalizeBuffer, exec_bind_ok (exec_get s)]
  cases hlive : s.heap.live (.host id) with
  | error e => exact ⟨hs, Frame.refl s _⟩
  | ok found =>
    obtain ⟨rfl, h⟩ := live_eq_ok hlive
    obtain ⟨s', hexec, hsound, hframe, -⟩ := recycle_live hs h
    rw [hexec]
    exact ⟨hsound, hframe⟩

theorem account_finalizeBuffer (hs : s.Sound) (h : s.Live id b) :
    (exec (finalizeBuffer (.host id)) s).2.host.account = s.host.account.free b.shape.footprint := by
  obtain ⟨s', hexec, -, -, haccount⟩ := recycle_live hs h
  rw [finalizeBuffer, exec_bind_ok (exec_get s), h.live_eq]
  rwa [hexec]

/-! ## Kernels -/

theorem kernelOf_eq_ok_iff {p q : Program} :
    kernelOf p = .ok q ↔ q = p ∧ p.validate = .ok () ∧ p.dtype.isSupported = true := by
  rw [kernelOf]
  cases p.validate with
  | error e => simp
  | ok u => cases hdtype : p.dtype.isSupported <;> simp [eq_comm]

theorem find?_signature {c : KernelCache Program} (hc : c.Sound) {p q : Program}
    (hfind : c.find? p.signature = some q) : q = p ∧ kernelOf p = .ok p := by
  obtain ⟨⟨signature, q⟩, hentry, rfl⟩ := map_eq_some_iff.mp hfind
  have hsignature : signature = p.signature := by simpa using find?_some hentry
  obtain ⟨hq, hkernel⟩ := hc _ (mem_of_find?_eq_some hentry)
  obtain rfl : q = p := Program.signature_injective (hq.symm.trans hsignature)
  exact ⟨rfl, hkernel⟩

theorem exec_compile (p : Program) (s : HostState) :
    let cached := s.host.kernels.get p.signature fun cache => (kernelOf p, cache)
    exec (compile p) s = (cached.1.mapError .compile, { s with host := { s.host with kernels := cached.2 } }) := by
  rw [compile, exec_bind_ok (exec_get s)]
  rcases s.host.kernels.get p.signature fun cache => (kernelOf p, cache) with ⟨result, kernels⟩
  cases result <;> rfl

theorem exec_compile_ok (hkernels : s.host.kernels.Sound) {p : Program} (hp : kernelOf p = .ok p) :
    ∃ kernels : KernelCache Program, kernels.Sound ∧ exec (compile p) s = (.ok p, s.withKernels kernels) := by
  rw [exec_compile]
  simp only [KernelCache.get]
  cases hfind : s.host.kernels.find? p.signature with
  | some kernel =>
    obtain ⟨rfl, -⟩ := find?_signature hkernels hfind
    exact ⟨_, hkernels, rfl⟩
  | none =>
    have hfind' : KernelCache.find? { s.host.kernels with compilations := s.host.kernels.compilations + 1 }
        p.signature = none := hfind
    simp only [hp, KernelCache.store, hfind']
    refine ⟨_, fun entry hentry => ?_, rfl⟩
    rcases mem_append.mp hentry with hold | hnew
    · exact hkernels entry hold
    · rw [mem_singleton.mp hnew]
      exact ⟨rfl, hp⟩

/-- A program that has no kernel is not in the cache either, and the cache only counts the attempt. -/
theorem exec_compile_error (hkernels : s.host.kernels.Sound) {p : Program} {e : Host.CompileError}
    (hp : kernelOf p = .error e) : ∃ (kernels : KernelCache Program) (cause : KernelCache.Error Host.CompileError),
      kernels.Sound ∧ exec (compile p) s = (.error (.compile cause), s.withKernels kernels) := by
  rw [exec_compile]
  simp only [KernelCache.get]
  cases hfind : s.host.kernels.find? p.signature with
  | some kernel =>
    rw [(find?_signature hkernels hfind).2] at hp
    cases hp
  | none =>
    simp only [hp]
    exact ⟨{ s.host.kernels with compilations := s.host.kernels.compilations + 1 }, _, hkernels, rfl⟩

end HostM

/-! ## Divisions of work -/

/-- How a host divides work: its workers, and the least number of elements of a range. -/
structure Partition where
  workers : Workers
  minParallel : Int

/-- The state of a host that divides its work in another way. -/
def HostState.dividedBy (s : HostState) (p : Partition) : HostState :=
  { s with host := { s.host with workers := p.workers, minParallel := p.minParallel } }

/-- How the host of the state divides its work. -/
def HostState.partition (s : HostState) : Partition := ⟨s.host.workers, s.host.minParallel⟩

section

variable (s : HostState) (p : Partition)

theorem HostState.dividedBy_partition : s.dividedBy s.partition = s := rfl

@[simp] theorem HostState.heap_dividedBy : (s.dividedBy p).heap = s.heap := rfl

@[simp] theorem HostState.account_dividedBy : (s.dividedBy p).host.account = s.host.account := rfl

@[simp] theorem HostState.shelves_dividedBy : (s.dividedBy p).host.shelves = s.host.shelves := rfl

@[simp] theorem HostState.finalized_dividedBy : (s.dividedBy p).host.finalized = s.host.finalized := rfl

end

namespace HostM

open HostState

variable {ε α β : Type}

/-- The step does the same whatever the division of work is. -/
def Equivariant (x : HostM ε α) : Prop :=
  ∀ (s : HostState) (p : Partition), exec x (s.dividedBy p) = ((exec x s).1, (exec x s).2.dividedBy p)

theorem equivariant_pure (a : α) : Equivariant (pure a : HostM ε α) := fun _ _ => rfl

theorem Equivariant.bind {x : HostM ε α} {f : α → HostM ε β} (hx : Equivariant x) (hf : ∀ a, Equivariant (f a)) :
    Equivariant (x >>= f) := by
  intro s p
  have hdivided := hx s p
  rcases hexec : exec x s with ⟨e | a, s'⟩
  · rw [hexec] at hdivided
    rw [exec_bind_error hexec, exec_bind_error hdivided]
  · rw [hexec] at hdivided
    rw [exec_bind_ok hexec, exec_bind_ok hdivided, hf a s' p]

theorem equivariant_buffer (id : BufferId) : Equivariant (buffer id) := by
  intro s p
  rw [buffer, exec_bind_ok (exec_get _), exec_bind_ok (exec_get s), heap_dividedBy]
  cases s.heap.get? id <;> rfl

theorem equivariant_write (id : BufferId) (flat : Flat) : Equivariant (write id flat : HostM ε Unit) := by
  intro s p
  rw [write, exec_bind_ok (exec_get _), exec_bind_ok (exec_get s), heap_dividedBy]
  cases s.heap.get? id <;> rfl

theorem equivariant_newBuffer (shape : Shape) : Equivariant (newBuffer shape) := by
  intro s p
  rw [newBuffer, exec_bind_ok (exec_get _), exec_bind_ok (exec_get s), account_dividedBy, shelves_dividedBy,
    heap_dividedBy]
  cases s.host.account.allocate shape.footprint with
  | error e => rfl
  | ok account =>
    cases s.host.shelves.take? shape with
    | some taken =>
      obtain ⟨id, shelves⟩ := taken
      dsimp only
      cases s.heap.get? id <;> rfl
    | none =>
      cases Layout.make shape.dtype shape.size <;> rfl

theorem equivariant_clone (id : BufferId) : Equivariant (clone id) :=
  (equivariant_buffer id).bind fun b => (equivariant_newBuffer b.shape).bind fun copy =>
    (equivariant_write copy b.flat).bind fun _ => equivariant_pure copy

theorem equivariant_compile (program : Program) : Equivariant (compile program) := by
  intro s p
  rw [exec_compile, exec_compile]
  rfl

end HostM

end LazyTensor
