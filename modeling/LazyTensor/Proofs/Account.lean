import LazyTensor.Account
import LazyTensor.Shape
import Mathlib.Data.UInt

/-!
# What accounts count

An account adds buffers to another if it counts these beside what the other counts. Which buffers were counted
last does not matter, and one that is freed is counted no more. A step that takes at most one buffer and then frees
others raises the peak by that buffer at most.
-/

namespace LazyTensor

open List

namespace Account

variable {base a a' : Account} {shape : Shape} {shapes shapes' : List Shape} {size : UInt64}

/-- The accounts count the same buffers and bytes. -/
structure SameUse (a a' : Account) : Prop where
  buffers_eq : a'.buffers = a.buffers
  live_eq : a'.live = a.live

/-- The account counts buffers of the shapes beside what `base` counts. -/
structure Adds (base a : Account) (shapes : List Shape) : Prop where
  buffers_eq : a.buffers = base.buffers + shapes.length
  live_eq : a.live = base.live + (shapes.map Shape.footprint).sum

theorem SameUse.refl (a : Account) : SameUse a a := ⟨rfl, rfl⟩

theorem adds_nil (a : Account) : Adds a a [] := by
  constructor
  · simp
  · simp

theorem Adds.sameUse (h : Adds base a []) : SameUse base a := by
  constructor
  · simpa using h.buffers_eq
  · simpa using h.live_eq

theorem Adds.congr (h : Adds base a shapes) (hsame : SameUse a a') : Adds base a' shapes :=
  ⟨hsame.buffers_eq.trans h.buffers_eq, hsame.live_eq.trans h.live_eq⟩

theorem sum_footprint_perm (h : shapes.Perm shapes') :
    (shapes.map Shape.footprint).sum = (shapes'.map Shape.footprint).sum := by
  induction h with
  | nil => rfl
  | cons x _ ih => rw [map_cons, map_cons, sum_cons, sum_cons, ih]
  | swap x y l =>
    simp only [map_cons, sum_cons]
    rw [← UInt64.add_assoc, ← UInt64.add_assoc, UInt64.add_comm y.footprint]
  | trans _ _ ih ih' => exact ih.trans ih'

theorem Adds.perm (h : Adds base a shapes) (hperm : shapes.Perm shapes') : Adds base a shapes' := by
  constructor
  · rw [← hperm.length_eq]
    exact h.buffers_eq
  · rw [← sum_footprint_perm hperm]
    exact h.live_eq

theorem allocate_eq_ok (h : a.allocate size = .ok a') : a' = { a with
    buffers := a.buffers + 1
    live := a.live + size
    peak := max a.peak (a.live + size) } := by
  rw [allocate] at h
  split at h
  · cases h
  · exact (Except.ok.inj h).symm

theorem Adds.allocate (h : Adds base a shapes) (ha : a.allocate shape.footprint = .ok a') :
    Adds base a' (shape :: shapes) := by
  obtain rfl := allocate_eq_ok ha
  constructor
  · show a.buffers + 1 = _
    rw [h.buffers_eq, length_cons]
    omega
  · show a.live + shape.footprint = _
    rw [h.live_eq, map_cons, sum_cons, UInt64.add_comm shape.footprint, UInt64.add_assoc]

theorem Adds.free (h : Adds base a (shape :: shapes)) : Adds base (a.free shape.footprint) shapes := by
  constructor
  · show a.buffers - 1 = _
    rw [h.buffers_eq, length_cons]
    omega
  · show a.live - shape.footprint = _
    rw [h.live_eq, map_cons, sum_cons, UInt64.add_comm shape.footprint, ← UInt64.add_assoc,
      UInt64.add_sub_cancel]

theorem sameUse_free (ha : a.allocate shape.footprint = .ok a') : SameUse a (a'.free shape.footprint) :=
  ((adds_nil a).allocate ha).free.sameUse

/-- At most one buffer is counted, of a shape. -/
def Takes (a : Account) (shape : Shape) (a' : Account) : Prop := a' = a ∨ a.allocate shape.footprint = .ok a'

/-- Buffers are freed, one after another. -/
inductive Freed (a : Account) : Account → Prop where
  | refl : Freed a a
  | free {a' : Account} (size : UInt64) (h : Freed a a') : Freed a (a'.free size)

theorem Freed.trans {a'' : Account} (h : Freed a a') (h' : Freed a' a'') : Freed a a'' := by
  induction h' with
  | refl => exact h
  | free size _ ih => exact .free size ih

theorem Freed.peak_eq (h : a.Freed a') : a'.peak = a.peak := by
  induction h with
  | refl => rfl
  | free size _ ih => exact ih

theorem Takes.buffers_le (h : a.Takes shape a') : a'.buffers ≤ a.buffers + 1 := by
  rcases h with rfl | h
  · omega
  · obtain rfl := allocate_eq_ok h
    exact Int.le_refl _

theorem Takes.peak_le (h : a.Takes shape a') {bound : UInt64} (hpeak : a.peak ≤ bound)
    (hlive : a.live + shape.footprint ≤ bound) : a'.peak ≤ bound := by
  rcases h with rfl | h
  · exact hpeak
  · obtain rfl := allocate_eq_ok h
    show (if a.peak ≤ a.live + shape.footprint then a.live + shape.footprint else a.peak) ≤ bound
    split
    · exact hlive
    · exact hpeak

theorem limit_eq_of_allocate (h : a.allocate size = .ok a') : a'.limit = a.limit := by
  rw [allocate_eq_ok h]

theorem limit_ne_zero_of_allocate {e : Error} (h : a.allocate size = .error e) : a.limit ≠ 0 := by
  rw [allocate] at h
  split at h
  · rename_i hlt
    intro hzero
    rw [hzero] at hlt
    exact absurd hlt.1 (by decide)
  · cases h

end Account

end LazyTensor
