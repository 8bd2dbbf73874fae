import LazyTensor.Proofs.Graph.Rules
import LazyTensor.Proofs.Host.Allocation
import LazyTensor.Proofs.Kernel.Axes

/-!
# Transpositions on the host

A host transposes a buffer by the strides of the operand in the order of the permutation. In every division of work
the new buffer has the elements of the operand with permuted axes, and a second transposition by the inverse
permutation makes a buffer with the elements of the first one.
-/

namespace LazyTensor

open HostState Kernel

/-! ## Shapes -/

namespace Shape.Permuted

variable {x output : Shape} {permutation : List Int}

variable (h : x.Permuted permutation output)

include h

theorem reorders : Reorders permutation x.dims output.dims := h.dims

theorem perm_axes : permutation.Perm (axesInOrder x.dims.length) := h.axes

theorem perm_dims : output.dims.Perm x.dims := h.reorders.perm h.perm_axes rfl

theorem bounded (hx : x.Bounded) : output.Bounded where
  positive d hd := hx.positive d (h.perm_dims.mem_iff.mp hd)
  small := by
    rw [h.perm_dims.prod_eq]
    exact hx.small

theorem size_eq (hx : x.Bounded) : output.size = x.size := by
  rw [(h.bounded hx).size_eq, hx.size_eq, h.perm_dims.prod_eq]

theorem inverse {inverse : List Int} (haxes : inverse.Perm (axesInOrder x.rank))
    (hinverse : Reorders inverse permutation (axesInOrder x.rank)) : output.Permuted inverse x where
  axes := by
    have hrank : output.rank = x.rank := h.perm_dims.length_eq
    rwa [hrank]
  dims := h.reorders.of_inverse haxes hinverse rfl
  dtype := h.dtype.symm

end Shape.Permuted

namespace HostM

variable {s : HostState} {operand : Nat} {b : HostBuffer} {t : ElementType} {permutation strides : List Int}
  {output : Shape}

theorem exists_reordered_strides {x : Shape} (haxes : permutation.Perm (axesInOrder x.rank)) :
    ∃ strides, permutedStrides permutation x = some strides ∧ Reorders permutation (Shape.stridesOf x.dims) strides := by
  have hstrides := permutedStrides_eq (isPermutation_iff.mpr haxes).2
  refine ⟨_, hstrides, ?_⟩
  rw [permutedStrides, mapM_eq_some_iff] at hstrides
  rw [Reorders, ← hstrides]
  apply List.map_congr_left
  intro axis haxis
  obtain ⟨n, -, rfl⟩ := List.mem_map.mp (haxes.mem_iff.mp haxis)
  exact if_neg (Int.not_lt.mpr (Int.natCast_nonneg n))

/-- A transposition makes a buffer with the elements that its kernel writes, if it writes them in whatever ranges. -/
theorem makes_transpose (hs : s.Sound) (hlive : s.Live operand b) (hbounded : b.shape.Bounded)
    (ht : b.shape.dtype.element? = some t) (hpermuted : b.shape.Permuted permutation output)
    (hstrides : permutedStrides permutation b.shape = some strides) {src out : Array t.Elem}
    (hsrc : b.flat = .ofElements t src) (hsize : out.size = src.size)
    (hout : ∀ (ranges : List Range) (old : Array t.Elem), Covers ranges src.size → old.size = src.size →
      overRanges ranges (Kernel.transpose src output.dims strides) old = (out, none)) (p : Partition) :
    Makes s p output (.ofElements t out) (exec (transpose permutation operand output) (s.dividedBy p)) := by
  have houtType : output.dtype.element? = some t := by
    rwa [hpermuted.dtype]
  have houtSize := hpermuted.size_eq hbounded
  obtain ⟨src', hsrc', hsrcSize, hlayout⟩ := (hs.buffers operand b hlive.1).exists_elements ht
  obtain rfl : src = src' := by
    have hflat := hsrc.symm.trans hsrc'
    have has := congrArg (·.as? t) hflat
    simp only [Flat.as?_ofElements] at has
    exact Option.some.inj has
  rw [← hpermuted.dtype, ← houtSize] at hlayout
  rw [← houtSize] at hsrcSize
  have hchecks : ¬ (permutation.length ≠ b.shape.rank ∨ output.rank ≠ b.shape.rank) := by
    rintro (h | h)
    · exact h (Reorders.length_axes hpermuted.perm_axes)
    · exact h hpermuted.perm_dims.length_eq
  rw [transpose, exec_bind_ok (exec_buffer_dividedBy hlive p), if_neg hchecks, hstrides]
  refine makes_newBuffer_bind hs hlayout fun id s' old hmade => ?_
  obtain ⟨data, rfl, hdata, -⟩ := hmade.elements houtType
  have hcovers := covers_ranges (s'.dividedBy p).host hsrcSize
  -- a bounded shape has elements, so the kernel runs
  have hnonempty : ¬ ((s'.dividedBy p).host.ranges output.size).isEmpty = true := by
    have hpos := prod_pos (hpermuted.bounded hbounded).positive
    rw [← (hpermuted.bounded hbounded).size_eq] at hpos
    rw [hcovers.isEmpty_eq, beq_iff_eq]
    omega
  refine ⟨s'.put id ⟨output, .ofElements t out, false⟩, ?_, hmade.put houtType out (by rwa [hsize])⟩
  rw [exec_bind_ok (exec_get _), if_neg hnonempty, exec_bind_ok (exec_elementType houtType _),
    exec_bind_ok (exec_elements t hsrc _), exec_bind_ok (exec_buffer_dividedBy hmade.live p),
    exec_bind_ok (exec_elements t rfl _), hout _ data hcovers (by omega)]
  rw [exec_bind_ok (exec_write_dividedBy hmade.live _ p)]
  rfl

/-- Whatever host was configured and whatever was called before: a live buffer of any shape whose elements can be
counted is transposed by any permutation of its axes. The elements of the output are those of the operand with permuted
axes. The kernel writes them in whatever ranges the output is divided into, whatever was there before, and all that it
reads is inside the operand. A host that divides its work in whatever way makes a new buffer with them, if there is room
for it, and a transposition of that buffer by the inverse makes one with the elements of the operand. -/
theorem transpose_permutes_axes (configuration : String) (host : Host)
    (hhost : Host.ofConfiguration configuration = .ok host) (calls : List HostCall) (operand : Nat) (b : HostBuffer)
    (hlive : (run ⟨host, {}⟩ calls).Live operand b) (hbounded : b.shape.Bounded) (t : ElementType)
    (ht : b.shape.dtype.element? = some t) (permutation : List Int) (output : Shape)
    (hpermuted : b.shape.Permuted permutation output) :
    let s := run ⟨host, {}⟩ calls
    ∃ (strides : List Int) (src out : Array t.Elem), permutedStrides permutation b.shape = some strides ∧
      b.flat = .ofElements t src ∧ IsTransposed permutation b.shape.dims output.dims src out ∧
      (∀ (ranges : List Range) (old : Array t.Elem), Covers ranges src.size → old.size = src.size →
        overRanges ranges (Kernel.transpose src output.dims strides) old = (out, none)) ∧
      (∀ p, Makes s p output (.ofElements t out) (exec (transpose permutation operand output) (s.dividedBy p))) ∧
      ∀ inverse : List Int, inverse.Perm (axesInOrder b.shape.rank) →
        Reorders inverse permutation (axesInOrder b.shape.rank) →
        ∀ (mid : Nat) (s' : HostState), Made s [] output mid s' (.ofElements t out) → ∀ p,
          Makes s' p b.shape b.flat (exec (transpose inverse mid b.shape) (s'.dividedBy p)) := by
  intro s
  have hs : s.Sound := (intact_run calls ⟨sound_configured hhost, rfl⟩).sound
  obtain ⟨strides, hstrides, hreorders⟩ := exists_reordered_strides hpermuted.axes
  obtain ⟨src, hsrc, hsize, -⟩ := (hs.buffers operand b hlive.1).exists_elements ht
  rw [hbounded.size_eq] at hsize
  obtain ⟨out, hout, hkernel⟩ := exists_isTransposed hbounded.positive hbounded.small hpermuted.perm_axes
    hpermuted.reorders hreorders hsize
  refine ⟨strides, src, out, hstrides, hsrc, hout, hkernel, ?_, ?_⟩
  · exact makes_transpose hs hlive hbounded ht hpermuted hstrides hsrc hout.size_eq hkernel
  · intro inverse haxes hinverse mid s' hmade p
    -- the second transposition takes the first output as its operand
    have hback := hpermuted.inverse haxes hinverse
    have hbounded' := hpermuted.bounded hbounded
    have ht' : output.dtype.element? = some t := by
      rw [hpermuted.dtype]
      exact ht
    have hsize' : (out.size : Int) = output.dims.prod := by
      rw [hout.size_eq, hsize, hpermuted.perm_dims.prod_eq]
    obtain ⟨strides', hstrides', hreorders'⟩ := exists_reordered_strides hback.axes
    obtain ⟨back, hbackElements, hkernel'⟩ := exists_isTransposed hbounded'.positive hbounded'.small hback.perm_axes
      hback.reorders hreorders' hsize'
    obtain rfl : back = src := hout.eq_of_inverse hbackElements hbounded.positive hsize haxes hinverse
    rw [hsrc]
    exact makes_transpose hmade.sound hmade.live hbounded' ht' hback hstrides' rfl hbackElements.size_eq hkernel' p

/-- Three axes in the order third, first, second, and back. -/
theorem transpose_permutes_three_axes :
    let x : Shape := ⟨.int32, [2, 3, 2]⟩
    let y : Shape := ⟨.int32, [2, 2, 3]⟩
    let calls : List HostCall := [.execute (.arange (.ofInt 0) (.ofInt 1)) [] [] x]
    ∃ host, Host.ofConfiguration "" = .ok host ∧
      let s := run ⟨host, {}⟩ calls
      ∃ (b : HostBuffer) (src out : Array (IntWord .int32)), s.Live 0 b ∧ b.flat = .ofElements .int32 src ∧
        IsTransposed [2, 0, 1] x.dims y.dims src out ∧
        (∀ p, Makes s p y (.ofElements .int32 out) (exec (transpose [2, 0, 1] 0 y) (s.dividedBy p))) ∧
        ∀ (mid : Nat) (s' : HostState), Made s [] y mid s' (.ofElements .int32 out) → ∀ p,
          Makes s' p x b.flat (exec (transpose [1, 2, 0] mid x) (s'.dividedBy p)) := by
  intro x y calls
  let host := Host.plain
  have hhost := Host.ofConfiguration_empty
  let b := ((run ⟨host, {}⟩ calls).heap.get? 0).get (by decide +kernel)
  have hlive : (run ⟨host, {}⟩ calls).Live 0 b := ⟨(Option.some_get _).symm, by decide +kernel⟩
  have hshape : b.shape = x := by decide +kernel
  have hpermuted : b.shape.Permuted [2, 0, 1] y := by
    rw [hshape]
    exact ⟨by decide, by decide, rfl⟩
  obtain ⟨strides, src, out, -, hsrc, hout, -, hmakes, hback⟩ := transpose_permutes_axes "" host hhost calls 0 b hlive
    (by rw [hshape]; exact ⟨by decide, by decide⟩) .int32 (by rw [hshape]; rfl) [2, 0, 1] y hpermuted
  rw [hshape] at hout hback
  exact ⟨host, hhost, b, src, out, hlive, hsrc, hout, hmakes, hback [1, 2, 0] (by decide) (by unfold Reorders; decide)⟩

end HostM

end LazyTensor
