import LazyTensor.Proofs.Exec
import LazyTensor.Proofs.Graph.Typing
import Mathlib.Data.List.Nodup
import Mathlib.Data.Option.Basic

/-!
# Rules of construction

`Construction.Rule` says from which operand shapes each call builds a node, and of which operation and shape,
without the order of the checks and their errors. Each check passes exactly if the part of the rule that it is
made for holds. An operation accepts the operand shapes from which a rule builds it (`Construction.Rule.accepts`),
and the shape that comes out is valid (`Construction.Rule.valid`).
-/

namespace LazyTensor

open List Option

/-! ## Rules -/

/-- Two matrices, or two batches of as many matrices, with the shape of their product. -/
inductive Shape.Product : Shape → Shape → Shape → Prop where
  | matrices (t : DType) (m k n : Int) : Product ⟨t, [m, k]⟩ ⟨t, [k, n]⟩ ⟨t, [m, n]⟩
  | batches (t : DType) (b m k n : Int) : Product ⟨t, [b, m, k]⟩ ⟨t, [b, k, n]⟩ ⟨t, [b, m, n]⟩

/-- The permutation has each axis of the operand once, and gives the axes of the result in order. -/
structure Shape.Permuted (x : Shape) (permutation : List Int) (s : Shape) : Prop where
  axes : permutation.Perm ((List.range x.rank).map Int.ofNat)
  dims : s.dims.map some = permutation.map fun axis => x.dims[axis.toNat]?
  dtype : s.dtype = x.dtype

/-- The operation and the shape of the node that a call builds from operands of some shapes. -/
inductive Construction.Rule : Construction → List Shape → Operation → Shape → Prop where
  | fill (graph : Option GraphId) {device : Device} {s : Shape} (value : Double) (device_ok : device.ok = true)
    (valid : s.Valid) : Rule (.fill graph device s value) [] (.fill value) s
  | arange (graph : Option GraphId) {device : Device} {s : Shape} (start step : Double)
    (device_ok : device.ok = true) (valid : s.Valid) (rank : s.rank = 1) :
    Rule (.arange graph device s start step) [] (.arange start step) s
  | arangeFromTo (graph : Option GraphId) {device : Device} {t : DType} {count : Int} (start stop : Double)
    (device_ok : device.ok = true) (valid : Shape.Valid ⟨t, [count]⟩) :
    Rule (.arangeFromTo graph device ⟨t, [count]⟩ start stop) []
      (.arange start (Workspace.stepBetween start stop count)) ⟨t, [count]⟩
  | elementwise {e : Elementwise} (operands : List Handle) {s : Shape} (defined : e.DefinedFor s.dtype) :
    Rule (.elementwise e operands) (List.replicate e.arity s) (.elementwise e) s
  | matMul (lhs rhs : Handle) {l r s : Shape} (product : Shape.Product l r s) :
    Rule (.matMul lhs rhs) [l, r] (.matMul .zero .zero false) s
  | matMulAxpby (lhs rhs bias : Handle) (alpha beta : Double) {l r s : Shape} (product : Shape.Product l r s) :
    Rule (.matMulAxpby lhs rhs bias alpha beta) [l, r, s] (.matMul alpha beta true) s
  | transpose (x : Handle) {permutation : List Int} {operand s : Shape} (permuted : operand.Permuted permutation s) :
    Rule (.transpose x permutation) [operand] (.transpose permutation) s
  | cast (x : Handle) {dtype : DType} {operand : Shape} (supported : dtype.isSupported = true)
    (other : operand.dtype ≠ dtype) : Rule (.cast x dtype) [operand] (.cast operand.dtype) ⟨dtype, operand.dims⟩

/-- The graph and the device that a call without operands names. -/
def Construction.source? : Construction → Option (Option GraphId × Device)
  | .fill graph device .. | .arange graph device .. | .arangeFromTo graph device .. => some (graph, device)
  | _ => none

/-! ## Checks of shapes -/

theorem Shape.notPositive?_eq_none_iff {dims : List Int} : notPositive? dims = none ↔ ∀ d ∈ dims, 0 < d := by
  simp [notPositive?, findIdx?_eq_none_iff]

variable {s : Shape}

theorem checkShape_eq_ok_iff : checkShape s = .ok () ↔ s.Valid := by
  constructor
  · intro h
    rw [checkShape] at h
    split at h
    · cases h
    · rename_i hsupported
      split at h
      · cases h
      · rename_i hpositive
        exact ⟨by simpa using hsupported, Shape.notPositive?_eq_none_iff.mp hpositive⟩
  · intro h
    rw [checkShape, h.supported, Shape.notPositive?_eq_none_iff.mpr h.positive]
    rfl

theorem checkRankOne_eq_ok_iff : checkRankOne s = .ok () ↔ s.rank = 1 := by
  rw [checkRankOne]
  split <;> simp [*]

theorem checkDevice_eq_ok_iff {device : Device} : checkDevice device = .ok () ↔ device.ok = true := by
  rw [checkDevice]
  split <;> simp [*]

theorem checkSameShape_eq_ok_iff {first : Shape} {i : Nat} {shapes : List Shape} :
    checkSameShape first i shapes = .ok () ↔ ∀ s ∈ shapes, s = first := by
  induction shapes generalizing i with
  | nil => simp [checkSameShape]
  | cons s shapes ih =>
    have hs : s = first ↔ s.dtype = first.dtype ∧ s.dims = first.dims := by
      cases s
      cases first
      exact iff_of_eq (Shape.mk.injEq ..)
    rw [checkSameShape, forall_mem_cons, hs, ← ih (i := i + 1)]
    split
    · simp [*]
    · split <;> simp_all

variable {e : Elementwise}

theorem checkDefined_eq_ok_iff {t : DType} : checkDefined e t = .ok () ↔ e.DefinedFor t := by
  constructor
  · intro h
    rw [checkDefined] at h
    split at h
    · cases h
    · rename_i hf
      split at h
      · cases h
      · rename_i hs
        exact ⟨fun he => by simpa [he] using hf, fun he => by simpa [he] using hs⟩
  · intro h
    have hfloat : (e.floatOnly && !t.isFloat) = false := by
      cases hf : e.floatOnly with
      | false => rfl
      | true => rw [h.float hf]; rfl
    have hsigned : (e.signedOnly && t.isUnsigned) = false := by
      cases hs : e.signedOnly with
      | false => rfl
      | true => rw [h.signed hs]; rfl
    rw [checkDefined, hfloat, hsigned]
    rfl

theorem elementwiseShape_eq_ok_iff {operands : List Shape} :
    elementwiseShape e operands = .ok s ↔ operands = replicate e.arity s ∧ e.DefinedFor s.dtype := by
  constructor
  · intro h
    by_cases hlength : operands.length = e.arity
    · simp only [elementwiseShape, hlength, ne_eq] at h
      cases operands with
      | nil => cases h
      | cons first rest =>
        obtain ⟨⟨⟩, hsame, h⟩ := bind_eq_ok h
        obtain ⟨⟨⟩, hdefined, h⟩ := bind_eq_ok h
        obtain rfl := Except.ok.inj h
        refine ⟨?_, checkDefined_eq_ok_iff.mp hdefined⟩
        rw [← hlength]
        exact eq_replicate_of_mem (forall_mem_cons.mpr ⟨rfl, checkSameShape_eq_ok_iff.mp hsame⟩)
    · simp only [elementwiseShape, ne_eq, hlength] at h
      cases h
  · rintro ⟨rfl, hdefined⟩
    obtain ⟨count, harity⟩ : ∃ count, e.arity = count + 1 := by
      cases e <;> exact ⟨_, rfl⟩
    rw [harity, replicate_succ]
    have hlength : (s :: replicate count s).length = e.arity := by
      rw [length_cons, length_replicate, harity]
    have hsame : checkSameShape s 1 (replicate count s) = .ok () :=
      checkSameShape_eq_ok_iff.mpr fun _ => eq_of_mem_replicate
    simp only [elementwiseShape, hlength, hsame, checkDefined_eq_ok_iff.mpr hdefined]
    exact if_neg fun h => h rfl

theorem productShape_eq_ok_iff {l r : Shape} : productShape l r = .ok s ↔ Shape.Product l r s := by
  constructor
  · intro h
    obtain ⟨t, ldims⟩ := l
    obtain ⟨t', rdims⟩ := r
    rw [productShape] at h
    split at h
    · cases h
    · rename_i hdtype
      obtain rfl : t = t' := Decidable.not_not.mp hdtype
      split at h
      · rename_i m k k' n hl hr
        cases hl
        cases hr
        split at h
        · cases h
        · rename_i hk
          obtain rfl : k = k' := Decidable.not_not.mp hk
          cases h
          exact .matrices t m k n
      · rename_i b m k b' k' n hl hr
        cases hl
        cases hr
        split at h
        · cases h
        · rename_i hb
          obtain rfl : b = b' := Decidable.not_not.mp hb
          split at h
          · cases h
          · rename_i hk
            obtain rfl : k = k' := Decidable.not_not.mp hk
            cases h
            exact .batches t b m k n
      · cases h
  · intro h
    cases h <;> simp [productShape]

variable {permutation : List Int}

theorem perm_range_of_isPermutation {rank : Nat} (hlength : permutation.length = rank) (h : isPermutation rank permutation = true) :
    (permutation.map Int.toNat).Perm (range rank) := by
  rw [isPermutation, Bool.and_eq_true, List.all_eq_true] at h
  obtain ⟨hbounds, hnodup⟩ := h
  simp only [Bool.and_eq_true, decide_eq_true_eq] at hbounds hnodup
  have hnodup' : (permutation.map Int.toNat).Nodup := by
    rw [List.Nodup, pairwise_map]
    refine hnodup.imp_of_mem fun ha hb hne => ?_
    have hapos := (hbounds _ ha).1
    have hbpos := (hbounds _ hb).1
    omega
  have hsubset : permutation.map Int.toNat ⊆ range rank := by
    intro k hk
    obtain ⟨axis, haxis, rfl⟩ := List.mem_map.mp hk
    have hlt := hbounds axis haxis
    exact mem_range.mpr (by omega)
  rw [perm_ext_iff_of_nodup hnodup' nodup_range]
  refine fun k => ⟨fun hk => hsubset hk, fun hk => ?_⟩
  -- with an axis that is not taken there would be more axes than the rank
  apply Decidable.byContradiction
  intro hnot
  have hle := (nodup_cons.mpr ⟨hnot, hnodup'⟩).length_le_of_subset (cons_subset.mpr ⟨hk, hsubset⟩)
  rw [length_cons, length_map, length_range] at hle
  omega

theorem isPermutation_iff {rank : Nat} :
    (permutation.length = rank ∧ isPermutation rank permutation = true) ↔
      permutation.Perm ((range rank).map Int.ofNat) := by
  constructor
  · -- no axis is negative, so nothing is lost when they are read as numbers
    rintro ⟨hlength, h⟩
    have hperm := (perm_range_of_isPermutation hlength h).map Int.ofNat
    have hsame : (permutation.map Int.toNat).map Int.ofNat = permutation := by
      rw [isPermutation, Bool.and_eq_true, List.all_eq_true] at h
      have hnonneg : ∀ axis ∈ permutation, Int.ofNat axis.toNat = axis := by
        intro axis haxis
        have hbounds := h.1 axis haxis
        rw [Bool.and_eq_true, decide_eq_true_eq] at hbounds
        exact Int.toNat_of_nonneg hbounds.1
      rw [List.map_map]
      exact (map_congr_left hnonneg).trans (List.map_id' _)
    rwa [hsame] at hperm
  · intro h
    have hlength := h.length_eq
    rw [length_map, length_range] at hlength
    refine ⟨hlength, ?_⟩
    rw [isPermutation, Bool.and_eq_true, List.all_eq_true, decide_eq_true_eq]
    refine ⟨fun axis haxis => ?_, h.nodup_iff.mpr (nodup_range.map fun _ _ => Int.ofNat.inj)⟩
    obtain ⟨k, hk, rfl⟩ := List.mem_map.mp (h.mem_iff.mp haxis)
    rw [mem_range] at hk
    simp
    omega

theorem transposeShape_eq_ok {x : Shape} (h : transposeShape x permutation = .ok s) :
    permutation.length = x.rank ∧ isPermutation x.rank permutation = true ∧
      s = ⟨x.dtype, permutation.map fun axis => x.dims.getD axis.toNat 0⟩ := by
  rw [transposeShape] at h
  split at h
  · cases h
  · rename_i hlength
    split at h
    · cases h
    · rename_i hperm
      exact ⟨Decidable.not_not.mp hlength, by simpa using hperm, (Except.ok.inj h).symm⟩

theorem transposeShape_eq_ok_iff {x : Shape} : transposeShape x permutation = .ok s ↔ x.Permuted permutation s := by
  -- every axis is one of the operand, so the default dimension is never taken
  have hdims : permutation.Perm ((range x.rank).map Int.ofNat) →
      (permutation.map fun axis => x.dims.getD axis.toNat 0).map some =
        permutation.map fun axis => x.dims[axis.toNat]? := by
    intro hperm
    rw [List.map_map]
    refine map_congr_left fun axis haxis => ?_
    obtain ⟨k, hk, rfl⟩ := List.mem_map.mp (hperm.mem_iff.mp haxis)
    have hlt : k < x.dims.length := mem_range.mp hk
    simp [hlt]
  constructor
  · intro h
    obtain ⟨hlength, hperm, rfl⟩ := transposeShape_eq_ok h
    have haxes := isPermutation_iff.mp ⟨hlength, hperm⟩
    exact ⟨haxes, hdims haxes, rfl⟩
  · intro h
    obtain ⟨hlength, hperm⟩ := isPermutation_iff.mpr h.axes
    have heq : s.dims = permutation.map fun axis => x.dims.getD axis.toNat 0 :=
      map_injective_iff.mpr (some_injective _) (h.dims.trans (hdims h.axes).symm)
    rw [transposeShape, if_neg (fun hne => hne hlength), hperm, ← heq, ← h.dtype]
    rfl

/-! ## Nodes of rules -/

theorem Shape.Product.valid {l r : Shape} (h : Shape.Product l r s) (hl : l.Valid) (hr : r.Valid) : s.Valid := by
  have hlhs := hl.positive
  have hrhs := hr.positive
  cases h with
  | matrices t m k n => exact ⟨hl.supported, by simp_all⟩
  | batches t b m k n => exact ⟨hl.supported, by simp_all⟩

theorem Shape.Permuted.valid {x : Shape} (h : x.Permuted permutation s) (hx : x.Valid) : s.Valid where
  supported := h.dtype ▸ hx.supported
  positive d hd := by
    have hmem : some d ∈ permutation.map fun axis => x.dims[axis.toNat]? := h.dims ▸ List.mem_map_of_mem hd
    obtain ⟨axis, -, haxis⟩ := List.mem_map.mp hmem
    exact hx.positive d (mem_of_getElem? haxis)

namespace Construction.Rule

variable {c : Construction} {shapes : List Shape} {op : Operation}

/-- An operation accepts the shapes from which a rule builds it. -/
theorem accepts (h : c.Rule shapes op s) : op.Accepts shapes s := by
  cases h with
  | fill _ value => exact .fill value s
  | arange _ start step _ _ hrank => exact .arange start step s hrank
  | arangeFromTo _ start => exact .arange start _ _ rfl
  | elementwise _ hdefined => exact .elementwise _ s hdefined
  | matMul _ _ hproduct => exact .matMul _ _ _ _ s (productShape_eq_ok_iff.mpr hproduct)
  | matMulAxpby _ _ _ alpha beta hproduct => exact .matMulBias alpha beta _ _ s (productShape_eq_ok_iff.mpr hproduct)
  | transpose _ hpermuted => exact .transpose _ _ s (transposeShape_eq_ok_iff.mpr hpermuted)
  | cast _ _ hother => exact .cast _ _ rfl hother

/-- Valid operands give a valid result. -/
theorem valid (h : c.Rule shapes op s) (hshapes : ∀ x ∈ shapes, x.Valid) : s.Valid := by
  cases h with
  | fill _ _ _ hs => exact hs
  | arange _ _ _ _ hs => exact hs
  | arangeFromTo _ _ _ _ hs => exact hs
  | @elementwise e =>
    have harity : e.arity ≠ 0 := by cases e <;> nofun
    exact hshapes s (mem_replicate.mpr ⟨harity, rfl⟩)
  | matMul _ _ hproduct => exact hproduct.valid (hshapes _ (.head _)) (hshapes _ (.tail _ (.head _)))
  | matMulAxpby => exact hshapes s (.tail _ (.tail _ (.head _)))
  | transpose _ hpermuted => exact hpermuted.valid (hshapes _ (.head _))
  | cast _ hsupported => exact ⟨hsupported, (hshapes _ (.head _)).positive⟩

theorem kind_ne_fused (h : c.Rule shapes op s) : op.kind ≠ .fused := by
  cases h <;> nofun

/-- A call without operands names a graph and a valid device. -/
theorem source (h : c.Rule [] op s) : ∃ graph device, c.source? = some (graph, device) ∧ device.ok = true := by
  generalize hshapes : [] = shapes at h
  cases h with
  | fill graph _ hdevice => exact ⟨graph, _, rfl, hdevice⟩
  | arange graph _ _ hdevice => exact ⟨graph, _, rfl, hdevice⟩
  | arangeFromTo graph _ _ hdevice => exact ⟨graph, _, rfl, hdevice⟩
  | @elementwise e => cases e <;> cases hshapes
  | matMul | matMulAxpby | transpose | cast => cases hshapes

end Construction.Rule

end LazyTensor
