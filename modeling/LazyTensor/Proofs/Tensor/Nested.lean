import LazyTensor.Proofs.RowMajor
import LazyTensor.Tensor.Nested

/-!
# Nested data in row-major order

If there are as many elements as the dimensions say, then each part of an axis lies within the elements, and their
nested form has them in row-major order. The only thing that can be missing is memory for the lists of lists.
-/

namespace LazyTensor.Nested

open List Option

variable {α β ε : Type} {dims : List Int} {data : Array α} {start stop i : Nat} {d : Int}

/-! ## Dimensions, elements and their order -/

/-- There is a list for each axis: those at depth `a` are as long as axis `a`, and below the last axis are elements. -/
def HasDims : List Int → Nested α → Prop
  | [], .leaf _ => True
  | d :: dims, .list items => (items.length : Int) = d ∧ ∀ item ∈ items, item.HasDims dims
  | _, _ => False

/-- The element at an index, which has a position for each list around the element. -/
def at? : List Int → Nested α → Option α
  | [], .leaf a => some a
  | x :: index, .list items => if 0 ≤ x then items[x.toNat]?.bind (at? index) else none
  | _, _ => none

/-- The elements without the lists around them. -/
def leaves : Nested α → List α
  | .leaf a => [a]
  | .list items => items.attach.flatMap fun ⟨item, _⟩ => item.leaves

@[simp] theorem leaves_leaf (a : α) : (leaf a).leaves = [a] := by rw [leaves]

@[simp] theorem leaves_list (items : List (Nested α)) : (list items).leaves = items.flatMap leaves := by
  simp [leaves]

/-- There is memory for all lists of lists. -/
def Allocatable (dims : List Int) : Prop := ∀ d ∈ dims.dropLast, entryBytes * d.toNat ≤ Layout.maxBytes

instance (dims : List Int) : Decidable (Allocatable dims) := inferInstanceAs (Decidable (∀ d ∈ dims.dropLast, _))

/-- Nested data with dimensions and with the elements from a place on. -/
structure Holds (data : Array α) (dims : List Int) (start : Nat) (nested : Nested α) : Prop where
  hasDims : nested.HasDims dims
  at_eq : ∀ index, IsIndex dims index → nested.at? index = data[start + (rowMajor dims index).toNat]?
  leaves_eq : nested.leaves = (data.extract start (start + dims.prod.toNat)).toList

/-! ## Lists of items -/

theorem exists_collect {item : Nat → Except ε β} (P : Nat → β → Prop) (count i : Nat) (items : Array β)
    (h : ∀ j, i ≤ j → j < i + count → ∃ x, item j = .ok x ∧ P j x) :
    ∃ xs, collect item count i items = .ok (items ++ xs.toArray) ∧ List.Forall₂ P (range' i count) xs := by
  induction count generalizing i items with
  | zero => exact ⟨[], by simp [collect], .nil⟩
  | succ count ih =>
    obtain ⟨x, hx, hP⟩ := h i (Nat.le_refl i) (by omega)
    obtain ⟨xs, hxs, hall⟩ := ih (i + 1) (items.push x) fun j hle hlt => h j (by omega) (by omega)
    refine ⟨x :: xs, ?_, ?_⟩
    · rw [collect, hx]
      simpa using hxs
    · rw [range'_succ]
      exact .cons hP hall

theorem collect_eq_error {item : Nat → Except ε β} {e : ε} {count : Nat} (hcount : 0 < count) (h : item i = .error e)
    (items : Array β) : collect item count i items = .error e := by
  obtain ⟨count, rfl⟩ : ∃ n, count = n + 1 := ⟨count - 1, by omega⟩
  rw [collect, h]

/-! ## Parts of an axis -/

theorem flatMap_extract (data : Array α) (start length count : Nat) :
    ((range' 0 count).flatMap fun i => (data.extract (start + i * length) (start + (i + 1) * length)).toList) =
      (data.extract start (start + count * length)).toList := by
  induction count with
  | zero => simp
  | succ count ih =>
    rw [range'_concat, flatMap_append, ih, flatMap_singleton, ← Array.toList_append, Nat.one_mul,
      Nat.zero_add, Array.extract_append_extract]
    congr 2
    · omega
    · rw [Nat.add_mul]
      omega

theorem holds_leaves (hd : 0 ≤ d) (hstop : start + d.toNat ≤ data.size) :
    Holds data [d] start (.list ((data.extract start (start + d.toNat)).toList.map .leaf)) := by
  have hprod : ([d] : List Int).prod = d := prod_singleton
  refine ⟨⟨?_, ?_⟩, ?_, ?_⟩
  · simp
    omega
  · intro item hitem
    obtain ⟨a, -, rfl⟩ := List.mem_map.mp hitem
    trivial
  · intro index hindex
    cases hindex with
    | @cons _ x _ index hx hindex =>
      cases hindex
      have hplace : rowMajor [d] [x] = x := by simp [rowMajor]
      have hlt : x.toNat < d.toNat := by omega
      have hget : data[start + x.toNat]? = some data[start + x.toNat] := Array.getElem?_eq_getElem (by omega)
      simp [at?, hx.1, hplace, hlt, hget]
  · rw [leaves_list, flatMap_map]
    simp

theorem flatMap_leaves {starts : List Nat} {items : List (Nested α)}
    (h : List.Forall₂ (fun i => Holds data dims (start + i * dims.prod.toNat)) starts items) :
    items.flatMap leaves = starts.flatMap fun i =>
      (data.extract (start + i * dims.prod.toNat) (start + (i + 1) * dims.prod.toNat)).toList := by
  induction h with
  | nil => rfl
  | cons hitem _ ih =>
    rw [flatMap_cons, flatMap_cons, ih, hitem.leaves_eq, Nat.add_one_mul, Nat.add_assoc]

theorem holds_list (hd : 0 ≤ d) (hprod : 0 ≤ dims.prod) {items : List (Nested α)}
    (h : List.Forall₂ (fun i => Holds data dims (start + i * dims.prod.toNat)) (range' 0 d.toNat) items) :
    Holds data (d :: dims) start (.list items) := by
  have hlength : items.length = d.toNat := by rw [← h.length_eq, length_range']
  have hitem : ∀ i (hi : i < items.length), Holds data dims (start + i * dims.prod.toNat) items[i] := by
    intro i hi
    have hget := (List.forall₂_iff_get.mp h).2 i (by simpa [hlength] using hi) hi
    simpa using hget
  refine ⟨⟨by omega, fun item hmem => ?_⟩, ?_, ?_⟩
  · obtain ⟨i, hi, rfl⟩ := mem_iff_getElem.mp hmem
    exact (hitem i hi).hasDims
  · intro index hindex
    cases hindex with
    | @cons _ x _ index hx hindex =>
      have hi : x.toNat < items.length := by omega
      have hplace : (rowMajor (d :: dims) (x :: index)).toNat =
          x.toNat * dims.prod.toNat + (rowMajor dims index).toNat := by
        have hbounds := rowMajor_bounds hindex
        have hmul : 0 ≤ x * dims.prod := Int.mul_nonneg hx.1 hprod
        rw [rowMajor, Int.toNat_add hmul hbounds.1, Int.toNat_mul hx.1 hprod]
      rw [at?, if_pos hx.1, getElem?_eq_getElem hi, bind_some, (hitem _ hi).at_eq index hindex, hplace,
        Nat.add_assoc]
  · rw [leaves_list, flatMap_leaves h, flatMap_extract, prod_cons, Int.toNat_mul hd hprod]

/-! ## The nested form of a part -/

theorem isPart_natCast {first last size : Nat} (hle : first ≤ last) (hlast : last ≤ size) :
    isPart first last size = true := by
  simp only [isPart, Bool.and_eq_true, decide_eq_true_eq]
  omega

theorem part_le (hprod : 0 ≤ dims.prod) (hi : i < d.toNat) (hstop : start + (d :: dims).prod.toNat ≤ data.size) :
    start + (i + 1) * dims.prod.toNat ≤ data.size := by
  have hle : (i + 1) * dims.prod.toNat ≤ d.toNat * dims.prod.toNat := Nat.mul_le_mul_right _ hi
  rw [prod_cons, Int.toNat_mul (by omega) hprod] at hstop
  omega

theorem part_eq {e : Int} (hprod : 0 ≤ (e :: dims).prod) (hword : (data.size : Int) < wordLimit) (hi : i < d.toNat)
    (hstop : start + (d :: e :: dims).prod.toNat ≤ data.size) :
    (let length := (e :: dims).foldl (· * ·) 1
      let first := wrap64 (i * length)
      let last := wrap64 ((i + 1) * length)
      if isPart first last (data.size - start) then
        ofPart data (e :: dims) (start + first.toNat) (start + last.toNat)
      else .error .bounds) =
      ofPart data (e :: dims) (start + i * (e :: dims).prod.toNat) (start + (i + 1) * (e :: dims).prod.toNat) := by
  have hle := part_le hprod hi hstop
  obtain ⟨n, hn⟩ := Int.eq_ofNat_of_zero_le hprod
  rw [← prod_eq_foldl, hn]
  rw [hn] at hle
  have hnext : i * n ≤ (i + 1) * n := Nat.mul_le_mul_right n (Nat.le_succ i)
  have hle' : (i + 1) * n ≤ data.size := Nat.le_trans (Nat.le_add_left ..) hle
  have hwrap : ∀ m : Nat, m ≤ data.size → wrap64 m = m := fun m hm =>
    wrap64_eq_self (Int.le_trans (by decide) (Int.natCast_nonneg m)) (Int.lt_of_le_of_lt (Int.ofNat_le.mpr hm) hword)
  have hfirst : wrap64 ((i : Int) * n) = (i * n : Nat) := hwrap (i * n) (Nat.le_trans hnext hle')
  have hlast : wrap64 (((i : Int) + 1) * n) = ((i + 1) * n : Nat) := hwrap ((i + 1) * n) hle'
  have hpart := isPart_natCast hnext (Nat.le_sub_of_add_le' hle)
  simp only [hfirst, hlast, hpart, if_pos, Int.toNat_natCast]

/-- Nesting puts every element of its part at its index. -/
theorem holds_ofPart (hrank : dims ≠ []) (hpos : ∀ d ∈ dims, 0 < d) (hroom : Allocatable dims)
    (hword : (data.size : Int) < wordLimit) (hstop : start + dims.prod.toNat ≤ data.size) :
    ∃ nested, ofPart data dims start (start + dims.prod.toNat) = .ok nested ∧ Holds data dims start nested := by
  induction dims generalizing start with
  | nil => exact absurd rfl hrank
  | cons d dims ih =>
    have hd : 0 < d := hpos d (.head _)
    cases dims with
    | nil =>
      rw [prod_singleton] at hstop ⊢
      exact ⟨_, rfl, holds_leaves (Int.le_of_lt hd) hstop⟩
    | cons e dims =>
      have hpos' : ∀ x ∈ e :: dims, 0 < x := fun x hx => hpos x (.tail _ hx)
      have hprod : 0 ≤ (e :: dims).prod := Int.le_of_lt (prod_pos hpos')
      have hroom' : Allocatable (e :: dims) := fun x hx => hroom x (.tail _ hx)
      have hlist : entryBytes * d.toNat ≤ Layout.maxBytes := hroom d (.head _)
      rw [ofPart, if_neg (by omega), if_neg (by omega)]
      -- every part is nested by the induction hypothesis
      obtain ⟨items, hitems, hall⟩ := exists_collect
        (fun i => Holds data (e :: dims) (start + i * (e :: dims).prod.toNat)) d.toNat 0 #[] fun i _ hi => by
          have hi' : i < d.toNat := by omega
          have hle := part_le hprod hi' hstop
          rw [Nat.add_one_mul, ← Nat.add_assoc] at hle
          obtain ⟨nested, hok, hholds⟩ := ih (by simp) hpos' hroom' hle
          refine ⟨nested, (part_eq hprod hword hi' hstop).trans ?_, hholds⟩
          rwa [Nat.add_one_mul, ← Nat.add_assoc]
      refine ⟨.list items, ?_, holds_list (Int.le_of_lt hd) hprod hall⟩
      rw [Array.empty_append] at hitems
      exact congrArg (Except.map fun items => list items.toList) hitems

theorem ofPart_eq_allocation (hpos : ∀ d ∈ dims, 0 < d) (hroom : ¬ Allocatable dims)
    (hword : (data.size : Int) < wordLimit) (hstop : start + dims.prod.toNat ≤ data.size) :
    ofPart data dims start stop = .error .allocation := by
  induction dims generalizing start stop with
  | nil => exact absurd (fun x hx => absurd hx not_mem_nil) hroom
  | cons d dims ih =>
    cases dims with
    | nil => exact absurd (fun x hx => absurd hx not_mem_nil) hroom
    | cons e dims =>
      have hd : 0 < d := hpos d (.head _)
      have hpos' : ∀ x ∈ e :: dims, 0 < x := fun x hx => hpos x (.tail _ hx)
      have hprod : 0 ≤ (e :: dims).prod := Int.le_of_lt (prod_pos hpos')
      rw [ofPart, if_neg (by omega)]
      by_cases hlist : Layout.maxBytes < entryBytes * d.toNat
      · rw [if_pos hlist]
      · rw [if_neg hlist]
        -- the first part has no memory
        have hroom' : ¬ Allocatable (e :: dims) := fun hrest => hroom fun x hx => by
          rcases mem_cons.mp hx with rfl | hx
          · exact Nat.le_of_not_lt hlist
          · exact hrest x hx
        have hfirst : 0 < d.toNat := by omega
        have hle := part_le hprod hfirst hstop
        rw [Nat.add_one_mul, ← Nat.add_assoc] at hle
        refine congrArg (Except.map fun items => list items.toList) (collect_eq_error hfirst ?_ #[])
        exact (part_eq hprod hword hfirst hstop).trans (ih hpos' hroom' hle)

/-- Elements with positive dimensions, as many as the dimensions say: their nested form has a list of the right length
for each part of an axis, and at each index the element that is there in row-major order. No part is out of bounds;
the nested form is missing only if a list of lists is too long to be allocated. -/
theorem ofFlat_rowMajor (dims : List Int) (hrank : dims ≠ []) (hpos : ∀ d ∈ dims, 0 < d) (data : Array α)
    (hsize : (data.size : Int) = dims.prod) (hword : (data.size : Int) < wordLimit) :
    if Allocatable dims then
      ∃ nested, ofFlat dims data = .ok nested ∧ nested.HasDims dims ∧
        (∀ index, IsIndex dims index → ∃ x, component? dims data index = some x ∧ nested.at? index = some x) ∧
        nested.leaves = data.toList
    else ofFlat dims data = .error .allocation := by
  have hstop : 0 + dims.prod.toNat = data.size := by
    rw [← hsize, Int.toNat_natCast, Nat.zero_add]
  split
  · rename_i hroom
    obtain ⟨nested, hok, hholds⟩ := holds_ofPart hrank hpos hroom hword (Nat.le_of_eq hstop)
    rw [hstop] at hok
    refine ⟨nested, hok, hholds.hasDims, fun index hindex => ?_, ?_⟩
    · obtain ⟨x, hx⟩ := exists_component? hsize hindex
      refine ⟨x, hx, ?_⟩
      rwa [hholds.at_eq index hindex, Nat.zero_add]
    · rw [hholds.leaves_eq, hstop, Array.extract_size]
  · rename_i hroom
    exact ofPart_eq_allocation hpos hroom hword (Nat.le_of_eq hstop)

/-- Three axes with twelve elements. -/
theorem ofFlat_rowMajor_three_axes :
    ∃ nested, ofFlat [2, 3, 2] (Array.range 12) = .ok nested ∧ nested.HasDims [2, 3, 2] ∧
      nested.at? [1, 0, 1] = some 7 ∧ nested.leaves = range 12 := by
  have hroom : Allocatable [2, 3, 2] := by decide
  have h := ofFlat_rowMajor [2, 3, 2] (by decide) (by decide) (Array.range 12) (by decide) (by decide)
  obtain ⟨nested, hok, hdims, hat, hleaves⟩ := h
  obtain ⟨x, hx, hx'⟩ := hat [1, 0, 1] (.cons (by decide) (.cons (by decide) (.cons (by decide) .nil)))
  refine ⟨nested, hok, hdims, ?_, hleaves.trans (by decide)⟩
  rw [hx', ← hx]
  decide

end LazyTensor.Nested
