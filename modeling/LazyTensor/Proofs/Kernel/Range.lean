import Mathlib.Data.List.Perm.Basic
import LazyTensor.Kernel.Range

/-!
# Ranges cover the output

The ranges of `Workers.ranges` are consecutive from zero to the number of items, however many workers
there are, or stand in another order. So a kernel that is run over them writes every element once, and what
it leaves does not depend on what was there before. A kernel whose elements depend on their index only is
`Pointwise`, and gives the table of these elements (`overRanges_table`).
-/

namespace LazyTensor

open List Option

/-! ## Partial maps over lists -/

variable {α β : Type} {l : List α}

theorem mapM_eq_some_iff {f : α → Option β} {ys : List β} : l.mapM f = some ys ↔ l.map f = ys.map some := by
  induction l generalizing ys with
  | nil => cases ys <;> simp
  | cons a l ih =>
    rw [mapM_cons]
    cases hf : f a with
    | none => cases ys <;> simp [hf]
    | some b =>
      cases ys with
      | nil =>
        cases l.mapM f <;> simp
      | cons y ys =>
        cases hl : l.mapM f with
        | none => simp_all
        | some zs => simp_all

theorem mapM_eq_none_iff {f : α → Option β} : l.mapM f = none ↔ ∃ a ∈ l, f a = none := by
  induction l with
  | nil => simp
  | cons a l ih =>
    cases hf : f a with
    | none => simp [hf]
    | some b => cases hl : l.mapM f <;> simp_all

theorem eq_false_of_findIdx? {p : α → Bool} {f : Nat → α → β}
    (h : ((l.findIdx? p).bind fun i => l[i]?.map (f i)) = none) : ∀ a ∈ l, p a = false := by
  cases hfind : l.findIdx? p with
  | none => exact findIdx?_eq_none_iff.mp hfind
  | some i =>
    obtain ⟨hi, -⟩ := findIdx?_eq_some_iff_getElem.mp hfind
    rw [hfind, bind_some, getElem?_eq_getElem hi] at h
    cases h

theorem mapM_congr {f g : α → Option β} (h : ∀ a ∈ l, f a = g a) : l.mapM f = l.mapM g := by
  induction l with
  | nil => rfl
  | cons a l ih =>
    rw [mapM_cons, mapM_cons, h a (.head _),
      ih fun b hb => h b (.tail _ hb)]

/-! ## Consecutive ranges -/

/-- Each range starts where the one before ends, from `a` to `b`. -/
inductive Consecutive : Nat → List Range → Nat → Prop where
  | nil (a : Nat) : Consecutive a [] a
  | cons (r : Range) {ranges : List Range} {b : Nat} (nonempty : r.start < r.stop)
    (rest : Consecutive r.stop ranges b) : Consecutive r.start (r :: ranges) b

variable {r : Range}

namespace Consecutive

variable {a b : Nat} {ranges : List Range}

theorem le (h : Consecutive a ranges b) : a ≤ b := by
  induction h with
  | nil a => exact Nat.le_refl a
  | cons r hlt _ ih => omega

theorem bounds (h : Consecutive a ranges b) (hr : r ∈ ranges) : a ≤ r.start ∧ r.start < r.stop ∧ r.stop ≤ b := by
  induction h with
  | nil a => cases hr
  | cons r' hlt hrest ih =>
    rcases mem_cons.mp hr with rfl | hr
    · exact ⟨Nat.le_refl _, hlt, hrest.le⟩
    · have := ih hr
      omega

theorem exists_mem (h : Consecutive a ranges b) {i : Nat} (ha : a ≤ i) (hb : i < b) :
    ∃ r ∈ ranges, r.start ≤ i ∧ i < r.stop := by
  induction h with
  | nil a => omega
  | cons r hlt hrest ih =>
    by_cases hi : i < r.stop
    · exact ⟨r, mem_cons_self .., ha, hi⟩
    · obtain ⟨r', hr', hbounds⟩ := ih (by omega) hb
      exact ⟨r', mem_cons_of_mem _ hr', hbounds⟩

end Consecutive

/-! ## Ranges in any order -/

/-- The ranges lie below `n` and are not empty, and no two of them have an index in common. -/
structure Apart (ranges : List Range) (n : Nat) : Prop where
  bounds : ∀ r ∈ ranges, r.start < r.stop ∧ r.stop ≤ n
  disjoint : ranges.Pairwise fun r r' => r.stop ≤ r'.start ∨ r'.stop ≤ r.start

/-- Every index below `n` is in exactly one of the ranges. -/
structure Covers (ranges : List Range) (n : Nat) : Prop extends Apart ranges n where
  exists_mem : ∀ i : Nat, i < n → ∃ r ∈ ranges, r.start ≤ i ∧ i < r.stop

variable {ranges : List Range}

theorem Apart.of_cons {n : Nat} (h : Apart (r :: ranges) n) :
    (r.start < r.stop ∧ r.stop ≤ n) ∧ (∀ r' ∈ ranges, r.stop ≤ r'.start ∨ r'.stop ≤ r.start) ∧ Apart ranges n := by
  obtain ⟨hfirst, hrest⟩ := pairwise_cons.mp h.disjoint
  exact ⟨h.bounds r (.head _), hfirst, fun r' hr' => h.bounds r' (.tail _ hr'), hrest⟩

theorem Covers.perm {ranges' : List Range} {n : Nat} (h : Covers ranges n) (hperm : ranges'.Perm ranges) :
    Covers ranges' n where
  bounds r hr := h.bounds r (hperm.mem_iff.mp hr)
  disjoint := (hperm.pairwise_iff fun h => h.symm).mpr h.disjoint
  exists_mem i hi := by
    obtain ⟨r, hr, hbounds⟩ := h.exists_mem i hi
    exact ⟨r, hperm.mem_iff.mpr hr, hbounds⟩

theorem Covers.isEmpty_eq {n : Nat} (h : Covers ranges n) : ranges.isEmpty = (n == 0) := by
  cases n with
  | zero =>
    cases ranges with
    | nil => rfl
    | cons r ranges =>
      have hbounds := h.bounds r (.head _)
      omega
  | succ n =>
    obtain ⟨r, hr, -⟩ := h.exists_mem 0 (Nat.succ_pos n)
    rw [isEmpty_eq_false_iff.mpr (ne_nil_of_mem hr)]
    rfl

theorem Consecutive.pairwise {a b : Nat} (h : Consecutive a ranges b) :
    ranges.Pairwise fun r r' => r.stop ≤ r'.start ∨ r'.stop ≤ r.start := by
  induction h with
  | nil a => exact .nil
  | cons r hlt hrest ih => exact .cons (fun r' hr' => .inl (hrest.bounds hr').1) ih

theorem Consecutive.covers {n : Nat} (h : Consecutive 0 ranges n) : Covers ranges n where
  bounds _ hr := (h.bounds hr).2
  disjoint := h.pairwise
  exists_mem i hi := h.exists_mem (Nat.zero_le i) hi

namespace Workers

theorem consecutive_rangesFrom (start stop chunk : Nat) (hle : start ≤ stop) (hchunk : 0 < chunk) :
    Consecutive start (rangesFrom start stop chunk) stop := by
  induction hlen : stop - start using Nat.strongRecOn generalizing start with
  | ind len ih =>
    rw [rangesFrom]
    split
    · rename_i hlt
      refine .cons ⟨start, min (start + chunk) stop⟩ (by simp only; omega) ?_
      by_cases hend : start + chunk ≤ stop
      · rw [Nat.min_eq_left hend]
        exact ih (stop - (start + chunk)) (by omega) (start + chunk) hend rfl
      · rw [Nat.min_eq_right (by omega), rangesFrom, dif_neg (by omega)]
        exact .nil stop
    · obtain rfl : start = stop := by omega
      exact .nil start

theorem one_le_numChunks (w : Workers) (n least : Int) : 1 ≤ w.numChunks n least := by
  simp only [numChunks]
  split
  · exact Int.le_refl 1
  · exact Int.le_max_left ..

theorem consecutive_division (w : Workers) (n least : Int) : Consecutive 0 (w.division n least) n.toNat := by
  rw [division]
  split
  · rename_i hn
    rw [Int.toNat_of_nonpos hn]
    exact .nil 0
  · rename_i hn
    have hchunks := one_le_numChunks w n least
    generalize w.numChunks n least = chunks at hchunks
    simp only
    split
    · exact .cons ⟨0, n.toNat⟩ (by simp only; omega) (.nil _)
    · refine consecutive_rangesFrom 0 n.toNat _ (Nat.zero_le _) ?_
      have hdiv : 1 ≤ (n + chunks - 1) / chunks := by
        rw [Int.le_ediv_iff_mul_le (by omega)]
        omega
      omega

theorem inTurn_perm (turns : List Nat) (ranges : List Range) : (inTurn turns ranges).Perm ranges := by
  induction turns generalizing ranges with
  | nil => exact .refl _
  | cons turn turns ih =>
    rw [inTurn]
    split
    · rename_i r hr
      obtain ⟨hlt, rfl⟩ := List.getElem?_eq_some_iff.mp hr
      exact (List.Perm.cons _ (ih _)).trans (getElem_cons_eraseIdx_perm hlt)
    · exact ih ranges

theorem exists_turns {order : List Range} (h : order.Perm ranges) : ∃ turns, inTurn turns ranges = order := by
  induction order generalizing ranges with
  | nil =>
    obtain rfl := h.nil_eq
    exact ⟨[], rfl⟩
  | cons r order ih =>
    obtain ⟨turn, hturn⟩ := mem_iff_getElem?.mp (h.mem_iff.mp (.head _))
    obtain ⟨hlt, rfl⟩ := List.getElem?_eq_some_iff.mp hturn
    -- the range that comes first is taken out
    have hrest := h.trans (getElem_cons_eraseIdx_perm hlt).symm
    obtain ⟨turns, hturns⟩ := ih hrest.cons_inv
    refine ⟨turn :: turns, ?_⟩
    rw [inTurn, hturn]
    exact congrArg _ hturns

theorem covers_ranges (w : Workers) (n least : Int) : Covers (w.ranges n least) n.toNat :=
  (w.consecutive_division n least).covers.perm (inTurn_perm _ _)

theorem consecutive_ranges {w : Workers} (hturns : w.turns = []) (n least : Int) :
    Consecutive 0 (w.ranges n least) n.toNat := by
  rw [ranges, hturns]
  exact w.consecutive_division n least

end Workers

namespace Kernel

variable {β : Type} {ranges : List Range} {run : Range → Outcome β} {out out' xs : Array β} {n : Nat}
  {value : Nat → Option β}

/-! ## Writing a part -/

theorem size_writeAt {start : Nat} (h : start + xs.size ≤ out.size) : (writeAt out start xs).size = out.size := by
  simp only [writeAt, Array.size_append, Array.size_extract]
  omega

theorem getElem?_writeAt {start : Nat} (h : start + xs.size ≤ out.size) (i : Nat) :
    (writeAt out start xs)[i]? =
      if start ≤ i ∧ i < start + xs.size then xs[i - start]? else out[i]? := by
  have hleft : (out.extract 0 start).size = start := by
    rw [Array.size_extract]
    omega
  have hmid : (out.extract 0 start ++ xs).size = start + xs.size := by
    rw [Array.size_append, hleft]
  simp only [writeAt]
  by_cases hlt : i < start
  · rw [if_neg (by omega), Array.getElem?_append_left (by omega), Array.getElem?_append_left (by omega),
      Array.getElem?_extract, if_pos (by omega), Nat.zero_add]
  · by_cases hin : i < start + xs.size
    · rw [if_pos (by omega), Array.getElem?_append_left (by omega),
        Array.getElem?_append_right (by omega), hleft]
    · rw [if_neg (by omega), Array.getElem?_append_right (by omega), Array.getElem?_extract]
      by_cases hsize : i < out.size
      · rw [if_pos (by omega)]
        congr 1
        omega
      · rw [if_neg (by omega), Array.getElem?_eq_none (by omega)]

/-! ## Running a kernel over ranges -/

private theorem overRanges_foldl_snd (ranges : List Range) (run : Range → Outcome β) (out : Array β)
    (fault : Option Fault) :
    (ranges.foldl (fun (out, fault) r =>
      let (xs, fault') := run r
      (writeAt out r.start xs, fault.or fault')) (out, fault)).2 =
      fault.or (ranges.findSome? fun r => (run r).2) := by
  induction ranges generalizing out fault with
  | nil => simp
  | cons r ranges ih =>
    rw [foldl_cons, ih, findSome?_cons]
    cases fault with
    | some f => rfl
    | none => cases (run r).2 <;> simp

theorem overRanges_snd (ranges : List Range) (run : Range → Outcome β) (out : Array β) :
    (overRanges ranges run out).2 = ranges.findSome? fun r => (run r).2 := by
  rw [overRanges, overRanges_foldl_snd]
  simp

theorem overRanges_snd_eq_none : (overRanges ranges run out).2 = none ↔ ∀ r ∈ ranges, (run r).2 = none := by
  rw [overRanges_snd, findSome?_eq_none_iff]

private theorem overRanges_foldl_fst (ranges : List Range) (run : Range → Outcome β) (out : Array β)
    (fault : Option Fault) :
    (ranges.foldl (fun (out, fault) r =>
      let (xs, fault') := run r
      (writeAt out r.start xs, fault.or fault')) (out, fault)).1 =
      ranges.foldl (fun out r => writeAt out r.start (run r).1) out := by
  induction ranges generalizing out fault with
  | nil => rfl
  | cons r ranges ih => rw [foldl_cons, ih, foldl_cons]

theorem size_overRanges (h : Apart ranges n) (hn : n ≤ out.size)
    (hrun : ∀ r ∈ ranges, (run r).1.size ≤ r.stop - r.start) :
    (overRanges ranges run out).1.size = out.size := by
  rw [overRanges, overRanges_foldl_fst]
  induction ranges generalizing out with
  | nil => rfl
  | cons r ranges ih =>
    obtain ⟨hbounds, -, hrest⟩ := h.of_cons
    have hr := hrun r (.head _)
    have hsize : (writeAt out r.start (run r).1).size = out.size := size_writeAt (by omega)
    rw [foldl_cons, ih hrest (by omega) (fun r' hr' => hrun r' (.tail _ hr')), hsize]

/-- Ranges that write all of their own part: each element is the one that its range wrote. -/
theorem getElem?_overRanges (h : Apart ranges n) (hn : n ≤ out.size)
    (hrun : ∀ r ∈ ranges, (run r).1.size = r.stop - r.start) (i : Nat) :
    ((∀ r ∈ ranges, i < r.start ∨ r.stop ≤ i) → (overRanges ranges run out).1[i]? = out[i]?) ∧
    ∀ r ∈ ranges, r.start ≤ i → i < r.stop →
      (overRanges ranges run out).1[i]? = (run r).1[i - r.start]? := by
  rw [overRanges, overRanges_foldl_fst]
  induction ranges generalizing out with
  | nil => exact ⟨fun _ => rfl, nofun⟩
  | cons r ranges ih =>
    obtain ⟨hbounds, hdisjoint, hrest⟩ := h.of_cons
    have hr := hrun r (.head _)
    have hwrite : (writeAt out r.start (run r).1)[i]? = _ := getElem?_writeAt (by omega) i
    have hsize : (writeAt out r.start (run r).1).size = out.size := size_writeAt (by omega)
    obtain ⟨hout, hin⟩ := @ih (writeAt out r.start (run r).1) hrest (by omega)
      (fun r' hr' => hrun r' (.tail _ hr'))
    rw [foldl_cons]
    refine ⟨fun hi => ?_, fun r' hr' hstart hstop => ?_⟩
    · have hfirst := hi r (.head _)
      rw [hout fun r' hr' => hi r' (.tail _ hr'), hwrite, if_neg (by omega)]
    · rcases mem_cons.mp hr' with rfl | hr'
      · -- no later range writes there
        rw [hout fun r'' hr'' => by have := hdisjoint r'' hr''; omega, hwrite, if_pos (by omega)]
      · exact hin r' hr' hstart hstop

/-- Ranges that read the output in their own part only do not see what others have written there. -/
theorem inPlace_eq_overRanges {run : Array β → Range → Outcome β} (h : Apart ranges n) (hn : n ≤ out.size)
    (hlocal : ∀ r ∈ ranges, ∀ out', out'.extract r.start r.stop = out.extract r.start r.stop → run out' r = run out r)
    (hrun : ∀ r ∈ ranges, (run out r).1.size ≤ r.stop - r.start) :
    inPlace ranges run out = overRanges ranges (run out) out := by
  -- in the ranges that are left, the output is as it was
  suffices hfold : ∀ (out' : Array β) (fault : Option Fault), out'.size = out.size →
      (∀ r ∈ ranges, ∀ i : Nat, r.start ≤ i → i < r.stop → out'[i]? = out[i]?) →
      ranges.foldl (fun (out, fault) r => (writeAt out r.start (run out r).1, fault.or (run out r).2)) (out', fault) =
        ranges.foldl (fun (out'', fault) r => (writeAt out'' r.start (run out r).1, fault.or (run out r).2))
          (out', fault) from hfold out none rfl fun _ _ _ _ _ => rfl
  induction ranges with
  | nil => exact fun _ _ _ _ => rfl
  | cons r ranges ih =>
    intro out' fault hsize hsame
    obtain ⟨hbounds, hdisjoint, hrest⟩ := h.of_cons
    have hr := hrun r (.head _)
    have hpart : run out' r = run out r := by
      apply hlocal r (.head _)
      apply Array.ext_getElem?
      intro i
      rw [Array.getElem?_extract, Array.getElem?_extract, hsize]
      split
      · exact hsame r (.head _) (r.start + i) (by omega) (by omega)
      · rfl
    simp only [foldl_cons, hpart]
    apply ih hrest (fun r' hr' => hlocal r' (.tail _ hr'))
      fun r' hr' => hrun r' (.tail _ hr')
    · rw [size_writeAt (by omega), hsize]
    · intro r' hr' i hstart hstop
      have hapart := hdisjoint r' hr'
      rw [getElem?_writeAt (by omega), if_neg (by omega), hsame r' (.tail _ hr') i hstart hstop]

/-! ## Sources -/

theorem Source.getElem?_part (s : Source α) (f : α → β) (out : Array α) {i : Nat} (hi : i < r.stop - r.start) :
    ((s.part f r).data ((out.extract r.start r.stop).map f))[i]? = (s.data out)[r.start + i]?.map f := by
  have hpart : ∀ xs : Array α, ((xs.extract r.start r.stop).map f)[i]? = xs[r.start + i]?.map f := by
    intro xs
    rw [Array.getElem?_map, Array.getElem?_extract]
    split
    · rfl
    · rw [Array.getElem?_eq_none (by omega)]
  cases s with
  | apart data => exact hpart data
  | output => exact hpart out

theorem Source.size_part {s : Source α} (f : α → β) {out : Array α} (hsize : (s.data out).size = out.size) (r : Range) :
    ((s.part f r).data ((out.extract r.start r.stop).map f)).size = ((out.extract r.start r.stop).map f).size := by
  cases s with
  | apart data =>
    have hdata : data.size = out.size := hsize
    simp only [Source.part, Source.data, Array.size_map, Array.size_extract, hdata]
  | output => rfl

/-! ## Kernels that compute each element from its index -/

/-- The elements at the indices below `n`, if there is one at each. -/
def table? (n : Nat) (value : Nat → Option β) : Option (Array β) := ((List.range n).mapM value).map (·.toArray)

theorem table?_eq_some_iff : table? n value = some xs ↔ xs.size = n ∧ ∀ i : Nat, i < n → xs[i]? = value i := by
  obtain ⟨l⟩ := xs
  -- a table is the list of its values, of which none is missing
  have hmap : table? n value = some l.toArray ↔ (List.range n).map value = l.map some := by
    rw [table?, map_eq_some_iff, ← mapM_eq_some_iff]
    constructor
    · rintro ⟨l', hl', heq⟩
      rw [hl', toArray_inj heq]
    · exact fun h => ⟨l, h, rfl⟩
  rw [hmap]
  simp only [List.size_toArray, getElem?_toArray]
  constructor
  · intro h
    have hlen : n = l.length := by simpa using congrArg length h
    refine ⟨hlen.symm, fun i hi => ?_⟩
    have hget := congrArg (·[i]?) h
    simp only [getElem?_map] at hget
    cases hl : l[i]? <;> simp_all
  · rintro ⟨hlen, hget⟩
    refine ext_getElem? fun i => ?_
    rw [getElem?_map, getElem?_map]
    by_cases hi : i < n
    · rw [getElem?_range hi, map_some, ← hget i hi, getElem?_eq_getElem (by omega),
        map_some]
    · rw [getElem?_eq_none (by simpa using hi), getElem?_eq_none (by omega)]
      rfl

theorem table?_eq_none_iff : table? n value = none ↔ ∃ i : Nat, i < n ∧ value i = none := by
  rw [table?, map_eq_none_iff, mapM_eq_none_iff]
  simp only [mem_range]

/-- On the range the kernel gives the elements at its indices, and fails if there is none at one. -/
structure Pointwise (run : Range → Outcome β) (value : Nat → Option β) (r : Range) : Prop where
  size_eq : (run r).2 = none → (run r).1.size = r.stop - r.start
  get : (run r).2 = none → ∀ i : Nat, r.start ≤ i → i < r.stop → (run r).1[i - r.start]? = value i
  fails : (run r).2 ≠ none → ∃ i : Nat, r.start ≤ i ∧ i < r.stop ∧ value i = none

theorem overRanges_table (hranges : Covers ranges out.size) (hrun : ∀ r ∈ ranges, Pointwise run value r) :
    ((overRanges ranges run out).2 = none → table? out.size value = some (overRanges ranges run out).1) ∧
    ((overRanges ranges run out).2 ≠ none → table? out.size value = none) := by
  refine ⟨fun h => ?_, fun h => ?_⟩
  · have hnone := overRanges_snd_eq_none.mp h
    have hparts : ∀ r ∈ ranges, (run r).1.size = r.stop - r.start := fun r hr =>
      (hrun r hr).size_eq (hnone r hr)
    rw [table?_eq_some_iff]
    refine ⟨size_overRanges hranges.toApart (Nat.le_refl _) fun r hr => Nat.le_of_eq (hparts r hr), fun i hi => ?_⟩
    obtain ⟨r, hr, hstart, hstop⟩ := hranges.exists_mem i hi
    rw [(getElem?_overRanges hranges.toApart (Nat.le_refl _) hparts i).2 r hr hstart hstop]
    exact (hrun r hr).get (hnone r hr) i hstart hstop
  · obtain ⟨r, hr, hfault⟩ : ∃ r ∈ ranges, (run r).2 ≠ none := by
      have := mt overRanges_snd_eq_none.mpr h
      simpa using this
    obtain ⟨i, -, hstop, hnone⟩ := (hrun r hr).fails hfault
    exact table?_eq_none_iff.mpr ⟨i, Nat.lt_of_lt_of_le hstop (hranges.bounds r hr).2, hnone⟩

theorem tabulate_eq_ofFn (value : Nat → β) (h : Covers ranges out.size) :
    tabulate ranges value out = Array.ofFn fun i : Fin out.size => value i := by
  -- what each range writes
  let part (r : Range) : Outcome β :=
    (Array.ofFn fun i : Fin (r.stop - r.start) => value (r.start + i), none)
  have hpart : ∀ r ∈ ranges, (part r).1.size = r.stop - r.start := fun r _ => Array.size_ofFn
  refine Array.ext_getElem? fun i => ?_
  have hget := getElem?_overRanges h.toApart (Nat.le_refl _) hpart i
  rw [tabulate]
  by_cases hi : i < out.size
  · obtain ⟨r, hr, hstart, hstop⟩ := h.exists_mem i hi
    rw [hget.2 r hr hstart hstop, Array.getElem?_ofFn, Array.getElem?_ofFn, dif_pos (by omega), dif_pos hi]
    congr 2
    simp only
    omega
  · rw [hget.1 fun r hr => by have := h.bounds r hr; omega, Array.getElem?_eq_none (by omega), Array.getElem?_ofFn,
      dif_neg hi]

end Kernel

end LazyTensor
