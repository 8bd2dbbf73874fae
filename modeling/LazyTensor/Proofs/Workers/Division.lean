import LazyTensor.Proofs.Kernel.Range
import LazyTensor.Proofs.Size

/-!
# How work is divided

Work on `n` items is divided into a number of ranges, and these are of one size but for the last. Both come from a
quotient that is rounded up. So there may be fewer ranges than were asked for, and a range may have fewer items than
the least number from which the number of ranges was found.
-/

namespace LazyTensor.Workers

/-! ## Ranges of one size -/

variable {start chunk stop : Nat}

theorem rangesFrom_cons (hlt : start < stop) (hchunk : 0 < chunk) :
    rangesFrom start stop chunk = ⟨start, min (start + chunk) stop⟩ :: rangesFrom (start + chunk) stop chunk := by
  rw [rangesFrom, dif_pos ⟨hlt, hchunk⟩]

theorem rangesFrom_nil (hle : stop ≤ start) : rangesFrom start stop chunk = [] := by
  rw [rangesFrom, dif_neg (by omega)]

theorem length_rangesFrom_le (count : Nat) (h : stop ≤ start + count * chunk) :
    (rangesFrom start stop chunk).length ≤ count := by
  induction count generalizing start with
  | zero =>
    rw [rangesFrom_nil (by omega)]
    simp
  | succ count ih =>
    rw [Nat.succ_mul] at h
    rw [rangesFrom]
    split
    · simpa using @ih (start + chunk) (by omega)
    · simp

variable {r : Range}

theorem stop_of_mem_dropLast_rangesFrom (hr : r ∈ (rangesFrom start stop chunk).dropLast) :
    r.stop = r.start + chunk := by
  induction hlen : stop - start using Nat.strongRecOn generalizing start with
  | ind len ih =>
    rw [rangesFrom] at hr
    split at hr
    · rename_i hlt
      by_cases hend : stop ≤ start + chunk
      · -- there is one range only
        simp [rangesFrom_nil hend] at hr
      · rw [List.dropLast_cons_of_ne_nil (by rw [rangesFrom_cons (by omega) hlt.2]; simp)] at hr
        cases hr with
        | head => simp only; omega
        | tail _ hr => exact ih (stop - (start + chunk)) (by omega) hr rfl
    · simp at hr

theorem dropLast_rangesFrom_eq_nil_iff (hlt : start < stop) (hchunk : 0 < chunk) :
    (rangesFrom start stop chunk).dropLast = [] ↔ stop ≤ start + chunk := by
  rw [rangesFrom_cons hlt hchunk]
  by_cases hend : stop ≤ start + chunk
  · simp [rangesFrom_nil hend, hend]
  · rw [rangesFrom_cons (by omega) hchunk]
    simp [hend]

/-! ## The size of the ranges -/

/-- How many items each range has but the last. -/
def chunkSize (w : Workers) (n least : Int) : Int := (n + w.numChunks n least - 1) / w.numChunks n least

section

variable (w : Workers) (least : Int) {n : Int}

theorem le_chunkSize_iff {k : Int} : k ≤ w.chunkSize n least ↔ k * w.numChunks n least < n + w.numChunks n least := by
  have hchunks := w.one_le_numChunks n least
  rw [chunkSize, Int.le_ediv_iff_mul_le (by omega)]
  omega

theorem one_le_chunkSize (hn : 1 ≤ n) : 1 ≤ w.chunkSize n least := by
  rw [le_chunkSize_iff]
  omega

theorem le_chunkSize_mul_numChunks (n : Int) : n ≤ w.chunkSize n least * w.numChunks n least := by
  have hnext : ¬ w.chunkSize n least + 1 ≤ w.chunkSize n least := by omega
  rw [le_chunkSize_iff, Int.add_mul] at hnext
  omega

theorem chunkSize_of_numChunks_eq_one (h : w.numChunks n least = 1) : w.chunkSize n least = n := by
  rw [chunkSize, h]
  simp

theorem chunkSize_lt (hn : 2 ≤ n) (h : 2 ≤ w.numChunks n least) : w.chunkSize n least < n := by
  have hprod : 2 * (w.numChunks n least - 1) ≤ n * (w.numChunks n least - 1) :=
    Int.mul_le_mul_of_nonneg_right hn (by omega)
  have hle : ¬ n ≤ w.chunkSize n least := by
    rw [le_chunkSize_iff]
    rw [Int.mul_sub n] at hprod
    omega
  omega

theorem chunkSize_le (hn : 1 ≤ n) : w.chunkSize n least ≤ n := by
  have hprod : n * 1 ≤ n * w.numChunks n least :=
    Int.mul_le_mul_of_nonneg_left (w.one_le_numChunks n least) (by omega)
  have hle : ¬ n + 1 ≤ w.chunkSize n least := by
    rw [le_chunkSize_iff, Int.add_mul]
    omega
  omega

theorem division_eq_rangesFrom (hn : 1 ≤ n) :
    w.division n least = rangesFrom 0 n.toNat (w.chunkSize n least).toNat := by
  rw [division, if_neg (by omega)]
  simp only
  split
  · rename_i hone
    rw [chunkSize_of_numChunks_eq_one w least hone, rangesFrom_cons (by omega) (by omega), rangesFrom_nil (by omega)]
    simp
  · rfl

theorem start_eq_zero_of_numChunks_eq_one {w : Workers} {least : Int} (h : w.numChunks n least = 1)
    (hr : r ∈ w.ranges n least) : r.start = 0 := by
  rw [ranges, (inTurn_perm _ _).mem_iff, division] at hr
  split at hr
  · simp at hr
  · simp only [h, if_true, List.mem_singleton] at hr
    rw [hr]

/-- There are no more ranges than asked for. There may be fewer: five items for four workers are ranges of two, and
three of them are enough. -/
theorem length_division_le (hn : 1 ≤ n) : (w.division n least).length ≤ w.numChunks n least := by
  have hchunks := w.one_le_numChunks n least
  have hsize := one_le_chunkSize w least hn
  have hall := le_chunkSize_mul_numChunks w least n
  have hlength : (rangesFrom 0 n.toNat (w.chunkSize n least).toNat).length ≤ (w.numChunks n least).toNat := by
    apply length_rangesFrom_le
    rw [← Int.toNat_mul (by omega) (by omega), Int.mul_comm]
    omega
  rw [division_eq_rangesFrom w least hn]
  omega

theorem eq_chunkSize_of_mem_dropLast (hn : 1 ≤ n) (hr : r ∈ (w.division n least).dropLast) :
    (r.stop : Int) - r.start = w.chunkSize n least := by
  rw [division_eq_rangesFrom w least hn] at hr
  have hstop := stop_of_mem_dropLast_rangesFrom hr
  have hsize := one_le_chunkSize w least hn
  omega

theorem dropLast_division_eq_nil_iff (hn : 1 ≤ n) : (w.division n least).dropLast = [] ↔ n ≤ w.chunkSize n least := by
  have hsize := one_le_chunkSize w least hn
  rw [division_eq_rangesFrom w least hn, dropLast_rangesFrom_eq_nil_iff (by omega) (by omega)]
  omega

/-- All ranges but the last have some number of items if their common size is as large, or if there is one range
only. -/
theorem forall_mem_dropLast_division_iff (hn : 1 ≤ n) {k : Int} :
    (∀ r ∈ (w.division n least).dropLast, k ≤ (r.stop : Int) - r.start) ↔
      n ≤ w.chunkSize n least ∨ k ≤ w.chunkSize n least := by
  rw [← dropLast_division_eq_nil_iff w least hn]
  constructor
  · intro h
    cases hranges : (w.division n least).dropLast with
    | nil => exact .inl rfl
    | cons r ranges =>
      have hr : r ∈ (w.division n least).dropLast := by simp [hranges]
      rw [← eq_chunkSize_of_mem_dropLast w least hn hr]
      exact .inr (h r hr)
  · intro h r hr
    rw [eq_chunkSize_of_mem_dropLast w least hn hr]
    cases h with
    | inl h => simp [h] at hr
    | inr h => exact h

end

/-! ## The number of ranges -/

/-- How many ranges a pool asks for, if there are items enough. -/
def target (w : Workers) : Int := if w.parallelism < 0 then w.processors else w.parallelism

section

variable {w : Workers} {n least : Int}

theorem ceil_div_eq (hleast : 1 ≤ least) :
    (n + least - 1) / least = if n % least = 0 then n / least else n / least + 1 := by
  have hdiv := Int.mul_ediv_add_emod n least
  have hmod := Int.emod_nonneg n (by omega : least ≠ 0)
  have hlt := Int.emod_lt_of_pos n (by omega : 0 < least)
  rw [Int.ediv_eq_iff_of_pos (by omega)]
  split
  · rw [Int.mul_comm]
    omega
  · rw [Int.add_mul, Int.mul_comm (n / least)]
    omega

/-- A sum that is too large for a word is read as a negative number, so that all is done in one range. -/
theorem numChunks_eq (hleast : 1 ≤ least) (hlt : least < n) (hn : n < wordLimit) :
    w.numChunks n least =
      if w.parallelism = 0 ∨ wordLimit < n + least then 1 else max 1 (min w.target ((n + least - 1) / least)) := by
  have hmax : max least 1 = least := by omega
  have hdef : w.numChunks n least = if w.parallelism = 0 then 1 else
      max 1 (min w.target ((wrap64 (n + least - 1)).tdiv least)) := by
    simp [numChunks, enabled, target, hmax, Int.not_le.mpr hlt]
  rw [hdef]
  by_cases hoff : w.parallelism = 0
  · rw [if_pos hoff, if_pos (.inl hoff)]
  · rw [if_neg hoff]
    by_cases hlarge : wordLimit < n + least
    · -- the word of the sum is `2 ^ 64` less than the sum
      have hwrap : wrap64 (n + least - 1) = n + least - 1 - 2 * wordLimit := by
        have hsub : wrap64 (n + least - 1 - 2 * wordLimit) = n + least - 1 - 2 * wordLimit :=
          wrap64_eq_self (by omega) (by omega)
        rw [← hsub]
        exact wrap64_congr (by rw [pow2_64, wordLimit]; omega)
      have hquot : (wrap64 (n + least - 1)).tdiv least ≤ 0 := by
        have hneg := Int.tdiv_nonneg (by omega : 0 ≤ -wrap64 (n + least - 1)) (by omega : 0 ≤ least)
        rw [Int.neg_tdiv] at hneg
        omega
      omega
    · rw [if_neg (by omega), wrap64_eq_self (by omega) (by omega), Int.tdiv_eq_ediv_of_nonneg (by omega)]

theorem numChunks_le (hleast : 1 ≤ least) (hlt : least < n) (hn : n < wordLimit) :
    w.numChunks n least ≤ n / least + 1 := by
  have hone : 1 ≤ n / least := Int.le_ediv_of_mul_le (by omega) (by omega)
  rw [numChunks_eq hleast hlt hn, ceil_div_eq hleast]
  split
  · omega
  · split <;> omega

theorem numChunks_le_self (w : Workers) (least : Int) (hn : 1 ≤ n) (hword : n < wordLimit) :
    w.numChunks n least ≤ n := by
  have hmax : w.numChunks n least = w.numChunks n (max least 1) := by
    rw [numChunks, numChunks, Int.max_eq_left (Int.le_max_right least 1)]
  rw [hmax]
  by_cases hlt : max least 1 < n
  · have hfew : (n + max least 1 - 1) / max least 1 < n + 1 := by
      apply Int.ediv_lt_of_lt_mul (by omega)
      have hprod : n * 1 ≤ n * max least 1 := Int.mul_le_mul_of_nonneg_left (by omega) (by omega)
      rw [Int.add_mul]
      omega
    rw [numChunks_eq (by omega) hlt hword]
    split <;> omega
  · have hone : w.numChunks n (max least 1) = 1 := by
      exact if_pos (.inr (by omega))
    omega

theorem numChunks_le_iff (hleast : 1 ≤ least) (hlt : least < n) (hn : n < wordLimit) :
    w.numChunks n least ≤ n / least ↔
      w.parallelism = 0 ∨ wordLimit < n + least ∨ w.target ≤ n / least ∨ n % least = 0 := by
  have hone : 1 ≤ n / least := Int.le_ediv_of_mul_le (by omega) (by omega)
  rw [numChunks_eq hleast hlt hn, ceil_div_eq hleast]
  split
  · omega
  · split <;> omega

theorem le_chunkSize_of_numChunks_le (hleast : 1 ≤ least) (h : w.numChunks n least ≤ n / least) :
    least ≤ w.chunkSize n least := by
  have hchunks := w.one_le_numChunks n least
  have hblocks : least * w.numChunks n least ≤ least * (n / least) := Int.mul_le_mul_of_nonneg_left h (by omega)
  have hdiv := Int.mul_ediv_add_emod n least
  have hmod := Int.emod_nonneg n (by omega : least ≠ 0)
  rw [le_chunkSize_iff]
  omega

theorem le_chunkSize_iff_of_numChunks_eq (h : w.numChunks n least = n / least + 1) :
    least ≤ w.chunkSize n least ↔ least ≤ n / least + n % least := by
  have hdiv := Int.mul_ediv_add_emod n least
  rw [le_chunkSize_iff, h, Int.mul_add]
  omega

theorem lt_two_mul_chunkSize (hleast : 1 ≤ least) (hlt : least < n) (h : w.numChunks n least ≤ n / least + 1) :
    least < 2 * w.chunkSize n least := by
  have hdiv := Int.mul_ediv_add_emod n least
  have hmod := Int.emod_nonneg n (by omega : least ≠ 0)
  have hnonneg : 0 ≤ n / least := Int.ediv_nonneg (by omega) (by omega)
  have hsize := one_le_chunkSize w least (by omega : 1 ≤ n)
  have hall : n ≤ w.chunkSize n least * (n / least + 1) :=
    Int.le_trans (le_chunkSize_mul_numChunks w least n) (Int.mul_le_mul_of_nonneg_left h (by omega))
  -- otherwise twice the items were less than the blocks and one more
  by_cases hless : 2 * w.chunkSize n least ≤ least
  · have hblocks : 2 * w.chunkSize n least * (n / least + 1) ≤ least * (n / least + 1) :=
      Int.mul_le_mul_of_nonneg_right hless (by omega)
    rw [Int.mul_assoc, Int.mul_add least] at hblocks
    omega
  · omega

end

end LazyTensor.Workers
