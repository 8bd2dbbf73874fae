import LazyTensor.Proofs.Account
import Mathlib.Data.UInt

/-!
# Histories of an account

A ledger is an account with what happened to it: the sizes that are allocated and not freed yet, and what was
live since the peak was reset. Whatever is allocated, freed and reset, the account counts the buffers that are
held, and their bytes in 64 bits. A request that takes these beyond 64 bits is compared with the limit after it
wraps around, and may be accepted. Until then the bytes are exact, within the limit and below the peak.
-/

namespace LazyTensor.Account

open List

/-- A call on an account. -/
inductive Call where
  | allocate (size : UInt64)
  | free (size : UInt64)
  | resetPeak
deriving DecidableEq

/-- An account with its history. -/
structure Ledger where
  account : Account
  /-- The sizes that were allocated and are not freed yet. -/
  held : List UInt64 := []
  /-- What was live after each call since the peak was reset, the last call first. -/
  marks : List UInt64 := [0]

namespace Ledger

/-- A new account, before any call. -/
def start (limit : UInt64) : Ledger := { account := { limit } }

/-- The bytes that are held, as an exact number. -/
def bytes (l : Ledger) : Nat := (l.held.map UInt64.toNat).sum

/-- The ledger after a call. A request that is refused changes nothing. -/
def after (l : Ledger) : Call → Ledger
  | .allocate size =>
    match l.account.allocate size with
    | .error _ => l
    | .ok account => ⟨account, size :: l.held, account.live :: l.marks⟩
  | .free size => ⟨l.account.free size, l.held.erase size, (l.account.free size).live :: l.marks⟩
  | .resetPeak => ⟨l.account.resetPeak, l.held, [l.account.live]⟩

/-- Every call does something that is allowed in the ledger at that time. -/
def Along (allowed : Ledger → Call → Prop) : Ledger → List Call → Prop
  | _, [] => True
  | l, c :: calls => allowed l c ∧ Along allowed (l.after c) calls

/-- The ledger has a property before the calls and after each of them. -/
def Throughout (property : Ledger → Prop) : Ledger → List Call → Prop
  | l, [] => property l
  | l, c :: calls => property l ∧ Throughout property (l.after c) calls

/-- Only what is held is freed. -/
def FreesHeld (l : Ledger) : Call → Prop
  | .free size => size ∈ l.held
  | _ => True

/-- A request beyond 64 bits is refused. -/
def RefusesOverflow (l : Ledger) : Call → Prop
  | .allocate size => (l.account.allocate size).isOk = true → l.bytes + size.toNat < 2 ^ 64
  | _ => True

/-- The account counts the buffers that are held, and their bytes in 64 bits. What is live is the last mark, and the
peak is one of the marks. -/
structure Counted (l : Ledger) : Prop where
  buffers_eq : l.account.buffers = l.held.length
  live_eq_mod : l.account.live.toNat = l.bytes % 2 ^ 64
  live_mem : l.account.live ∈ l.marks
  peak_mem : l.account.peak ∈ l.marks

/-- The bytes that are held are within the limit and counted exactly, and the peak is the greatest of the marks. -/
structure Within (l : Ledger) : Prop where
  bytes_le : l.bytes ≤ l.account.limit.toNat
  live_eq : l.account.live.toNat = l.bytes
  le_peak : ∀ mark ∈ l.marks, mark ≤ l.account.peak

instance (l : Ledger) : DecidablePred l.FreesHeld
  | .allocate _ => .isTrue trivial
  | .free size => inferInstanceAs (Decidable (size ∈ l.held))
  | .resetPeak => .isTrue trivial

instance (l : Ledger) : DecidablePred l.RefusesOverflow
  | .allocate size =>
    inferInstanceAs (Decidable ((l.account.allocate size).isOk = true → l.bytes + size.toNat < 2 ^ 64))
  | .free _ => .isTrue trivial
  | .resetPeak => .isTrue trivial

instance decidableAlong {allowed : Ledger → Call → Prop} [∀ l, DecidablePred (allowed l)] :
    (l : Ledger) → (calls : List Call) → Decidable (Along allowed l calls)
  | _, [] => .isTrue trivial
  | l, c :: calls =>
    @instDecidableAnd _ _ (inferInstance : Decidable (allowed l c)) (decidableAlong (l.after c) calls)

variable {l : Ledger} {c : Call} {calls : List Call}

/-! ## Calls -/

/-- What a call does: a request is refused and changes nothing, or its size is counted; other calls are never
refused. -/
theorem after_allocate (l : Ledger) (size : UInt64) :
    (∃ e, l.account.allocate size = .error e ∧ l.after (.allocate size) = l) ∨
    ∃ account, l.account.allocate size = .ok account ∧
      l.after (.allocate size) = ⟨account, size :: l.held, account.live :: l.marks⟩ := by
  cases h : l.account.allocate size with
  | error e => exact .inl ⟨e, rfl, by rw [after, h]⟩
  | ok account => exact .inr ⟨account, rfl, by rw [after, h]⟩

theorem limit_after (l : Ledger) (c : Call) : (l.after c).account.limit = l.account.limit := by
  cases c with
  | allocate size =>
    rcases l.after_allocate size with ⟨e, -, h⟩ | ⟨account, hok, h⟩
    · rw [h]
    · rw [h]
      exact limit_eq_of_allocate hok
  | free size => rfl
  | resetPeak => rfl

theorem bytes_free {size : UInt64} (h : size ∈ l.held) :
    l.bytes = size.toNat + (l.after (.free size)).bytes ∧
      l.held.length = (l.after (.free size)).held.length + 1 := by
  have hperm := perm_cons_erase h
  constructor
  · have hsum := (hperm.map UInt64.toNat).sum_nat
    rwa [map_cons, sum_cons] at hsum
  · exact hperm.length_eq.trans length_cons

private theorem max_eq (peak mark : UInt64) : max peak mark = if peak ≤ mark then mark else peak := rfl

/-- Every call keeps the account in step with the buffers that are held. -/
theorem Counted.after (h : Counted l) (hfrees : l.FreesHeld c) : Counted (l.after c) := by
  cases c with
  | allocate size =>
    rcases l.after_allocate size with ⟨e, -, hafter⟩ | ⟨account, hok, hafter⟩
    · rwa [hafter]
    · obtain rfl := allocate_eq_ok hok
      rw [hafter]
      refine ⟨?_, ?_, mem_cons_self .., ?_⟩
      · show l.account.buffers + 1 = _
        rw [h.buffers_eq, length_cons, Int.natCast_succ]
      · show (l.account.live + size).toNat = (size.toNat + l.bytes) % 2 ^ 64
        rw [UInt64.toNat_add, h.live_eq_mod, Nat.mod_add_mod, Nat.add_comm]
      · show max l.account.peak (l.account.live + size) ∈ (l.account.live + size) :: l.marks
        rw [max_eq]
        split
        · exact (.head _) ..
        · exact mem_cons_of_mem _ h.peak_mem
  | free size =>
    obtain ⟨hbytes, hlength⟩ := bytes_free hfrees
    refine ⟨?_, ?_, mem_cons_self .., mem_cons_of_mem _ h.peak_mem⟩
    · show l.account.buffers - 1 = _
      rw [h.buffers_eq]
      omega
    · show (l.account.live - size).toNat = _
      -- the difference of words is the word of the difference, as the size was counted
      have hsize := size.toNat_lt
      rw [UInt64.toNat_sub, h.live_eq_mod]
      omega
  | resetPeak =>
    exact ⟨h.buffers_eq, h.live_eq_mod, mem_singleton.mpr rfl, mem_singleton.mpr rfl⟩

theorem Within.allocate (h : Within l) {size : UInt64} {account : Account} (hlimit : 0 < l.account.limit)
    (hok : l.account.allocate size = .ok account) (hfits : l.bytes + size.toNat < 2 ^ 64) :
    Within ⟨account, size :: l.held, account.live :: l.marks⟩ := by
  have hlive : (l.account.live + size).toNat = size.toNat + l.bytes := by
    rw [UInt64.toNat_add, h.live_eq, Nat.mod_eq_of_lt hfits, Nat.add_comm]
  have hle : ¬ (0 < l.account.limit ∧ l.account.limit < l.account.live + size) := by
    intro hover
    rw [Account.allocate, if_pos hover] at hok
    cases hok
  obtain rfl := allocate_eq_ok hok
  refine ⟨?_, hlive, ?_⟩
  · show size.toNat + l.bytes ≤ _
    rw [← hlive]
    exact UInt64.le_iff_toNat_le.mp (UInt64.not_lt.mp fun hlt => hle ⟨hlimit, hlt⟩)
  · show ∀ mark ∈ (l.account.live + size) :: l.marks, mark ≤ max l.account.peak (l.account.live + size)
    rw [max_eq, forall_mem_cons]
    split
    · rename_i hpeak
      exact ⟨UInt64.le_refl _, fun mark hmark => UInt64.le_trans (h.le_peak mark hmark) hpeak⟩
    · rename_i hpeak
      exact ⟨UInt64.le_of_lt (UInt64.not_le.mp hpeak), h.le_peak⟩

/-- Every call keeps the account within its limit. -/
theorem Within.after (h : Within l) (hcounted : Counted l) (hlimit : 0 < l.account.limit) (hfrees : l.FreesHeld c)
    (hrefuses : l.RefusesOverflow c) : Within (l.after c) := by
  cases c with
  | allocate size =>
    rcases l.after_allocate size with ⟨e, -, hafter⟩ | ⟨account, hok, hafter⟩
    · rwa [hafter]
    · rw [hafter]
      exact h.allocate hlimit hok (hrefuses (by rw [hok]; rfl))
  | free size =>
    -- what is freed was counted, so the bytes do not wrap around below zero
    obtain ⟨hbytes, -⟩ := bytes_free hfrees
    have hle := h.bytes_le
    have hsize : size ≤ l.account.live := by
      rw [UInt64.le_iff_toNat_le, h.live_eq]
      omega
    have hlive : (l.account.live - size).toNat = (l.after (.free size)).bytes := by
      rw [UInt64.toNat_sub_of_le _ _ hsize, h.live_eq]
      omega
    refine ⟨?_, hlive, ?_⟩
    · show _ ≤ l.account.limit.toNat
      omega
    · show ∀ mark ∈ (l.account.live - size) :: l.marks, mark ≤ l.account.peak
      rw [forall_mem_cons]
      refine ⟨UInt64.le_trans ?_ (h.le_peak _ hcounted.live_mem), h.le_peak⟩
      rw [UInt64.le_iff_toNat_le, h.live_eq]
      omega
  | resetPeak =>
    refine ⟨h.bytes_le, h.live_eq, fun mark hmark => ?_⟩
    rw [mem_singleton.mp hmark]
    exact UInt64.le_refl _

theorem refusesOverflow_of_within (h : Within (l.after c)) : l.RefusesOverflow c := by
  cases c with
  | allocate size =>
    intro hok
    rcases l.after_allocate size with ⟨e, herror, -⟩ | ⟨account, -, hafter⟩
    · rw [herror] at hok
      cases hok
    · have hle := h.bytes_le
      have hlimit := (l.after (.allocate size)).account.limit.toNat_lt
      rw [hafter] at hle hlimit
      have hbytes : bytes ⟨account, size :: l.held, account.live :: l.marks⟩ = size.toNat + l.bytes := rfl
      omega
  | free size => trivial
  | resetPeak => trivial

/-! ## Histories -/

theorem counted_start (limit : UInt64) : Counted (start limit) :=
  ⟨rfl, rfl, mem_singleton.mpr rfl, mem_singleton.mpr rfl⟩

theorem within_start (limit : UInt64) : Within (start limit) := by
  refine ⟨Nat.zero_le _, rfl, fun mark hmark => ?_⟩
  rw [mem_singleton.mp hmark]
  exact UInt64.le_refl _

theorem Counted.throughout (h : Counted l) (hfrees : Along FreesHeld l calls) : Throughout Counted l calls := by
  induction calls generalizing l with
  | nil => exact h
  | cons c calls ih => exact ⟨h, ih (h.after hfrees.1) hfrees.2⟩

theorem Within.throughout_iff (h : Within l) (hcounted : Counted l) (hlimit : 0 < l.account.limit)
    (hfrees : Along FreesHeld l calls) : Throughout Within l calls ↔ Along RefusesOverflow l calls := by
  induction calls generalizing l with
  | nil => exact iff_of_true h trivial
  | cons c calls ih =>
    have hcounted' := hcounted.after hfrees.1
    have hlimit' : 0 < (l.after c).account.limit := by rwa [limit_after]
    constructor
    · rintro ⟨-, hrest⟩
      have hwithin : Within (l.after c) := by
        cases calls with
        | nil => exact hrest
        | cons d calls => exact hrest.1
      exact ⟨refusesOverflow_of_within hwithin, (ih hwithin hcounted' hlimit' hfrees.2).mp hrest⟩
    · rintro ⟨hrefuses, hrest⟩
      have hwithin := h.after hcounted hlimit hfrees.1 hrefuses
      exact ⟨h, (ih hwithin hcounted' hlimit' hfrees.2).mpr hrest⟩

/-- Whatever is allocated against a limit, and whatever of it is freed: after every call the account counts the buffers
that are held, and their bytes in 64 bits. After every call these bytes are within the limit as an exact number, are
what the account counts, and have never been more than the peak since it was reset, if and only if every request that
takes them beyond 64 bits is refused. -/
theorem limit_kept_iff (limit : UInt64) (hlimit : 0 < limit) (calls : List Call)
    (hfrees : Along FreesHeld (start limit) calls) :
    Throughout Counted (start limit) calls ∧
      (Throughout Within (start limit) calls ↔ Along RefusesOverflow (start limit) calls) :=
  ⟨(counted_start limit).throughout hfrees,
    (within_start limit).throughout_iff (counted_start limit) hlimit hfrees⟩

/-- A request is refused, another one is freed, and the peak is reset in between. -/
theorem limit_kept_after_refusal :
    let calls : List Call := [.allocate 60, .allocate 50, .allocate 40, .free 60, .resetPeak, .allocate 5]
    Along FreesHeld (start 100) calls ∧ Along RefusesOverflow (start 100) calls ∧
      Throughout Within (start 100) calls ∧ (calls.foldl after (start 100)).held = [5, 40] := by
  intro calls
  have hfrees : Along FreesHeld (start 100) calls := by decide
  have hrefuses : Along RefusesOverflow (start 100) calls := by decide
  exact ⟨hfrees, hrefuses, (limit_kept_iff 100 (by decide) calls hfrees).2.mpr hrefuses, by decide⟩

/-- A request of almost all 64 bits wraps around to 5 bytes, and is accepted against a limit of 100. -/
theorem limit_exceeded_by_wrapping :
    let calls : List Call := [.allocate 10, .allocate 18446744073709551611]
    Along FreesHeld (start 100) calls ∧ ¬ Throughout Within (start 100) calls ∧
      (calls.foldl after (start 100)).bytes = 18446744073709551621 ∧
      (calls.foldl after (start 100)).account.live = 5 := by
  intro calls
  refine ⟨by decide, fun hwithin => ?_, by decide, by decide⟩
  exact absurd hwithin.2.2.bytes_le (by decide)

end Ledger

end LazyTensor.Account
