import LazyTensor.Proofs.Workers.Division

/-!
# The loop that starts the work

The ranges are started one after the other. Each is given to a worker if the pool has room for it, and otherwise the
loop does it itself before it goes on. Whether there is room depends on what else the pool is used for, and workers
end when they like, so a state may have several next ones. A call may fail: this is noted, and what failed first is
raised at the end.

All runs end, after every range was called once. The order in which the calls end is one of turns.
-/

namespace LazyTensor

open List Option

/-- A call is on the items from one word up to another. -/
structure RangeCall where
  start : Int
  stop : Int
deriving DecidableEq

def Range.call (r : Range) : RangeCall := ⟨r.start, r.stop⟩

theorem Consecutive.countP_eq_one {a b : Nat} {ranges : List Range} (h : Consecutive a ranges b) {i : Nat}
    (ha : a ≤ i) (hb : i < b) : ranges.countP (fun r => r.start ≤ i ∧ i < r.stop) = 1 := by
  induction h with
  | nil a => omega
  | @cons r ranges b hlt hrest ih =>
    rw [countP_cons]
    by_cases hi : i < r.stop
    · -- the others start behind it
      have hnone : ∀ r' ∈ ranges, ¬ decide (r'.start ≤ i ∧ i < r'.stop) = true := by
        intro r' hr'
        have hbounds := hrest.bounds hr'
        simp
        omega
      rw [countP_eq_zero.mpr hnone]
      simp [ha, hi]
    · rw [ih (by omega) hb]
      simp [hi]

theorem exists_findSome?_eq {α β : Type} {f : α → Option β} {xs : List α} (h : ∃ x ∈ xs, f x ≠ none) :
    ∃ x ∈ xs, f x ≠ none ∧ xs.findSome? f = f x := by
  cases hfound : xs.findSome? f with
  | none =>
    obtain ⟨x, hx, hfx⟩ := h
    exact absurd (findSome?_eq_none_iff.mp hfound x hx) hfx
  | some e =>
    obtain ⟨x, hx, hfx⟩ := exists_of_findSome?_eq_some hfound
    exact ⟨x, hx, by simp [hfx], hfx.symm⟩

/-! ## States and steps -/

/-- How far the loop has come. A call that has ended is kept with its failure. -/
structure Loop (ε : Type) where
  /-- Where the next range starts. -/
  next : Int := 0
  /-- The call that the loop does itself. -/
  inline : Option RangeCall := none
  /-- The calls that workers do. -/
  running : List RangeCall := []
  /-- The calls that have ended, in this order. -/
  ended : List (RangeCall × Option ε) := []
  /-- What failed first. -/
  failure : Option ε := none

/-- The size of the ranges as the loop finds it. -/
def Workers.chunkWord (w : Workers) (n least : Int) : Int :=
  (wrap64 (n + w.numChunks n least - 1)).tdiv (w.numChunks n least)

namespace Loop

variable {ε : Type}

/-- A single range is done without a worker. -/
def initial (w : Workers) (n least : Int) : Loop ε :=
  if w.numChunks n least = 1 then { next := n, inline := some ⟨0, n⟩ } else {}

/-- The next call. It ends where the one after it starts, or with the last item. -/
def call (n size : Int) (l : Loop ε) : RangeCall := ⟨l.next, min (wrap64 (l.next + size)) n⟩

/-- What may happen next, with `n` items in ranges of `size` items. -/
inductive Step (n size : Int) : Loop ε → Loop ε → Prop where
  /-- A worker is given the next range. -/
  | start (l : Loop ε) (free : l.inline = none) (lt : l.next < n) :
    Step n size l { l with next := wrap64 (l.next + size), running := l.call n size :: l.running }
  /-- There is no room, and the loop takes the next range itself. -/
  | keep (l : Loop ε) (free : l.inline = none) (lt : l.next < n) :
    Step n size l { l with next := wrap64 (l.next + size), inline := some (l.call n size) }
  /-- The call of a worker ends, in whatever way. -/
  | finish (l : Loop ε) (before after : List RangeCall) (c : RangeCall) (o : Option ε)
    (split : l.running = before ++ c :: after) :
    Step n size l { l with running := before ++ after, ended := l.ended ++ [(c, o)], failure := l.failure.or o }
  /-- The call of the loop itself ends, in whatever way. -/
  | finishInline (l : Loop ε) (c : RangeCall) (o : Option ε) (busy : l.inline = some c) :
    Step n size l { l with inline := none, ended := l.ended ++ [(c, o)], failure := l.failure.or o }

/-- The loop has gone over all items and all calls have ended. -/
structure Done (n : Int) (l : Loop ε) : Prop where
  le : n ≤ l.next
  inline : l.inline = none
  running : l.running = []

/-- A run of some steps. -/
inductive Run (n size : Int) (l : Loop ε) : Nat → Loop ε → Prop where
  | refl : Run n size l 0 l
  | step {steps : Nat} {l' l'' : Loop ε} (run : Run n size l steps l') (step : Step n size l' l'') :
    Run n size l (steps + 1) l''

theorem exists_step {n size : Int} {l : Loop ε} (h : ¬ l.Done n) : ∃ l', Step n size l l' := by
  cases hinline : l.inline with
  | some c => exact ⟨_, .finishInline l c none hinline⟩
  | none =>
    cases hrunning : l.running with
    | cons c running => exact ⟨_, .finish l [] running c none hrunning⟩
    | nil =>
      by_cases hlt : l.next < n
      · exact ⟨_, .start l hinline hlt⟩
      · exact absurd ⟨by omega, hinline, hrunning⟩ h

/-! ## The calls of a run -/

/-- The calls that have not been started. -/
def pending (n size : Int) (l : Loop ε) : List RangeCall :=
  (Workers.rangesFrom l.next.toNat n.toNat size.toNat).map Range.call

/-- All calls: those that have ended, those that are being done, and those that have not been started. -/
def calls (n size : Int) (l : Loop ε) : List RangeCall :=
  l.ended.map (·.1) ++ l.inline.toList ++ l.running ++ l.pending n size

/-- No call is lost or made twice, and the failure is the first one that was noted. -/
structure Sound (n size : Int) (ranges : List Range) (l : Loop ε) : Prop where
  nonneg : 0 ≤ l.next
  perm : (l.calls n size).Perm (ranges.map Range.call)
  failure : l.failure = l.ended.findSome? (·.2)

/-- How many steps are left: a call has to be started and has to end. -/
def left (n size : Int) (l : Loop ε) : Nat :=
  2 * (l.pending n size).length + l.inline.toList.length + l.running.length

section

variable {n size : Int} {ranges : List Range} {l l' l'' : Loop ε} {steps : Nat}

section

variable (hsize : 0 < size) (hfit : n + size ≤ wordLimit)

include hsize hfit

theorem pending_eq_cons (hnonneg : 0 ≤ l.next) (hlt : l.next < n) : 0 ≤ wrap64 (l.next + size) ∧
      l.pending n size = l.call n size :: pending n size { l with next := wrap64 (l.next + size) } := by
  have hwrap : wrap64 (l.next + size) = l.next + size := wrap64_eq_self (by unfold wordLimit; omega) (by omega)
  have hnext : (l.next + size).toNat = l.next.toNat + size.toNat := Int.toNat_add hnonneg (by omega)
  refine ⟨by omega, ?_⟩
  rw [pending, Workers.rangesFrom_cons (by omega) (by omega), map_cons, pending, hwrap, hnext]
  congr 1
  simp only [Range.call, call, RangeCall.mk.injEq]
  omega

/-- A step of the loop loses no call and makes none twice. -/
theorem perm_calls_step (hnonneg : 0 ≤ l.next)
    (hstep : Step n size l l') : (l'.calls n size).Perm (l.calls n size) := by
  -- each call is at as many places as before
  rw [perm_iff_count]
  cases hstep with
  | start free lt =>
    simp only [calls, (pending_eq_cons hsize hfit hnonneg lt).2, List.count_append, count_cons]
    simp only [pending]
    omega
  | keep free lt =>
    simp only [calls, (pending_eq_cons hsize hfit hnonneg lt).2, free, List.count_append, count_cons,
      toList_none, toList_some]
    simp only [pending]
    omega
  | finish before after c' o split =>
    simp only [calls, split, List.count_append, count_cons, map_append, map_cons, map_nil,
      count_nil, pending]
    omega
  | finishInline c' o busy =>
    simp only [calls, busy, List.count_append, map_append, map_cons, map_nil,
      count_nil, toList_none, toList_some, pending]
    omega

theorem Sound.step (h : l.Sound n size ranges) (hstep : Step n size l l') : l'.Sound n size ranges := by
  have hcalls := (perm_calls_step hsize hfit h.nonneg hstep).trans h.perm
  cases hstep with
  | start free lt | keep free lt => exact ⟨(pending_eq_cons hsize hfit h.nonneg lt).1, hcalls, h.failure⟩
  -- a failure is noted only if none was before
  | finish before after c o split => exact ⟨h.nonneg, hcalls, by simp [h.failure]⟩
  | finishInline c o busy => exact ⟨h.nonneg, hcalls, by simp [h.failure]⟩

theorem left_step (hnonneg : 0 ≤ l.next) (hstep : Step n size l l') : l'.left n size + 1 = l.left n size := by
  cases hstep with
  | start free lt =>
    simp only [left, (pending_eq_cons hsize hfit hnonneg lt).2, length_cons]
    simp only [pending]
    omega
  | keep free lt =>
    simp only [left, (pending_eq_cons hsize hfit hnonneg lt).2, free, length_cons, toList_none,
      toList_some]
    simp only [pending]
    omega
  | finish before after c o split =>
    simp only [left, split, length_append, length_cons, pending]
    omega
  | finishInline c o busy =>
    simp only [left, busy, toList_none, toList_some, length_cons, pending]
    omega

theorem Run.sound (h : l.Sound n size ranges)
    (hrun : Run n size l steps l') : l'.Sound n size ranges ∧ l'.left n size + steps = l.left n size := by
  induction hrun with
  | refl => exact ⟨h, rfl⟩
  | step run step ih =>
    obtain ⟨hsound, hleft⟩ := ih
    have hless := left_step hsize hfit hsound.nonneg step
    exact ⟨hsound.step hsize hfit step, by omega⟩

end

theorem Sound.perm_of_done (h : l.Sound n size ranges) (hdone : l.Done n) :
    (l.ended.map (·.1)).Perm (ranges.map Range.call) := by
  have hle := hdone.le
  have hcalls := h.perm
  rw [calls, pending, Workers.rangesFrom_nil (by omega)] at hcalls
  simpa [hdone.inline, hdone.running] using hcalls

theorem Sound.exists_turns (h : l.Sound n size ranges) (hdone : l.Done n) :
    ∃ turns, l.ended.map (·.1) = (Workers.inTurn turns ranges).map Range.call := by
  -- the order of the calls is one of the ranges
  have hcomp : Relation.Comp (· = List.map Range.call ·) List.Perm (l.ended.map (·.1)) ranges := by
    rw [eq_map_comp_perm]
    exact h.perm_of_done hdone
  obtain ⟨order, hended, horder⟩ := hcomp
  obtain ⟨turns, hturns⟩ := Workers.exists_turns horder
  exact ⟨turns, by rw [hended, hturns]⟩

end

/-! ## The loop of a pool -/

variable (w : Workers) (least : Int) {n : Int}

theorem chunkWord_eq (hn : 1 ≤ n) (hfit : n + w.numChunks n least ≤ wordLimit) :
    w.chunkWord n least = w.chunkSize n least := by
  have hchunks := w.one_le_numChunks n least
  rw [Workers.chunkWord, Workers.chunkSize, wrap64_eq_self (by unfold wordLimit; omega) (by omega),
    Int.tdiv_eq_ediv_of_nonneg (by omega)]

theorem sound_initial (hn : 1 ≤ n) :
    (initial w n least : Loop ε).Sound n (w.chunkSize n least) (w.division n least) := by
  rw [w.division_eq_rangesFrom least hn, initial]
  split
  · rename_i hone
    -- the one range is being done
    refine ⟨by simp only; omega, ?_, rfl⟩
    rw [w.chunkSize_of_numChunks_eq_one least hone, calls, pending, Workers.rangesFrom_nil (by simp),
      Workers.rangesFrom_cons (by omega) (by omega), Workers.rangesFrom_nil (by omega)]
    simp [Range.call, Int.toNat_of_nonneg (by omega : 0 ≤ n)]
  · exact ⟨by simp, by simp [calls, pending], rfl⟩

theorem left_initial_le (hn : 1 ≤ n) :
    (initial w n least : Loop ε).left n (w.chunkSize n least) ≤ 2 * (w.division n least).length := by
  rw [w.division_eq_rangesFrom least hn, initial]
  split
  · rename_i hone
    rw [w.chunkSize_of_numChunks_eq_one least hone, left, pending, Workers.rangesFrom_nil (by simp),
      Workers.rangesFrom_cons (by omega) (by omega)]
    simp
    omega
  · simp [left, pending]

end Loop

namespace Workers

variable {ε β : Type}

/-- Work on at most `2 ^ 62` items is divided into consecutive ranges that are not empty, no more than were asked for.
Every run of the loop ends, and never without all ranges called once. If a call failed, then what failed in one of them
is raised. The calls end in an order of turns. A kernel that is run over the ranges in such an order does the same: all
ranges write their part, and the fault is one of theirs if there is one. -/
theorem division_run_once (w : Workers) (n least : Int) (hn : 1 ≤ n) (hmax : 2 * n ≤ wordLimit) :
    Consecutive 0 (w.division n least) n.toNat ∧
    (w.division n least).length ≤ w.numChunks n least ∧
    (∀ i : Nat, i < n → (w.division n least).countP (fun r => r.start ≤ i ∧ i < r.stop) = 1) ∧
    (∀ (steps : Nat) (l : Loop ε), Loop.Run n (w.chunkWord n least) (.initial w n least) steps l →
      steps ≤ 2 * (w.division n least).length ∧
      (¬ l.Done n → ∃ l', Loop.Step n (w.chunkWord n least) l l') ∧
      (l.Done n →
        (∃ turns, l.ended.map (·.1) = ({ w with turns }.ranges n least).map Range.call) ∧
        ((∃ c ∈ l.ended, c.2 ≠ none) → ∃ c ∈ l.ended, c.2 ≠ none ∧ l.failure = c.2) ∧
        ((∀ c ∈ l.ended, c.2 = none) → l.failure = none))) ∧
    ∀ (run : Range → Kernel.Outcome β) (out : Array β), n ≤ out.size →
      (∀ r ∈ w.ranges n least, (run r).1.size = r.stop - r.start) →
      (∀ r ∈ w.ranges n least, ∀ i : Nat, r.start ≤ i → i < r.stop →
        (Kernel.overRanges (w.ranges n least) run out).1[i]? = (run r).1[i - r.start]?) ∧
      ((∃ r ∈ w.ranges n least, (run r).2 ≠ none) →
        ∃ r ∈ w.ranges n least, (run r).2 ≠ none ∧ (Kernel.overRanges (w.ranges n least) run out).2 = (run r).2) := by
  have hconsecutive := w.consecutive_division n least
  have hword : chunkWord w n least = w.chunkSize n least := by
    have hchunks := numChunks_le_self w least hn (by unfold wordLimit at *; omega)
    exact Loop.chunkWord_eq w least hn (by omega)
  refine ⟨hconsecutive, length_division_le w least hn,
    fun i hi => hconsecutive.countP_eq_one (Nat.zero_le i) (by omega), fun steps l hrun => ?_,
    fun run out hout hrun => ⟨fun r hr i => ?_, fun hfault => ?_⟩⟩
  · -- a range is no longer than the items, so the start of the next one is a word
    have hsize := one_le_chunkSize w least hn
    have hle := chunkSize_le w least hn
    rw [hword] at hrun ⊢
    obtain ⟨hsound, hleft⟩ := hrun.sound (by omega) (by omega) (Loop.sound_initial w least hn)
    have hfirst := Loop.left_initial_le w least hn (ε := ε)
    refine ⟨by omega, Loop.exists_step, fun hdone => ⟨hsound.exists_turns hdone, fun hfailed => ?_, fun hnone => ?_⟩⟩
    · rw [hsound.failure]
      exact exists_findSome?_eq hfailed
    · rw [hsound.failure]
      exact List.findSome?_eq_none_iff.mpr hnone
  · exact (Kernel.getElem?_overRanges (w.covers_ranges n least).toApart (by omega) hrun i).2 r hr
  · rw [Kernel.overRanges_snd]
    exact exists_findSome?_eq hfault

/-- Two ranges, of which the loop does the second one itself: this fails, and ends before the first. -/
theorem division_run_once_nine :
    ∃ l : Loop String, Loop.Run 9 ((withParallelism 2).chunkWord 9 8) (.initial (withParallelism 2) 9 8) 4 l ∧
      l.Done 9 ∧ l.ended = [(⟨5, 9⟩, some "failed"), (⟨0, 5⟩, none)] ∧ l.failure = some "failed" ∧
      ∃ turns, l.ended.map (·.1) = ({ withParallelism 2 with turns }.ranges 9 8).map Range.call := by
  have hsize : (withParallelism 2).chunkWord 9 8 = 5 := by decide +kernel
  have hinitial : (Loop.initial (withParallelism 2) 9 8 : Loop String) = {} := if_neg (by decide +kernel)
  have hrun : Loop.Run 9 ((withParallelism 2).chunkWord 9 8) (.initial (withParallelism 2) 9 8) 4
      { next := 10, ended := [(⟨5, 9⟩, some "failed"), (⟨0, 5⟩, none)], failure := some "failed" } := by
    rw [hsize, hinitial]
    exact .step (.step (.step (.step .refl (.start _ rfl (by decide))) (.keep _ rfl (by decide)))
      (.finishInline _ ⟨5, 9⟩ (some "failed") rfl)) (.finish _ [] [] ⟨0, 5⟩ none rfl)
  have hdone : Loop.Done 9
      { next := 10, ended := [(⟨5, 9⟩, some "failed"), (⟨0, 5⟩, none)], failure := some "failed" } :=
    ⟨by decide, rfl, rfl⟩
  obtain ⟨-, -, -, hloop, -⟩ := division_run_once (β := Nat) (withParallelism 2) 9 8 (by decide) (by decide)
  exact ⟨_, hrun, hdone, rfl, rfl, ((hloop 4 _ hrun).2.2 hdone).1⟩

end Workers

end LazyTensor
