import LazyTensor.Number.IntWord

/-!
# Workers

Work on `n` items is divided among workers into consecutive ranges, on which they work one after the
other in some order. A pool has a soft limit of parallel work and counts the tasks that run.
-/

namespace LazyTensor

/-- A half open range of indices. -/
structure Range where
  start : Nat
  stop : Nat
deriving DecidableEq

/-- A pool of workers. No parallel work is done if `parallelism` is zero, and any amount if it is
negative. -/
structure Workers where
  parallelism : Int
  /-- The processors of the machine. -/
  processors : Nat
  /-- Tasks that run now; they are not counted without a limit. -/
  running : Nat := 0
  /-- Which of the ranges that are left comes next, time after time. After that they come in order. -/
  turns : List Nat := []
deriving DecidableEq

namespace Workers

/-- The processors taken for granted when nothing else is said. -/
def defaultProcessors : Nat := 8

/-- A pool with the given limit on a machine of the usual size. -/
def withParallelism (parallelism : Int) : Workers := { parallelism, processors := defaultProcessors }

def enabled (w : Workers) : Bool := w.parallelism != 0

/-- Two tasks may run for each unit of parallelism. -/
def tasksPerUnit : Int := 2

/-- Starts a task if there is room for it, and says whether it did. The room is a 64-bit word, so that
there is none if twice the parallelism does not fit. -/
def start (w : Workers) : Bool × Workers :=
  if w.parallelism = 0 then (false, w)
  else if w.parallelism < 0 then (true, w)
  else if wrap64 (tasksPerUnit * w.parallelism) ≤ w.running then (false, w)
  else (true, { w with running := w.running + 1 })

/-- Ends a task. -/
def finish (w : Workers) : Workers := { w with running := w.running - 1 }

/-- Into how many ranges `n` items are divided, of at least `least` items each. -/
def numChunks (w : Workers) (n least : Int) : Int :=
  let least := max least 1
  if !w.enabled ∨ n ≤ least then 1
  else
    let target : Int := if w.parallelism < 0 then w.processors else w.parallelism
    max 1 (min target ((wrap64 (n + least - 1)).tdiv least))

/-- Consecutive ranges of `chunk` items from `start` to `stop`; the last one may be shorter. -/
def rangesFrom (start stop chunk : Nat) : List Range :=
  if _h : start < stop ∧ 0 < chunk then
    ⟨start, min (start + chunk) stop⟩ :: rangesFrom (start + chunk) stop chunk
  else []
termination_by stop - start

/-- The ranges into which work on `n` items is divided. -/
def division (w : Workers) (n least : Int) : List Range :=
  if n ≤ 0 then []
  else
    let chunks := w.numChunks n least
    if chunks = 1 then [⟨0, n.toNat⟩]
    else rangesFrom 0 n.toNat ((n + chunks - 1) / chunks).toNat

/-- Ranges in the order in which they take their turns. A turn of no range is passed over. -/
def inTurn : (turns : List Nat) → List Range → List Range
  | [], ranges => ranges
  | turn :: turns, ranges =>
    match ranges[turn]? with
    | some r => r :: inTurn turns (ranges.eraseIdx turn)
    | none => inTurn turns ranges

/-- The ranges over which work on `n` items is done, one after the other. -/
def ranges (w : Workers) (n least : Int) : List Range := inTurn w.turns (w.division n least)

end Workers

end LazyTensor
