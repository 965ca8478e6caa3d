import TxnBench.Capacity
import TxnBench.Word

/-!
# Partition: which tasks each worker is given

The tasks are cut into one slice for each worker. The slices follow each other without gap or overlap, and their lengths
differ by one at most. The product of a number of tasks and a number of workers has 128 bits, which is more than a word
holds, so it is taken in a double word.
-/

namespace TxnBench

/-- The tasks from `start` up to but not including `stop`. -/
structure Slice where
  start : UInt64
  stop : UInt64
  deriving DecidableEq, Repr

namespace Slice

/-- The index at which the slice of worker `i` begins, and that of the worker before it ends. -/
def edge (tasks workers i : UInt64) : Except Fault UInt64 := do
  let product ← Word.timesDouble (Word.widen i) (Word.widen tasks)
  return Word.lower (product / Word.widen workers)

/-- The slice of worker `i`. -/
def ofWorker (tasks workers i : UInt64) : Except Fault Slice := do
  if ¬ (0 < workers ∧ i < workers) then throw .noSuchWorker
  let start ← edge tasks workers i
  let next ← Word.plus i 1
  let stop ← edge tasks workers next
  return ⟨start, stop⟩

/-- The slices of the first `count` of `workers` workers. -/
def ofFirst (tasks workers : UInt64) (count : Nat) : Except Fault (List Slice) :=
  (List.range count).mapM fun i => ofWorker tasks workers (UInt64.ofNat i)

/-- The slices of all workers. -/
def all (tasks workers : UInt64) : Except Fault (List Slice) :=
  ofFirst tasks workers workers.toNat

/-- A list of the slices of the first `count` workers, or of all workers if there are no more. There must be room for the
list, in which a slice takes sixteen bytes. -/
def listed (tasks workers count : UInt64) : Except Fault (List Slice) := do
  let count := min count.toNat workers.toNat
  Capacity.reserve count 16
  ofFirst tasks workers count

/-- The tasks of a slice. -/
def of {α : Type} (slice : Slice) (tasks : List α) : List α :=
  (tasks.take slice.stop.toNat).drop slice.start.toNat

end Slice

end TxnBench
