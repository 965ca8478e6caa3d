import TxnBench.Bench.Duration
import TxnBench.Text.Decimal
import TxnBench.Worker.Stats

/-!
# The report of a benchmark

The statistics of all workers are added up, and the size the collection should have is compared with the size it has. The
expected size is a signed word, since a faulty collection may have removed more than there was.
-/

namespace TxnBench

/-- The outcome of a benchmark. -/
structure Report where
  /-- The entries before the workload. -/
  initial : UInt64
  workers : List Stats
  total : Stats
  /-- The entries that the committed operations should have left. -/
  expected : Int
  /-- The entries that the collection says it has. -/
  actual : UInt64
  elapsed : Duration
  deriving DecidableEq, Repr

namespace Report

/-- How many bytes a report takes in a list. -/
def bytes : Nat :=
  112

/-- Adds up what the workers have counted. -/
def aggregate (initial : UInt64) (workers : List Stats) (actual : UInt64) (elapsed : Duration) : Except Fault Report := do
  let total ← Stats.sum workers
  let grown ← Word.signed .add (Word.toSigned initial + Word.toSigned total.inserts)
  let expected ← Word.signed .sub (grown - Word.toSigned total.removes)
  return { initial, workers, total, expected, actual, elapsed }

/-- Whether the collection has exactly the entries it should have. A size that is no signed word is never right. -/
def isConsistent (r : Report) : Bool :=
  r.actual.toNat ≤ Int64.maxValue.toInt ∧ r.actual.toNat = r.expected

/-- Operations that succeeded per second, and none when no time has passed. -/
def opsPerSecond (r : Report) : Float :=
  let secs := r.elapsed.seconds
  if 0 < secs then r.total.succeeded.toFloat / secs else 0

/-- The part of the transactions that was turned down. -/
def abortRate (r : Report) : Except Fault Float := do
  let txns ← r.total.txns
  return if txns = 0 then 0 else r.total.aborted.toFloat / txns.toFloat

/-- The lines about worker `i`. -/
def workerLines (i : Nat) (stats : Stats) : List String :=
  ["", "Thread " ++ toString i] ++ stats.lines

/-- The printed lines. -/
def lines (r : Report) : List String :=
  ["initial linked list size: " ++ toString r.initial.toNat]
    ++ (r.workers.mapIdx workerLines).flatten
    ++ ["", "Total: ",
      "total ops succeed: " ++ toString r.total.succeeded.toNat,
      "total ops failed: " ++ toString r.total.failed.toNat,
      "expected linked list size: " ++ toString r.expected,
      "actual linked list size: " ++ toString r.actual.toNat,
      "total running time in secs: " ++ Decimal.text r.elapsed.seconds]

/-- The printed form. -/
def text (r : Report) : String :=
  "\n".intercalate r.lines

end Report

end TxnBench
