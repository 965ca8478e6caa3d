import TxnBench.Fault
import TxnBench.Collection.Abort
import TxnBench.Files.Error

/-!
# Ends without a report

A benchmark ends without a report when it fails (`BenchError`, which its user is told), when it breaks off (`Fault`), or
when a draw from the random source gives up.
-/

namespace TxnBench

/-- Why a benchmark failed. -/
inductive BenchError where
  /-- A worker broke off. -/
  | workerBroke (worker : Nat)
  /-- The entries before the workload could not be put in place. -/
  | populate (why : Abort)
  /-- A record could not be laid out. -/
  | record (e : FileError)
  /-- The record file refused a request. -/
  | file (e : FileError)
  deriving DecidableEq, Repr

namespace BenchError

/-- The text of what caused a failure, where there is such a thing. -/
def cause : BenchError → Option String
  | .workerBroke _ => none
  | .populate why => some why.message
  | .record e => some e.message
  | .file e => some e.message

/-- The text of a failure. -/
def message : BenchError → String
  | .workerBroke worker => "worker " ++ toString worker ++ " terminated abnormally"
  | .populate why => "initial population aborted: " ++ why.message
  | .record e => "failed to write CSV record: " ++ e.message
  | .file e => "I/O error: " ++ e.message

end BenchError

/-- Why there is no report. -/
inductive Halt where
  | failed (e : BenchError)
  | fault (f : Fault)
  /-- A draw refused as many words as its source puts up with. -/
  | stalled
  deriving DecidableEq, Repr

/-- A fault ends a benchmark. -/
instance : MonadLift (Except Fault) (Except Halt) where
  monadLift := Except.mapError .fault

end TxnBench
