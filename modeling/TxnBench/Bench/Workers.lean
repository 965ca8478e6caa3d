import TxnBench.Bench.Halt
import TxnBench.Capacity
import TxnBench.Partition
import TxnBench.Worker.Machine

/-!
# Running the workers

Each worker is given its slice of the tasks. The workers run one after another, which is one of the ways in which they may
take turns. A worker that breaks off leaves nothing of its open transaction, and the others run to their end.

They are waited for in order, and waiting stops at the first that broke off; the others are then only looked at to see
whether one more broke off, and if so the blame falls on worker 0.
-/

namespace TxnBench

namespace Workers

/-- Runs workers one after another. -/
def runEach (C : Collection UInt64 UInt64) (limit : UInt64) :
    List (List Task) → C.State → List (Except Fault Stats) × C.State
  | [], s => ([], s)
  | tasks :: rest, s =>
    let (result, s) := Worker.run C limit tasks s
    let (results, s) := runEach C limit rest s
    (result :: results, s)

/-- Whether a worker broke off. -/
def broke : Except Fault Stats → Bool
  | .ok _ => false
  | .error _ => true

/-- Waits for workers in order, the first of them being worker `i`. -/
def join (i : Nat) : List (Except Fault Stats) → Except BenchError (List Stats)
  | [] => .ok []
  | .ok stats :: rest => (stats :: ·) <$> join (i + 1) rest
  | .error _ :: rest => .error (.workerBroke (if rest.any broke then 0 else i))

end Workers

/-- How many bytes it takes to keep hold of a running worker. -/
def Workers.handleBytes : Nat :=
  24

/-- Runs `workers` workers on the tasks and returns what each has counted. There must be workers, and room to keep hold of
them all. -/
def runWorkers (C : Collection UInt64 UInt64) (tasks : List Task) (workers limit : UInt64) (s : C.State) :
    Except Halt (List Stats) × C.State :=
  if workers = 0 then (.error (.fault .noWorkers), s)
  else
    match Capacity.reserve workers.toNat Workers.handleBytes *> Slice.all (UInt64.ofNat tasks.length) workers with
    | .error f => (.error (.fault f), s)
    | .ok slices =>
      let (results, s) := Workers.runEach C limit (slices.map fun slice => slice.of tasks) s
      ((Workers.join 0 results).mapError .failed, s)

end TxnBench
