import TxnBench.Bench.Populate
import TxnBench.Bench.Report
import TxnBench.Bench.Workers
import TxnBench.Workload.Generate

/-!
# A benchmark

A benchmark generates its tasks, populates a new collection, runs the workers, and reports. Only the run of the workers is
timed, so a benchmark falls into what comes before it (`prepare`), the run itself (`Ready.execute`) and what comes after it
(`Executed.report`).
-/

namespace TxnBench

/-- What is run. -/
structure Params where
  threads : UInt64
  tasks : UInt64
  /-- How many tasks a transaction has, zero for no limit. -/
  perTxn : UInt64
  /-- Percent of the tasks that are insertions. -/
  inserts : UInt8
  /-- Percent of the tasks that are removals. -/
  removes : UInt8
  deriving DecidableEq, Repr

/-- The bytes of the lists of known length that a run takes room for, in their order: its tasks and its workers. A run whose tasks
cannot be counted takes room for none. -/
def Params.rooms (p : Params) : List Nat :=
  match Composition.ofShares p.tasks p.inserts p.removes >>= Composition.total with
  | .ok total => [total.toNat * Task.bytes, p.threads.toNat * Workers.handleBytes]
  | .error _ => []

namespace Bench

variable (C : Collection UInt64 UInt64)

/-- A benchmark whose workers are about to start. -/
structure Ready (G : Type) where
  tasks : List Task
  /-- How many entries there are. -/
  initial : UInt64
  state : C.State
  source : G

/-- A benchmark whose workers have come to their end. -/
structure Executed (G : Type) where
  initial : UInt64
  workers : List Stats
  state : C.State
  source : G

/-- A benchmark that is over. -/
structure Finished (G : Type) where
  report : Report
  /-- The collection it has left. -/
  state : C.State
  /-- The random source it has left. -/
  source : G

/-- Generates the tasks and populates a new collection. -/
def prepare {G : Type} [Source G] (p : Params) (g : G) : Except Halt (Ready C G) := do
  let range ← KeyRange.ofTasks p.tasks
  let composition ← Composition.ofShares p.tasks p.inserts p.removes
  let some (tasks, g) ← composition.generate range g | throw .stalled
  let (initial, state, source) := populate C (initialEntries p.tasks) range C.empty g
  return { tasks, initial := ← initial, state, source }

variable {C} {G : Type}

/-- Runs the workers. -/
def Ready.execute (p : Params) (r : Ready C G) : Except Halt (Executed C G) := do
  let (workers, state) := runWorkers C r.tasks p.threads p.perTxn r.state
  return { initial := r.initial, workers := ← workers, state, source := r.source }

/-- Reports on workers that took the time given. -/
def Executed.report (e : Executed C G) (elapsed : Duration) : Except Halt (Finished C G) := do
  let report ← Report.aggregate e.initial e.workers (C.size e.state) elapsed
  return { report, state := e.state, source := e.source }

end Bench

/-- Runs a benchmark whose workers take the time given. -/
def bench (C : Collection UInt64 UInt64) {G : Type} [Source G] (p : Params) (elapsed : Duration) (g : G) :
    Except Halt (Bench.Finished C G) := do
  let ready ← Bench.prepare C p g
  let executed ← ready.execute p
  executed.report elapsed

end TxnBench
