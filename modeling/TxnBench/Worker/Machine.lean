import TxnBench.Collection.Basic
import TxnBench.Workload.Task
import TxnBench.Worker.Stats

/-!
# A worker, call by call

A worker carries out its tasks in order, a batch of them in one transaction. A batch ends when it has as many tasks as the
limit says (zero stands for no limit) or when there are no more tasks, and is then committed. If the runtime turns the
transaction down, in the middle or at the commit, every task of the batch counts as failed and the worker goes on with the
next task: no batch is tried again.

A worker is a machine whose every `step` makes one call on the collection, so the calls of several workers can be
interleaved in any order. `run` is the worker by itself: three calls are enough for any task, one to open a transaction, one
for the task and one to commit.
-/

namespace TxnBench

/-- What a worker is about to do. -/
inductive Phase (T : Type) where
  /-- To open a transaction for the next task, or nothing if there are no more tasks. -/
  | idle
  /-- To carry out the next task. -/
  | running (txn : T)
  /-- To commit. -/
  | closing (txn : T)
  /-- Nothing any more: it broke off. -/
  | broken (f : Fault)

/-- A worker at some point of its work. -/
structure Worker (T : Type) where
  /-- The tasks not yet attempted. -/
  todo : List Task
  phase : Phase T
  /-- The batch in progress. -/
  batch : Batch
  stats : Stats

namespace Worker

/-- A worker that has done nothing yet. -/
def fresh {T : Type} (tasks : List Task) : Worker T :=
  ⟨tasks, .idle, {}, {}⟩

variable (C : Collection UInt64 UInt64)

/-- Makes the call a task asks for. The reply says what it adds to the keys inserted and removed. -/
def attempt (task : Task) (t : C.Txn) (s : C.State) : Reply (UInt64 × UInt64) × C.Txn × C.State :=
  match task.kind with
  | .insert =>
    let (reply, t, s) := C.put t s task.key task.value
    (reply.map fun previous => (if previous.isNone then 1 else 0, 0), t, s)
  | .remove =>
    let (reply, t, s) := C.remove t s task.key
    (reply.map fun previous => (0, if previous.isSome then 1 else 0), t, s)
  | .contains =>
    let (reply, t, s) := C.contains t s task.key
    (reply.map fun _ => (0, 0), t, s)

/-- Adds to a batch a task that has been carried out. -/
def extend (b : Batch) (grown : UInt64 × UInt64) : Except Fault Batch := do
  return { b with inserts := ← Word.plus b.inserts grown.1, removes := ← Word.plus b.removes grown.2 }

/-- Whether a batch is to be committed before the next of the tasks to come. -/
def isFull (limit : UInt64) (b : Batch) (todo : List Task) : Bool :=
  (limit ≠ 0 ∧ b.size = limit) ∨ todo.isEmpty

/-- A worker between two batches, with the statistics of the one that ended; a fault ends the work. -/
def settled {T : Type} (todo : List Task) (stats : Stats) : Except Fault Stats → Worker T
  | .ok stats => ⟨todo, .idle, {}, stats⟩
  | .error f => ⟨todo, .broken f, {}, stats⟩

/-- Carries out a task in an open transaction. -/
def advance (limit : UInt64) (task : Task) (todo : List Task) (b : Batch) (stats : Stats) (t : C.Txn) (s : C.State) :
    Worker C.Txn × C.State :=
  match Word.plus b.size 1 with
  | .error f => (⟨todo, .broken f, b, stats⟩, C.drop t s)
  | .ok size =>
    let b := { b with size }
    match attempt C task t s with
    | (.value grown, t, s) =>
      match extend b grown with
      | .error f => (⟨todo, .broken f, b, stats⟩, C.drop t s)
      | .ok b => (⟨todo, if isFull limit b todo then .closing t else .running t, b, stats⟩, s)
    | (.abort _, t, s) => (settled todo stats (stats.abort b), C.drop t s)
    | (.fault f, t, s) => (⟨todo, .broken f, b, stats⟩, C.drop t s)

/-- Commits a batch. -/
def close (todo : List Task) (b : Batch) (stats : Stats) (t : C.Txn) (s : C.State) : Worker C.Txn × C.State :=
  match C.commit t s with
  | (.value (), s) => (settled todo stats (stats.commit b), s)
  | (.abort _, s) => (settled todo stats (stats.abort b), s)
  | (.fault f, s) => (⟨todo, .broken f, b, stats⟩, s)

/-- Makes the next call. -/
def step (limit : UInt64) (w : Worker C.Txn) (s : C.State) : Worker C.Txn × C.State :=
  match w.phase, w.todo with
  | .idle, [] => (w, s)
  | .idle, _ :: _ =>
    let (t, s) := C.start s
    ({ w with phase := .running t }, s)
  | .running t, task :: todo => advance C limit task todo w.batch w.stats t s
  | .running t, [] => close C [] w.batch w.stats t s
  | .closing t, todo => close C todo w.batch w.stats t s
  | .broken _, _ => (w, s)

/-- Makes several calls in a row. -/
def steps (limit : UInt64) : Nat → Worker C.Txn → C.State → Worker C.Txn × C.State
  | 0, w, s => (w, s)
  | n + 1, w, s =>
    let (w, s) := step C limit w s
    steps limit n w s

/-- What a worker that was given so many tasks reports at its end: no transaction may be open, and each task must have been
counted. -/
def report {T : Type} (assigned : Nat) (w : Worker T) : Except Fault Stats :=
  match w.phase with
  | .idle => do
    let counted ← w.stats.ops
    if counted.toNat = assigned then return w.stats else throw (.miscounted counted.toNat assigned)
  | .broken f => throw f
  | _ => throw .unfinished

/-- Carries out tasks with nobody else at work. -/
def run (limit : UInt64) (tasks : List Task) (s : C.State) : Except Fault Stats × C.State :=
  let (w, s) := steps C limit (3 * tasks.length) (fresh tasks) s
  (w.report tasks.length, s)

end Worker

end TxnBench
