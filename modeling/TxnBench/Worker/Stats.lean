import TxnBench.Word

/-!
# Statistics of a worker

A worker runs its tasks in batches, each batch in one transaction, and counts what became of them. Only committed batches
add to the operations that succeeded and to the entries inserted and removed.
-/

namespace TxnBench

/-- A batch: how many tasks it has so far, how many of them inserted a new key, and how many removed one. -/
structure Batch where
  size : UInt64 := 0
  inserts : UInt64 := 0
  removes : UInt64 := 0
  deriving DecidableEq, Repr

/-- What a worker has counted. -/
structure Stats where
  /-- Tasks in committed batches. -/
  succeeded : UInt64 := 0
  /-- Tasks in batches that were turned down. -/
  failed : UInt64 := 0
  /-- Insertions of absent keys in committed batches. -/
  inserts : UInt64 := 0
  /-- Removals of present keys in committed batches. -/
  removes : UInt64 := 0
  /-- Committed batches. -/
  committed : UInt64 := 0
  /-- Batches that were turned down. -/
  aborted : UInt64 := 0
  deriving DecidableEq, Repr

namespace Stats

/-- How many tasks were attempted. -/
def ops (s : Stats) : Except Fault UInt64 :=
  Word.plus s.succeeded s.failed

/-- How many transactions were attempted. -/
def txns (s : Stats) : Except Fault UInt64 :=
  Word.plus s.committed s.aborted

/-- Counts a committed batch. -/
def commit (s : Stats) (b : Batch) : Except Fault Stats := do
  return { s with
    succeeded := ← Word.plus s.succeeded b.size
    inserts := ← Word.plus s.inserts b.inserts
    removes := ← Word.plus s.removes b.removes
    committed := ← Word.plus s.committed 1 }

/-- Counts a batch that was turned down. -/
def abort (s : Stats) (b : Batch) : Except Fault Stats := do
  return { s with
    failed := ← Word.plus s.failed b.size
    aborted := ← Word.plus s.aborted 1 }

/-- Adds up two statistics. -/
def plus (s t : Stats) : Except Fault Stats := do
  return {
    succeeded := ← Word.plus s.succeeded t.succeeded
    failed := ← Word.plus s.failed t.failed
    inserts := ← Word.plus s.inserts t.inserts
    removes := ← Word.plus s.removes t.removes
    committed := ← Word.plus s.committed t.committed
    aborted := ← Word.plus s.aborted t.aborted }

/-- The sum of the statistics of all workers. -/
def sum (workers : List Stats) : Except Fault Stats :=
  workers.foldlM plus {}

/-- The printed lines. -/
def lines (s : Stats) : List String :=
  ["inserts occurred: " ++ toString s.inserts.toNat, "removes occurred: " ++ toString s.removes.toNat,
    "succ ops: " ++ toString s.succeeded.toNat, "fail ops: " ++ toString s.failed.toNat]

/-- The printed form. -/
def text (s : Stats) : String :=
  "\n".intercalate s.lines

end Stats

end TxnBench
