import TxnBench.Word
import TxnBench.Workload.Task

/-!
# The composition of a workload

How many tasks of each kind there are, how many entries there are before them, and which keys they are about. The shares of
insertions and removals are given in percent and are cut off to whole tasks; all other tasks are lookups.
-/

namespace TxnBench

/-- How many tasks of each kind a workload has. -/
structure Composition where
  inserts : UInt64
  removes : UInt64
  contains : UInt64
  deriving DecidableEq, Repr

namespace Composition

/-- The whole tasks in a share of `percent`. -/
def share (tasks : UInt64) (percent : UInt8) : Except Fault UInt64 := do
  let hundredfold ← Word.times tasks percent.toUInt64
  return hundredfold / 100

/-- The composition of a number of tasks with the shares given. -/
def ofShares (tasks : UInt64) (inserts removes : UInt8) : Except Fault Composition := do
  if 100 < inserts.toNat + removes.toNat then throw .shareSum
  let inserts ← share tasks inserts
  let removes ← share tasks removes
  let others ← Word.minus tasks inserts
  return ⟨inserts, removes, ← Word.minus others removes⟩

/-- How many tasks there are. -/
def total (c : Composition) : Except Fault UInt64 := do
  Word.plus (← Word.plus c.inserts c.removes) c.contains

/-- The kinds of the tasks, before they are put in order. -/
def kinds (c : Composition) : List TaskKind :=
  List.replicate c.inserts.toNat .insert ++ List.replicate c.removes.toNat .remove
    ++ List.replicate c.contains.toNat .contains

end Composition

/-- How many entries a collection is given before a workload of so many tasks. -/
def initialEntries (tasks : UInt64) : UInt64 :=
  tasks / 10

/-- The keys of a workload: ten for each initial entry, and one where there are none. -/
def KeyRange.ofTasks (tasks : UInt64) : Except Fault KeyRange := do
  KeyRange.between 1 (max (← Word.times (initialEntries tasks) 10) 1)

end TxnBench
