import TxnBench.Collection.Locked

/-!
# The faulty collection

A locked collection that is told to fail, so that what happens around a failure can be observed: it turns down every call
on some keys and every so many commits, breaks at one key, and misstates its size.
-/

namespace TxnBench

/-- The failures a faulty collection is told to have. -/
structure Failures where
  /-- Calls on the multiples of this key are turned down; zero stands for none. -/
  poison : UInt64 := 0
  /-- Each commit whose number is a multiple of this is turned down; zero stands for none. -/
  period : UInt64 := 0
  /-- Calls on this key break off. -/
  breaking : Option UInt64 := none
  /-- What the size is misstated by. -/
  offset : UInt64 := 0

namespace Faulty

/-- The entries, and how many commits there have been. -/
structure State where
  entries : Contents UInt64 UInt64
  commits : Nat

/-- The undo log of a transaction. -/
abbrev Txn : Type :=
  Locked.Undo UInt64 UInt64

/-- Whether a divisor is in force and divides a number. -/
def strikes (divisor : UInt64) (n : Nat) : Bool :=
  divisor ≠ 0 ∧ n % divisor.toNat = 0

/-- Makes a call on a key, unless it is to fail. -/
def guarded (f : Failures) (t : Txn) (s : State) (k : UInt64)
    (call : Txn → Contents UInt64 UInt64 → Reply (Option UInt64) × Txn × Contents UInt64 UInt64) :
    Reply (Option UInt64) × Txn × State :=
  if f.breaking = some k then (.fault .injected, t, s)
  else if strikes f.poison k.toNat then (.abort (.readConflict k.toNat), t, s)
  else
    let (reply, t, entries) := call t s.entries
    (reply, t, { s with entries })

/-- Counts a commit and settles it. -/
def settle (f : Failures) (t : Txn) (s : State) : Reply Unit × State :=
  let commits := s.commits + 1
  if strikes f.period commits then
    (.abort (.validation commits), { entries := Locked.rollback t s.entries, commits })
  else (.value (), { entries := Locked.commit t s.entries, commits })

/-- The collection with the failures given. -/
def collection (f : Failures) : Collection UInt64 UInt64 where
  State := State
  Txn := Txn
  Pending := Empty
  empty := ⟨∅, 0⟩
  start s := ([], s)
  get t s k := guarded f t s k fun t m => (.value m[k]?, t, m)
  put t s k v := guarded f t s k fun t m => Locked.put t m k v
  remove t s k := guarded f t s k fun t m => Locked.remove t m k
  prepare t s :=
    let (reply, s) := settle f t s
    .settled reply s
  publish pending := nomatch pending
  drop t s := { s with entries := Locked.rollback t s.entries }
  size s := UInt64.ofNat s.entries.size + f.offset
  find s k := s.entries[k]?

end Faulty

end TxnBench
