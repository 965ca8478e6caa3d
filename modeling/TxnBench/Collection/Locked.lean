import TxnBench.Collection.Basic
import TxnBench.Collection.Contents

/-!
# The locked collection

Transactions run under one lock, so one begins when the one before it has ended, and none is ever turned down. A
transaction changes the entries in place and keeps an undo log: what each key held before each change, the last change
first. Dropping the transaction carries the log out, and committing forgets it.
-/

namespace TxnBench.Locked

variable {K V : Type} [Ord K] [Std.TransOrd K]

/-- What a transaction changed, the last change first: each key with what it held before. -/
abbrev Undo (K V : Type) : Type :=
  List (K × Option V)

/-- Puts a value at a key and logs what was there. -/
def put (undo : Undo K V) (m : Contents K V) (k : K) (v : V) : Reply (Option V) × Undo K V × Contents K V :=
  (.value m[k]?, (k, m[k]?) :: undo, m.insert k v)

/-- Takes a key away, and logs what was there if there was anything. -/
def remove (undo : Undo K V) (m : Contents K V) (k : K) : Reply (Option V) × Undo K V × Contents K V :=
  match m[k]? with
  | some v => (.value (some v), (k, some v) :: undo, m.erase k)
  | none => (.value none, undo, m)

/-- Undoes the changes of a transaction. -/
def rollback (undo : Undo K V) (m : Contents K V) : Contents K V :=
  m.writeAll undo

/-- Commits a transaction: its log is cleared, and its end then has nothing to undo. -/
def commit (_ : Undo K V) (m : Contents K V) : Contents K V :=
  rollback [] m

/-- The collection whose transactions run under one lock. -/
def collection (K V : Type) [Ord K] [Std.TransOrd K] : Collection K V where
  State := Contents K V
  Txn := Undo K V
  Pending := Empty
  empty := ∅
  start m := ([], m)
  get undo m k := (.value m[k]?, undo, m)
  put := put
  remove := remove
  prepare undo m := .settled (.value ()) (commit undo m)
  publish pending := nomatch pending
  drop := rollback
  size m := UInt64.ofNat m.size
  find m k := m[k]?

end TxnBench.Locked
