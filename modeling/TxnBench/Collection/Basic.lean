import TxnBench.Fault
import TxnBench.Collection.Abort

/-!
# Collections with transactions

A collection is a shared state and the calls that transactions make on it, each of them atomic. Calls thread the state and
the transaction explicitly, so a schedule of many transactions is a list of calls, and no more than that.

A commit has two halves. `prepare` decides whether the transaction commits, and `publish` makes its effects visible. In
between, other transactions may make calls; a collection that has no such moment settles a commit in its first half.
-/

namespace TxnBench

/-- What a call comes back with. -/
inductive Reply (α : Type) where
  /-- The call succeeded. -/
  | value (a : α)
  /-- The transaction is turned down. -/
  | abort (why : Abort)
  /-- The call broke off. -/
  | fault (f : Fault)
  deriving DecidableEq, Repr

/-- The reply with its value changed. -/
def Reply.map {α β : Type} (f : α → β) : Reply α → Reply β
  | .value a => .value (f a)
  | .abort why => .abort why
  | .fault e => .fault e

/-- The outcome of the first half of a commit. -/
inductive Prepared (P S : Type) where
  /-- The commit is over. -/
  | settled (reply : Reply Unit) (state : S)
  /-- The commit will succeed, and its effects are to be published. -/
  | ready (pending : P) (state : S)

/-- A transactional collection of values at keys. -/
structure Collection (K V : Type) where
  /-- What transactions share. -/
  State : Type
  /-- What one open transaction has of its own. -/
  Txn : Type
  /-- What a prepared commit has yet to publish. -/
  Pending : Type
  /-- The collection before its first transaction. -/
  empty : State
  /-- Opens a transaction. -/
  start : State → Txn × State
  /-- The value at a key. -/
  get : Txn → State → K → Reply (Option V) × Txn × State
  /-- Puts a value at a key and returns the one that was there. -/
  put : Txn → State → K → V → Reply (Option V) × Txn × State
  /-- Takes a key away and returns the value that was there. -/
  remove : Txn → State → K → Reply (Option V) × Txn × State
  /-- The first half of a commit. -/
  prepare : Txn → State → Prepared Pending State
  /-- The second half of a commit. -/
  publish : Pending → State → State
  /-- Ends a transaction without its effects. -/
  drop : Txn → State → State
  /-- The number of entries, while no transaction is open. -/
  size : State → UInt64
  /-- The entry at a key, while no transaction is open. -/
  find : State → K → Option V

namespace Collection

variable {K V : Type} (C : Collection K V)

/-- Whether a key is present. -/
def contains (t : C.Txn) (s : C.State) (k : K) : Reply Bool × C.Txn × C.State :=
  let (reply, t, s) := C.get t s k
  (reply.map Option.isSome, t, s)

/-- Both halves of a commit at once. -/
def commit (t : C.Txn) (s : C.State) : Reply Unit × C.State :=
  match C.prepare t s with
  | .settled reply s => (reply, s)
  | .ready pending s => (.value (), C.publish pending s)

/-- Puts entries in order. -/
def putAll (t : C.Txn) (s : C.State) : List (K × V) → C.Txn × C.State
  | [] => (t, s)
  | (k, v) :: rest =>
    let (_, t, s) := C.put t s k v
    putAll t s rest

/-- Puts entries in one committed transaction, if there are any. -/
def prefill (s : C.State) : List (K × V) → C.State
  | [] => s
  | entries =>
    let (t, s) := C.start s
    let (t, s) := C.putAll t s entries
    (C.commit t s).2

end Collection

end TxnBench
