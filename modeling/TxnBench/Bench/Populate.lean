import TxnBench.Bench.Halt
import TxnBench.Collection.Basic
import TxnBench.Workload.Task
import TxnBench.Word

/-!
# Populating a collection

Random entries are inserted in one transaction, and the new keys among them are counted. Whatever goes wrong, the
transaction is dropped, and the source of randomness has been used as far as the work had come.
-/

namespace TxnBench

namespace Populate

variable (C : Collection UInt64 UInt64) {G : Type} [Source G]

/-- Draws and inserts `n` entries in an open transaction; `count` keys were new before. -/
def insertAll (range : KeyRange) : Nat → UInt64 → C.Txn → C.State → G → Except Halt (UInt64 × C.Txn) × C.State × G
  | 0, count, t, s, g => (.ok (count, t), s, g)
  | n + 1, count, t, s, g =>
    match Task.draw .insert range g with
    | none => (.error .stalled, C.drop t s, g)
    | some (task, g) =>
      match C.put t s task.key task.value with
      | (.value previous, t, s) =>
        match if previous.isNone then Word.plus count 1 else .ok count with
        | .ok count => insertAll range n count t s g
        | .error f => (.error (.fault f), C.drop t s, g)
      | (.abort why, t, s) => (.error (.failed (.populate why)), C.drop t s, g)
      | (.fault f, t, s) => (.error (.fault f), C.drop t s, g)

end Populate

/-- Inserts `n` random entries in one transaction, and returns how many of their keys were new. -/
def populate (C : Collection UInt64 UInt64) {G : Type} [Source G] (n : UInt64) (range : KeyRange) (s : C.State) (g : G) :
    Except Halt UInt64 × C.State × G :=
  let (t, s) := C.start s
  match Populate.insertAll C range n.toNat 0 t s g with
  | (.error e, s, g) => (.error e, s, g)
  | (.ok (count, t), s, g) =>
    match C.commit t s with
    | (.value (), s) => (.ok count, s, g)
    | (.abort why, s) => (.error (.failed (.populate why)), s, g)
    | (.fault f, s) => (.error (.fault f), s, g)

end TxnBench
