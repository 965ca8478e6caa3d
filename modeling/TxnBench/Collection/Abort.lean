/-!
# Aborts: why a transaction could not go on

An abort names the stripe it was met on. A commit that is turned down leaves no effect of its transaction. A read that is turned
down leaves the transaction as it was: it stays usable, and what it has buffered goes through if a later commit of it does.
-/

namespace TxnBench

/-- Why the runtime turned a transaction down. -/
inductive Abort where
  /-- A read met a stripe that is locked, or that changed after the transaction began. -/
  | readConflict (stripe : Nat)
  /-- A commit met a stripe that another commit holds. -/
  | lockBusy (stripe : Nat)
  /-- A commit found that a stripe it had read has changed since. -/
  | validation (stripe : Nat)
  deriving DecidableEq, Repr

/-- The stripe an abort was met on. -/
def Abort.stripe : Abort → Nat
  | .readConflict i | .lockBusy i | .validation i => i

/-- The text of an abort. -/
def Abort.message : Abort → String
  | .readConflict i => "read of stripe " ++ toString i ++ " observed a locked or newer version"
  | .lockBusy i => "stripe " ++ toString i ++ " is locked by a concurrent commit"
  | .validation i => "read set invalidated at commit (stripe " ++ toString i ++ ")"

end TxnBench
