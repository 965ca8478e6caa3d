import TxnBench.Bench.Run
import TxnBench.Collection.Locked
import TxnBench.Collection.Striped

/-!
# Configurations

What a user asks for: a collection, the parameters of a run, how often to repeat it, and a seed. `Config.make` turns down
what no benchmark could run with.
-/

namespace TxnBench

/-- The collections that can be benchmarked. -/
inductive CollectionKind where
  | striped | locked
  deriving DecidableEq, Repr

namespace CollectionKind

/-- The name of a collection. -/
def name : CollectionKind → String
  | .striped => "tl2"
  | .locked => "locked"

/-- All collections. -/
def all : List CollectionKind :=
  [.striped, .locked]

/-- The collection of a kind, in its default form. -/
def collection : CollectionKind → Collection UInt64 UInt64
  | .striped => Striped.hashed UInt64 UInt64 Striped.defaultCount
  | .locked => Locked.collection UInt64 UInt64

end CollectionKind

/-- Why a configuration is turned down. -/
inductive ConfigError where
  | noThreads
  | percentOverflow (inserts removes : UInt8)
  deriving DecidableEq, Repr

/-- The text of a configuration turned down. -/
def ConfigError.message : ConfigError → String
  | .noThreads => "the number of threads must be greater than zero"
  | .percentOverflow inserts removes =>
    "inserts (" ++ toString inserts.toNat ++ "%) and removes (" ++ toString removes.toNat ++ "%) exceed 100% together"

/-- What a user asks for. -/
structure Config where
  collection : CollectionKind
  params : Params
  /-- How many runs there are. -/
  runs : UInt64
  /-- The seed of the first run. -/
  seed : Option UInt64
  deriving DecidableEq, Repr

namespace Config

/-- The configuration asked for, if it can be run; there is at least one run. -/
def make (collection : CollectionKind) (params : Params) (runs : UInt64) (seed : Option UInt64) :
    Except ConfigError Config :=
  if params.threads = 0 then .error .noThreads
  else if 100 < params.inserts.toNat + params.removes.toNat then
    .error (.percentOverflow params.inserts params.removes)
  else .ok { collection, params, runs := max runs 1, seed }

/-- The seed of a run, if the runs are seeded. After the last seed comes the first. -/
def seedOf (c : Config) (run : UInt64) : Option UInt64 :=
  c.seed.map (· + run)

/-- How many bytes the reports of all runs take in a list. -/
def reportBytes (c : Config) : Nat :=
  c.runs.toNat * Report.bytes

/-- The percent of the tasks that are lookups. -/
def lookups (c : Config) : Except Fault UInt64 := do
  Word.minus (← Word.minus 100 c.params.inserts.toUInt64) c.params.removes.toUInt64

/-- The printed form, which exists only if the shares leave something for lookups. -/
def text (c : Config) : Except Fault String := do
  let lookups ← c.lookups
  return c.collection.name ++ ": " ++ toString c.params.threads.toNat ++ " threads, "
    ++ toString c.params.tasks.toNat ++ " tasks, " ++ toString c.params.perTxn.toNat ++ " per tx, i"
    ++ toString c.params.inserts.toNat ++ " r" ++ toString c.params.removes.toNat ++ " c" ++ toString lookups.toNat

end Config

end TxnBench
