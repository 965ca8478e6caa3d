import TxnBench.Bench.Duration
import TxnBench.Files.Disk
import TxnBench.Random.Keystream

/-!
# Hosts: where the program runs

A host gives the program memory, files, a place to print, a clock and keys for sources without a seed. `World` is the host in
which all of these are values, so a run of the program is a function of the world before it; the real machine is a host as well.
-/

namespace TxnBench

/-- What the program asks of its surroundings. -/
structure Host (m : Type → Type) where
  /-- How many bytes there are for the lists that are kept at one time. -/
  memory : m Nat
  disk : Disk m
  print : String → m Unit
  /-- Prints where errors go. -/
  complain : String → m Unit
  /-- Computes a value and says how long it took. -/
  timed : {α : Type} → (Unit → α) → m (Duration × α)
  /-- A key that has not been used before. -/
  freshKey : m (Vector UInt32 8)

/-- How many bytes of memory a machine is taken to have. -/
def usualMemory : Nat :=
  32 * 1024 * 1024 * 1024

/-- A world in which the program runs. -/
structure World where
  memory : Nat := usualMemory
  tree : Tree
  /-- What has been printed. -/
  out : String := ""
  /-- What has been printed where errors go. -/
  err : String := ""
  /-- What the clock is going to say; after that it says zero. -/
  times : List Duration := []
  /-- The keys that are going to be given out; after that they are zero. -/
  keys : List (Vector UInt32 8) := []

namespace World

/-- Does something with the files of the world. -/
def onTree {α : Type} (f : StateM Tree α) : StateM World α :=
  fun w =>
    let (a, tree) := f w.tree
    (a, { w with tree })

/-- The world as a host. -/
def host : Host (StateM World) where
  memory := World.memory <$> get
  disk := Tree.disk.through onTree
  print text := modify fun w => { w with out := w.out ++ text }
  complain text := modify fun w => { w with err := w.err ++ text }
  timed f := modifyGet fun w => ((w.times.headD ⟨0, 0⟩, f ()), { w with times := w.times.tail })
  freshKey := modifyGet fun w => (w.keys.headD (Vector.replicate 8 0), { w with keys := w.keys.tail })

end World

end TxnBench
