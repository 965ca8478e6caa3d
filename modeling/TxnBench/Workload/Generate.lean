import TxnBench.Capacity
import TxnBench.Random.Shuffle
import TxnBench.Workload.Composition

/-!
# Generating a workload

The tasks of a composition are drawn kind by kind, from one source, and then shuffled with it.
-/

namespace TxnBench

/-- Draws the tasks of a composition in random order; `none` when a draw gives up. The tasks must be countable in one word and
have room in one list, which is checked before anything is drawn. -/
def Composition.generate {G : Type} [Source G] (c : Composition) (range : KeyRange) (g : G) :
    Except Fault (Option (List Task × G)) := do
  Capacity.reserve (← c.total).toNat Task.bytes
  return do
    let (tasks, g) ← Task.drawAll range c.kinds g
    shuffle tasks g

end TxnBench
