import TxnBench.Random.Source

/-!
# Shuffling

From the last place down to the second, each place swaps its element with that of a place drawn among itself and those
before it.
-/

namespace TxnBench

/-- Settles the places from `n` down to the second. -/
def shuffleFrom {α G : Type} [Source G] : Nat → Array α → G → Option (Array α × G)
  | 0, xs, g => some (xs, g)
  | n + 1, xs, g => do
    let (j, g) ← Source.drawIndex (n + 2) g
    shuffleFrom n (xs.swapIfInBounds (n + 1) j) g

/-- Puts the elements of a list in random order. -/
def shuffle {α G : Type} [Source G] (xs : List α) (g : G) : Option (List α × G) := do
  let (xs, g) ← shuffleFrom (xs.length - 1) xs.toArray g
  return (xs.toList, g)

end TxnBench
