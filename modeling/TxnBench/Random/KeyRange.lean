import TxnBench.Capacity
import TxnBench.Random.Source

/-!
# Ranges of keys

Keys are drawn evenly from a range that includes both ends. The range of all words is allowed: its keys are the random
words themselves.
-/

namespace TxnBench

/-- The keys from `low` to `high`, ends included. -/
structure KeyRange where
  low : UInt64
  high : UInt64
  low_le_high : low.toNat ≤ high.toNat

namespace KeyRange

/-- The range between two ends, which must be in order. -/
def between (low high : UInt64) : Except Fault KeyRange :=
  if h : low.toNat ≤ high.toNat then .ok ⟨low, high, h⟩ else .error .emptyRange

/-- How many keys a range has. -/
def size (r : KeyRange) : Nat :=
  r.high.toNat - r.low.toNat + 1

/-- Draws a key. -/
def draw {G : Type} [Source G] (r : KeyRange) (g : G) : Option (UInt64 × G) := do
  let (offset, g) ← Source.drawWide r.size g
  return (r.low + UInt64.ofNat offset, g)

/-- Draws several keys in a row. -/
def drawMany {G : Type} [Source G] (r : KeyRange) : Nat → G → Option (List UInt64 × G)
  | 0, g => some ([], g)
  | n + 1, g => do
    let (key, g) ← r.draw g
    let (keys, g) ← r.drawMany n g
    return (key :: keys, g)

/-- Draws a list of keys, for which there must be room; `none` when a draw gives up. A key takes eight bytes. -/
def sample {G : Type} [Source G] (r : KeyRange) (count : UInt64) (g : G) : Except Fault (Option (List UInt64 × G)) := do
  Capacity.reserve count.toNat 8
  return r.drawMany count.toNat g

end KeyRange

end TxnBench
