
/-!
# Sources of random words, and bounded draws from them

A source hands out words of 32 and 64 bits and is advanced by each. A number below a bound is drawn by a widening
multiplication: of the product of a random word and the bound, the high word is the number and the low word decides
whether the draw counts. Low words above the `zone` are refused and another word is taken, which is what makes the numbers
equally likely.

A source could be refused forever, so a draw gives up after `Source.patience` refusals: `none` stands for that and for
nothing else.
-/

namespace TxnBench

/-- A source of random words. -/
class Source (G : Type) where
  /-- The next 64-bit word, and the source after it. -/
  word64 : G → UInt64 × G
  /-- The next 32-bit word, and the source after it. -/
  word32 : G → UInt32 × G
  /-- How many words in a row one draw may refuse. -/
  patience : Nat

namespace Source

variable {G : Type}

/-- Draws words of `2 ^ bits` until one counts, at most `tries` of them: the product with `bound` has its low part within
`zone`, and its high part is the number drawn. -/
def drawWith (next : G → Nat × G) (bits bound zone : Nat) : Nat → G → Option (Nat × G)
  | 0, _ => none
  | tries + 1, g =>
    let (word, g) := next g
    if word * bound % (1 <<< bits) ≤ zone then some ((word * bound) >>> bits, g)
    else drawWith next bits bound zone tries g

/-- The zone that refuses as few 64-bit words as an even draw below `bound` allows. -/
def finestZone (bound : Nat) : Nat :=
  UInt64.size - 1 - (UInt64.size - bound) % bound

/-- The zone that is quick to compute: the bound moved to the top of a word of `bits` bits, less one. -/
def quickZone (bits bound : Nat) : Nat :=
  (bound <<< (bits - 1 - bound.log2)) - 1

variable [Source G]

/-- The next 64-bit word as a number. -/
def number64 (g : G) : Nat × G :=
  ((word64 g).1.toNat, (word64 g).2)

/-- The next 32-bit word as a number. -/
def number32 (g : G) : Nat × G :=
  ((word32 g).1.toNat, (word32 g).2)

/-- A number below `bound`, drawn from 64-bit words as evenly as they allow; no word reaches the bound `2 ^ 64`. -/
def drawWide (bound : Nat) (g : G) : Option (Nat × G) :=
  if bound = UInt64.size then some (number64 g) else drawWith number64 64 bound (finestZone bound) (patience G) g

/-- A place among the first `bound`, drawn from 32-bit words where they can hold the bound. -/
def drawIndex (bound : Nat) (g : G) : Option (Nat × G) :=
  if bound < UInt32.size then drawWith number32 32 bound (quickZone 32 bound) (patience G) g
  else drawWith number64 64 bound (quickZone 64 bound) (patience G) g

end Source

end TxnBench
