import TxnBench.Random.Source

/-!
# The keyed source: the ChaCha stream with twelve rounds

A seed of 64 bits is stretched to a key of eight 32-bit words, and the stream of that key is read word by word. A block
of sixteen words is a mixture of four constants, the key, the number of the block and an empty nonce.
-/

namespace TxnBench

/-- A place in the stream of a key. -/
structure Keystream where
  key : Vector UInt32 8
  /-- How many words have been taken. -/
  position : Nat
  /-- The block that holds the next word. -/
  block : Vector UInt32 16

namespace Keystream

/-- A word turned to the left. -/
def turn (x : UInt32) (n : UInt32) : UInt32 :=
  x <<< n ||| x >>> (32 - n)

/-- Mixes four words of a block. -/
def quarter (a b c d : Fin 16) (v : Vector UInt32 16) : Vector UInt32 16 :=
  let v := v.set a (v[a] + v[b])
  let v := v.set d (turn (v[d] ^^^ v[a]) 16)
  let v := v.set c (v[c] + v[d])
  let v := v.set b (turn (v[b] ^^^ v[c]) 12)
  let v := v.set a (v[a] + v[b])
  let v := v.set d (turn (v[d] ^^^ v[a]) 8)
  let v := v.set c (v[c] + v[d])
  v.set b (turn (v[b] ^^^ v[c]) 7)

/-- Two rounds: the columns of the block, then its diagonals. -/
def doubleRound (v : Vector UInt32 16) : Vector UInt32 16 :=
  v |> quarter 0 4 8 12 |> quarter 1 5 9 13 |> quarter 2 6 10 14 |> quarter 3 7 11 15
    |> quarter 0 5 10 15 |> quarter 1 6 11 12 |> quarter 2 7 8 13 |> quarter 3 4 9 14

/-- A block of the stream. -/
def blockAt (key : Vector UInt32 8) (number : UInt64) : Vector UInt32 16 :=
  let start : Vector UInt32 16 := #v[0x61707865, 0x3320646e, 0x79622d32, 0x6b206574,
    key[0], key[1], key[2], key[3], key[4], key[5], key[6], key[7],
    number.toUInt32, (number >>> 32).toUInt32, 0, 0]
  let mixed := Nat.repeat doubleRound 6 start
  Vector.zipWith (· + ·) mixed start

/-- The start of the stream of a key. -/
def ofKey (key : Vector UInt32 8) : Keystream :=
  ⟨key, 0, blockAt key 0⟩

/-- The state of the generator that stretches a seed, advanced once. -/
def stretchStep (state : UInt64) : UInt64 :=
  state * 6364136223846793005 + 11634580027462260723

/-- The word that a stretching state gives out: its upper half folded and turned to the right by its top bits. -/
def stretchWord (state : UInt64) : UInt32 :=
  let folded := (((state >>> 18) ^^^ state) >>> 27).toUInt32
  let places := (state >>> 59).toUInt32
  folded >>> places ||| folded <<< ((32 - places) % 32)

/-- The key that a seed is stretched to. -/
def keyOfSeed (seed : UInt64) : Vector UInt32 8 :=
  Vector.ofFn fun i => stretchWord (Nat.repeat stretchStep (i.val + 1) seed)

/-- The stream of a seed. -/
def ofSeed (seed : UInt64) : Keystream :=
  ofKey (keyOfSeed seed)

/-- The next word, and the place after it. -/
def next (s : Keystream) : UInt32 × Keystream :=
  let word := s.block[s.position % 16]
  let position := s.position + 1
  let block := if position % 16 = 0 then blockAt s.key (UInt64.ofNat (position / 16)) else s.block
  (word, { s with position, block })

/-- The next two words as one, the lower half first. -/
def nextPair (s : Keystream) : UInt64 × Keystream :=
  let (low, s) := s.next
  let (high, s) := s.next
  (high.toUInt64 <<< 32 ||| low.toUInt64, s)

end Keystream

instance : Source Keystream where
  word64 := Keystream.nextPair
  word32 := Keystream.next
  patience := 0x4000000000000000

end TxnBench
