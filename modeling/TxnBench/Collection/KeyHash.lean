
/-!
# Hashing keys

The stripe of a key is the remainder of a 64-bit hash of its bytes. The hash is SipHash with one round for each word of
input and three at the end, under the key zero: the bytes are taken eight at a time as little-endian words, and the last
word holds the bytes left over and, on top, the number of bytes.
-/

namespace TxnBench

/-- Keys that can be hashed. -/
class ByteKey (K : Type) where
  /-- The bytes that stand for a key; different keys of a type have different bytes. -/
  bytes : K → List UInt8

/-- The bytes of a number, lowest first. -/
def littleEndian : Nat → Nat → List UInt8
  | 0, _ => []
  | n + 1, x => UInt8.ofNat x :: littleEndian n (x / 256)

instance : ByteKey UInt64 where
  bytes k := littleEndian 8 k.toNat

instance : ByteKey Int32 where
  bytes k := littleEndian 4 k.toUInt32.toNat

/-- A text ends with a byte that is part of no text. -/
instance : ByteKey String where
  bytes k := k.toUTF8.toList ++ [0xff]

namespace KeyHash

/-- The number that bytes stand for, lowest first. -/
def fromLittleEndian : List UInt8 → UInt64
  | [] => 0
  | b :: rest => fromLittleEndian rest <<< 8 ||| b.toUInt64

/-- The words that bytes are hashed as, the last one of `length` bytes in all. -/
def words (length : Nat) : List UInt8 → List UInt64
  | a :: b :: c :: d :: e :: f :: g :: h :: rest => fromLittleEndian [a, b, c, d, e, f, g, h] :: words length rest
  | rest => [UInt64.ofNat length <<< 56 ||| fromLittleEndian rest]

/-- The four words of the hash in progress. -/
structure State where
  a : UInt64
  b : UInt64
  c : UInt64
  d : UInt64

/-- The state before any input. -/
def State.initial : State :=
  ⟨0x736f6d6570736575, 0x646f72616e646f6d, 0x6c7967656e657261, 0x7465646279746573⟩

/-- A word turned to the left. -/
def turn (x n : UInt64) : UInt64 :=
  x <<< n ||| x >>> (64 - n)

/-- One round of mixing. -/
def State.mix (s : State) : State :=
  let a := s.a + s.b
  let b := turn s.b 13 ^^^ a
  let a := turn a 32
  let c := s.c + s.d
  let d := turn s.d 16 ^^^ c
  let a := a + d
  let d := turn d 21 ^^^ a
  let c := c + b
  let b := turn b 17 ^^^ c
  ⟨a, b, turn c 32, d⟩

/-- Takes in one word. -/
def State.absorb (s : State) (word : UInt64) : State :=
  let mixed := State.mix { s with d := s.d ^^^ word }
  { mixed with a := mixed.a ^^^ word }

/-- The hash of the input taken in. -/
def State.finish (s : State) : UInt64 :=
  let s := State.mix (State.mix (State.mix { s with c := s.c ^^^ 0xff }))
  s.a ^^^ s.b ^^^ s.c ^^^ s.d

/-- The hash of bytes. -/
def ofBytes (bytes : List UInt8) : UInt64 :=
  ((words bytes.length bytes).foldl State.absorb State.initial).finish

end KeyHash

/-- The stripe of a key among `n`. -/
def stripeOf {K : Type} [ByteKey K] (n : Nat) (hn : 0 < n) (k : K) : Fin n :=
  ⟨(KeyHash.ofBytes (ByteKey.bytes k)).toNat % n, Nat.mod_lt _ hn⟩

end TxnBench
