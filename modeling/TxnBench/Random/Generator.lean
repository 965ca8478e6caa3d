import TxnBench.Random.Keystream

/-!
# The sources a benchmark can be given

Besides the keyed stream there is a source that counts in fixed steps. It is no random source at all, and is there to make
draws foreseeable.
-/

namespace TxnBench

/-- A source that hands out its value and then adds its step. -/
structure Stepping where
  value : UInt64
  step : UInt64

/-- The next word, and the source after it. -/
def Stepping.next (s : Stepping) : UInt64 × Stepping :=
  (s.value, { s with value := s.value + s.step })

instance : Source Stepping where
  word64 := Stepping.next
  word32 s := (s.next.1.toUInt32, s.next.2)
  patience := 0x4000000000000000

/-- A source that a benchmark is started with. -/
inductive Generator where
  | keyed (stream : Keystream)
  | stepping (counter : Stepping)

instance : Source Generator where
  word64
    | .keyed s => let (word, s) := s.nextPair; (word, .keyed s)
    | .stepping s => let (word, s) := s.next; (word, .stepping s)
  word32
    | .keyed s => let (word, s) := s.next; (word, .keyed s)
    | .stepping s => let (word, s) := s.next; (word.toUInt32, .stepping s)
  patience := 0x4000000000000000

end TxnBench
