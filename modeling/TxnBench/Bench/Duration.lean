/-!
# Durations

A duration is a number of seconds and a number of nanoseconds below one second. As a floating-point number of seconds it
is the sum of both parts, each rounded by itself.
-/

namespace TxnBench

/-- A span of time. -/
structure Duration where
  secs : UInt64
  /-- Fewer than a thousand million. -/
  nanos : UInt32
  deriving DecidableEq, Repr

/-- The seconds in a duration. -/
def Duration.seconds (d : Duration) : Float :=
  d.secs.toFloat + d.nanos.toUInt64.toFloat / 1000000000

end TxnBench
