
/-!
# Shortest decimals

A time or a rate is written with the fewest digits that read back as the same 64-bit floating-point number, always
positionally: no exponent, and no point after a whole number.

A finite number is taken apart into `mantissa * 2 ^ exponent`. The reals that round to it form an interval from halfway to
the number below to halfway to the number above, whose ends belong to it when the mantissa is even (`Binary.reads`). For
one digit, two digits and so on the two neighbours of the number on that decimal grid are tried (`Binary.onGrid`); the
first grid with a hit gives the digits, of two hits the nearer one, and of two equally near the upper.
-/

namespace TxnBench.Decimal

/-- A positive binary fraction `mantissa * 2 ^ exponent`. -/
structure Binary where
  mantissa : Nat
  exponent : Int
  /-- Whether the gap to the number below is half the gap to the number above. -/
  narrowBelow : Bool
  deriving DecidableEq, Repr

/-- The magnitude held in the lower 63 bits of a finite number. -/
def Binary.ofBits (bits : UInt64) : Binary :=
  let fraction := bits.toNat % 0x10000000000000
  let scale := (bits.toNat >>> 52) % 0x800
  if scale = 0 then ⟨fraction, -1074, false⟩
  else ⟨fraction + 0x10000000000000, Int.ofNat scale - 1075, fraction = 0 ∧ 1 < scale⟩

/-- How `d * 10 ^ g` compares with `n * 2 ^ e`. -/
def compareScaled (d : Nat) (g : Int) (n : Nat) (e : Int) : Ordering :=
  compare (d * Nat.pow 10 g.toNat * Nat.pow 2 (-e).toNat) (n * Nat.pow 2 e.toNat * Nat.pow 10 (-g).toNat)

/-- Whether the decimal `d * 10 ^ g` rounds to `b`. -/
def Binary.reads (b : Binary) (d : Nat) (g : Int) : Bool :=
  let low := compareScaled d g (4 * b.mantissa - if b.narrowBelow then 1 else 2) (b.exponent - 2)
  let high := compareScaled d g (4 * b.mantissa + 2) (b.exponent - 2)
  if b.mantissa % 2 = 0 then low.isGE && high.isLE else low.isGT && high.isLT

/-- The multiple of `10 ^ g` at or just below `b`, counted in units of `10 ^ g`. -/
def Binary.below (b : Binary) (g : Int) : Nat :=
  b.mantissa * Nat.pow 2 b.exponent.toNat * Nat.pow 10 (-g).toNat / (Nat.pow 2 (-b.exponent).toNat * Nat.pow 10 g.toNat)

/-- The neighbour of `b` on the grid of `10 ^ g` that rounds to `b`, if there is one: of two the nearer, of two equally
near the upper. -/
def Binary.onGrid (b : Binary) (g : Int) : Option Nat :=
  let d := b.below g
  match b.reads d g, b.reads (d + 1) g with
  | true, true =>
    match compareScaled (2 * d + 1) g (2 * b.mantissa) b.exponent with
    | .gt => some d
    | _ => some (d + 1)
  | true, false => some d
  | false, true => some (d + 1)
  | false, false => none

/-- The number of decimal digits of a natural number. -/
def width (n : Nat) : Nat :=
  (Nat.toDigits 10 n).length

/-- The least `k` with `b < 10 ^ k`, which is the number of digits before the point where there are any. -/
def Binary.scale (b : Binary) : Int :=
  let bound := if 0 ≤ b.exponent then Int.ofNat (width (b.mantissa * Nat.pow 2 b.exponent.toNat))
    else Int.ofNat (width b.mantissa) - Int.ofNat (width (Nat.pow 2 (-b.exponent).toNat)) + 1
  ([bound - 2, bound - 1].find? fun k => (compareScaled 1 k b.mantissa b.exponent).isGT).getD bound

/-- The digits of `b` as a whole number and the power of ten they count: the first of the grids from `10 ^ g` downwards
that has a hit, and without one the exact value. -/
def Binary.digits (b : Binary) : Nat → Int → Nat × Int
  | 0, _ => (b.mantissa * Nat.pow 2 b.exponent.toNat * Nat.pow 5 (-b.exponent).toNat, if 0 ≤ b.exponent then 0 else b.exponent)
  | n + 1, g =>
    match b.onGrid g with
    | some d => (d, g)
    | none => b.digits n (g - 1)

/-- Writes `d * 10 ^ g` positionally. -/
def positional (d : Nat) (g : Int) : List Char :=
  let digits := Nat.toDigits 10 d
  if 0 ≤ g then digits ++ List.replicate g.toNat '0'
  else
    let places := (-g).toNat
    let padded := List.replicate (places + 1 - digits.length) '0' ++ digits
    let (whole, rest) := padded.splitAt (padded.length - places)
    match (rest.reverse.dropWhile (· = '0')).reverse with
    | [] => whole
    | fraction => whole ++ '.' :: fraction

/-- The shortest text of a floating-point number. -/
def text (x : Float) : String :=
  let bits := x.toBits
  let sign := if bits.toNat < 0x8000000000000000 then [] else ['-']
  let magnitude := bits.toNat % 0x8000000000000000
  String.ofList <|
    if magnitude = 0 then sign ++ ['0']
    else if 0x7FF0000000000000 < magnitude then ['N', 'a', 'N']
    else if magnitude = 0x7FF0000000000000 then sign ++ ['i', 'n', 'f']
    else
      let b := Binary.ofBits bits
      let (d, g) := b.digits 17 (b.scale - 1)
      sign ++ positional d g

end TxnBench.Decimal
