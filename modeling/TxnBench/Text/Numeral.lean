
/-!
# Reading decimal numerals

A numeral is an optional sign and ASCII digits. It is read from the left with a limit, and reading stops at the first
character that is no digit or that takes the value past the limit, so of two faults in one numeral the leftmost is the
one reported.
-/

namespace TxnBench.Numeral

/-- Why a text is no numeral of the kind wanted. -/
inductive Error where
  | empty | invalidDigit | tooLarge | tooSmall
  deriving DecidableEq, Repr

/-- The text of a rejection. -/
def Error.message : Error → String
  | .empty => "cannot parse integer from empty string"
  | .invalidDigit => "invalid digit found in string"
  | .tooLarge => "number too large to fit in target type"
  | .tooSmall => "number too small to fit in target type"

/-- Reads digits after those that make up `value`, up to `limit`; `past` is the complaint about a larger value. -/
def readDigits (limit : Nat) (past : Error) (value : Nat) : List Char → Except Error Nat
  | [] => .ok value
  | c :: rest =>
    if c.isDigit then
      let next := 10 * value + (c.toNat - '0'.toNat)
      if next ≤ limit then readDigits limit past next rest else .error past
    else .error .invalidDigit

/-- Reads a natural number up to `limit`: one plus sign may lead. -/
def readNat (limit : Nat) : List Char → Except Error Nat
  | [] => .error .empty
  | '+' :: c :: rest => readDigits limit .tooLarge 0 (c :: rest)
  | digits => readDigits limit .tooLarge 0 digits

/-- Reads a 64-bit word. -/
def readWord (text : String) : Except Error UInt64 :=
  UInt64.ofNat <$> readNat (UInt64.size - 1) text.toList

/-- Reads a signed 64-bit word: one sign may lead. -/
def readSigned (text : String) : Except Error Int :=
  match text.toList with
  | '-' :: c :: rest => (fun n => -(n : Int)) <$> readDigits 0x8000000000000000 .tooSmall 0 (c :: rest)
  | chars => (fun n => (n : Int)) <$> readNat 0x7fffffffffffffff chars

end TxnBench.Numeral
