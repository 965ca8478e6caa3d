import TxnBench.Config
import TxnBench.Text.ControlSequence
import TxnBench.Text.Numeral

/-!
# The arguments of the program

Five arguments are told apart by their place, four by a letter, and one is a flag. `Argument.store` reads the text given for
an argument; what is wrong with a command line is a `UsageError`, and `UsageError.message` words it.
-/

namespace TxnBench

/-- What can be given on the command line. -/
inductive Argument where
  | threads | tasks | perTxn | inserts | removes
  | collection | seed | runs | output
  | dryRun
  deriving DecidableEq, Repr

namespace Argument

/-- How an argument is shown. -/
def shown : Argument → String
  | .threads => "<threads>"
  | .tasks => "<tasks>"
  | .perTxn => "<tasks per tx>"
  | .inserts => "<inserts>"
  | .removes => "<removes>"
  | .collection => "-d <data structure>"
  | .seed => "-s <seed>"
  | .runs => "-n <runs>"
  | .output => "-o <output>"
  | .dryRun => "--dry-run"

/-- The arguments told apart by their place, in order. -/
def byPlace : List Argument :=
  [.threads, .tasks, .perTxn, .inserts, .removes]

/-- The argument a letter stands for. -/
def ofLetter? : Char → Option Argument
  | 'd' => some .collection
  | 's' => some .seed
  | 'n' => some .runs
  | 'o' => some .output
  | _ => none

end Argument

/-- What is wrong with a command line. -/
inductive UsageError where
  /-- An argument told by its place is missing. -/
  | missing
  /-- There is no such argument. -/
  | unexpected (text : String)
  /-- A value cannot be read. -/
  | invalid (value : String) (a : Argument) (reason : Option String)
  /-- A value is missing. -/
  | noValue (a : Argument)
  | repeated (a : Argument)
  /-- A flag was given a value. -/
  | unwanted (value : String) (flag : String)
  deriving DecidableEq, Repr

/-- The text of a usage error. What was given is quoted without its control sequences. -/
def UsageError.message : UsageError → String
  | .missing => "the following required arguments were not provided:"
  | .unexpected text => "unexpected argument '" ++ ControlSequence.strip text ++ "' found"
  | .invalid value a reason =>
    "invalid value '" ++ ControlSequence.strip value ++ "' for '" ++ a.shown ++ "'" ++ (reason.map (": " ++ ·)).getD ""
  | .noValue a => "a value is required for '" ++ a.shown ++ "' but none was supplied"
  | .repeated a => "the argument '" ++ a.shown ++ "' cannot be used multiple times"
  | .unwanted value flag =>
    "unexpected value '" ++ ControlSequence.strip value ++ "' for '" ++ flag ++ "' found; no more were expected"

/-- The values given so far. -/
structure Values where
  threads : Option UInt64 := none
  tasks : Option UInt64 := none
  perTxn : Option UInt64 := none
  inserts : Option UInt8 := none
  removes : Option UInt8 := none
  collection : Option CollectionKind := none
  seed : Option UInt64 := none
  runs : Option UInt64 := none
  output : Option String := none
  dryRun : Bool := false
  deriving DecidableEq, Repr

namespace Argument

/-- Whether an argument has been given. -/
def isGiven (v : Values) : Argument → Bool
  | .threads => v.threads.isSome
  | .tasks => v.tasks.isSome
  | .perTxn => v.perTxn.isSome
  | .inserts => v.inserts.isSome
  | .removes => v.removes.isSome
  | .collection => v.collection.isSome
  | .seed => v.seed.isSome
  | .runs => v.runs.isSome
  | .output => v.output.isSome
  | .dryRun => v.dryRun

/-- A text that is no value for an argument, because of a reason. -/
def reject {α : Type} (a : Argument) (text reason : String) : Except UsageError α :=
  .error (.invalid text a (some reason))

/-- Reads a 64-bit word. -/
def readWord (a : Argument) (text : String) : Except UsageError UInt64 :=
  match Numeral.readWord text with
  | .ok n => .ok n
  | .error e => a.reject text e.message

/-- Reads a share in percent. -/
def readPercent (a : Argument) (text : String) : Except UsageError UInt8 :=
  match Numeral.readSigned text with
  | .ok n => if 0 ≤ n ∧ n ≤ 100 then .ok (UInt8.ofNat n.toNat) else a.reject text (toString n ++ " is not in 0..=100")
  | .error e => a.reject text e.message

/-- Reads the number of runs, which is not zero. -/
def readRuns (a : Argument) (text : String) : Except UsageError UInt64 := do
  let n ← a.readWord text
  if n = 0 then a.reject text "0 is not in 1..18446744073709551615" else return n

/-- Reads the name of a collection, in any case. -/
def readCollection (a : Argument) (text : String) : Except UsageError CollectionKind :=
  if text.isEmpty then .error (.noValue a)
  else
    match CollectionKind.all.find? fun kind => text.toList.map Char.toLower = kind.name.toList with
    | some kind => .ok kind
    | none => .error (.invalid text a none)

/-- Reads the text given for an argument and adds it to the values; a flag is given as a text that is of no account. -/
def store (v : Values) (text : String) : Argument → Except UsageError Values
  | .threads => do return { v with threads := some (← readWord .threads text) }
  | .tasks => do return { v with tasks := some (← readWord .tasks text) }
  | .perTxn => do return { v with perTxn := some (← readWord .perTxn text) }
  | .inserts => do return { v with inserts := some (← readPercent .inserts text) }
  | .removes => do return { v with removes := some (← readPercent .removes text) }
  | .collection => do return { v with collection := some (← readCollection .collection text) }
  | .seed => do return { v with seed := some (← readWord .seed text) }
  | .runs => do return { v with runs := some (← readRuns .runs text) }
  | .output => return { v with output := some text }
  | .dryRun => return { v with dryRun := true }

end Argument

end TxnBench
