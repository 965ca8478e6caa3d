import TxnBench.Capacity
import TxnBench.CommandLine.Parse
import TxnBench.Host
import TxnBench.Random.Generator
import TxnBench.Records

/-!
# The program

The program reads its command line, opens the record file if there is to be one, and runs the benchmark as often as it is
told to. What is wrong with the command line, the configuration or the record file is told before anything is printed, and
in this order. A dry run ends there. The machine takes the program down when it has no memory for one of its long lists.
-/

namespace TxnBench

/-- How the program ends. -/
inductive Ending where
  | success
  /-- A benchmark failed. -/
  | failure
  /-- The command line was not accepted. -/
  | usage
  /-- The program broke off. -/
  | broken
  /-- The system took the program down because there was no memory left for it. -/
  | outOfMemory
  deriving DecidableEq, Repr

/-- The exit status. A program that was taken down has none. -/
def Ending.status : Ending → Option UInt8
  | .success => some 0
  | .failure => some 1
  | .usage => some 2
  | .broken => some 101
  | .outOfMemory => none

/-- Why the program stops before it is through. -/
inductive Stop where
  | halted (why : Halt)
  /-- The machine has no memory for a list of so many bytes. -/
  | outOfMemory (bytes : Nat)
  deriving DecidableEq, Repr

namespace Program

/-- The mean of some floating-point numbers, added up from the first. -/
def mean (xs : List Float) : Float :=
  xs.foldl (· + ·) 0 / (UInt64.ofNat xs.length).toFloat

/-- The lines about several runs. -/
def summary (reports : List Report) : String :=
  "\n".intercalate
    ["", "Average over " ++ toString reports.length ++ " runs: ",
      "avg ops succeed: " ++ Decimal.text (mean (reports.map fun r => r.total.succeeded.toFloat)),
      "avg running time in secs: " ++ Decimal.text (mean (reports.map fun r => r.elapsed.seconds)),
      "runs with size mismatch: " ++ toString (reports.countP fun r => !r.isConsistent), ""]

variable {m : Type → Type} [Monad m] (h : Host m)

/-- The source of a run. -/
def source (c : Config) (run : UInt64) : m Generator :=
  match c.seedOf run with
  | some seed => return .keyed (Keystream.ofSeed seed)
  | none => do return .keyed (Keystream.ofKey (← h.freshKey))

/-- Runs the benchmark once, beside lists of `held` bytes, and takes the time of its workers. The memory it needs is asked for at the
very start, since a run that is refused memory later has shown nothing until then. -/
def measure (held : Nat) (C : Collection UInt64 UInt64) (p : Params) (g : Generator) : m (Except Stop Report) := do
  match Capacity.refused (← h.memory) held p.rooms with
  | some bytes => return .error (.outOfMemory bytes)
  | none =>
    match Bench.prepare C p g with
    | .error e => return .error (.halted e)
    | .ok ready =>
      let (elapsed, executed) ← h.timed fun () => ready.execute p
      return (do return (← (← executed).report elapsed).report : Except Halt Report).mapError .halted

/-- The open record file of a program that has one. -/
abbrev Out : Type :=
  Option (Records.Writer h.disk.Handle)

/-- Makes `left` more runs, the first of them being `run`, and returns the reports. The list that the reports of all runs go to is
kept meanwhile. -/
def repeatRuns (c : Config) : (left : Nat) → (run : UInt64) → Out h → m (Except Stop (List Report))
  | 0, _, _ => return .ok []
  | left + 1, run, out => do
    match ← measure h c.reportBytes c.collection.collection c.params (← source h c run) with
    | .error e => return .error e
    | .ok report =>
      h.print (report.text ++ "\n")
      match ← Records.add h.disk out c run report with
      | (.error e, _) => return .error (.halted (.failed e))
      | (.ok (), out) =>
        match ← repeatRuns c left (run + 1) out with
        | .error e => return .error e
        | .ok reports => return .ok (report :: reports)

/-- Tells why the program stops. -/
def giveUp : Stop → m Ending
  | .halted (.failed e) => do
    h.complain (e.message ++ "\n")
    return .failure
  | .halted (.fault f) => do
    h.complain (f.message ++ "\n")
    return .broken
  | .halted .stalled => do
    h.complain "the random source gives out\n"
    return .broken
  | .outOfMemory bytes => do
    h.complain ("memory allocation of " ++ toString bytes ++ " bytes failed\n")
    return .outOfMemory

/-- Takes room for the reports of all runs of a configuration. -/
def reserveReports (c : Config) : m (Except Stop Unit) := do
  match Capacity.refused (← h.memory) 0 [c.reportBytes] with
  | some bytes => return .error (.outOfMemory bytes)
  | none => return (Capacity.reserve c.runs.toNat Report.bytes).mapError fun f => .halted (.fault f)

/-- Runs the benchmark as often as the configuration says. -/
def runAll (c : Config) (out : Out h) : m Ending := do
  match c.text with
  | .error f => giveUp h (.halted (.fault f))
  | .ok text =>
    h.print (text ++ "\n")
    match ← reserveReports h c with
    | .error e => giveUp h e
    | .ok () =>
      match ← repeatRuns h c c.runs.toNat 0 out with
      | .error e => giveUp h e
      | .ok reports =>
        if 1 < reports.length then h.print (summary reports)
        return .success

/-- Turns a command line down. -/
def turnDown (reason : String) : m Ending := do
  h.complain ("error: " ++ reason ++ "\n")
  return .usage

/-- Opens the record file, if there is to be one. -/
def openOut (output : Option String) : m (Except BenchError (Out h)) := do
  match output with
  | none => return .ok none
  | some name => return (← Records.openAt h.disk (Path.ofText name)).map some

/-- Runs the program on a command line. The text that answers a request for help is left out: the library that reads the command line
makes it. -/
def run (texts : List String) : m Ending := do
  match Request.parse texts with
  | .error e => turnDown h e.message
  | .ok .help => return .success
  | .ok (.run values) =>
    match values.config with
    | .error e => turnDown h e.message
    | .ok c =>
      match ← openOut h values.output with
      | .error e => turnDown h e.message
      | .ok out => if values.dryRun then return .success else runAll h c out

end Program

end TxnBench
