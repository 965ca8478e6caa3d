import TxnBench.Config
import TxnBench.Files.Disk

/-!
# Record files

Each run adds one line to a record file: thirteen fields divided by commas. A file that is made for the purpose begins with
a line that names the fields; a file that was there before is taken as it is, even if it is empty.
-/

namespace TxnBench

namespace Records

/-- The names of the fields. -/
def header : List String :=
  ["ds", "threads", "tasks", "ops_per_tx", "inserts", "removes", "run", "succeeded", "failed", "aborted_txns",
    "expected_size", "actual_size", "runtime_sec"]

/-- The fields of a run. -/
def fields (c : Config) (run : UInt64) (r : Report) : List String :=
  [c.collection.name, toString c.params.threads.toNat, toString c.params.tasks.toNat, toString c.params.perTxn.toNat,
    toString c.params.inserts.toNat, toString c.params.removes.toNat, toString run.toNat,
    toString r.total.succeeded.toNat, toString r.total.failed.toNat, toString r.total.aborted.toNat,
    toString r.expected, toString r.actual.toNat, Decimal.text r.elapsed.seconds]

/-- The line of some fields. No field has a comma or a line break in it, so none needs quotes. -/
def line (fields : List String) : String :=
  ",".intercalate fields ++ "\n"

/-- How many bytes are kept back before a line has to be written in parts. -/
def room : Nat :=
  8192

/-- An open record file, with the text it has not taken yet. -/
structure Writer (H : Type) where
  handle : H
  pending : String

variable {m : Type → Type} [Monad m] (d : Disk m)

/-- Adds a line. Text that the file does not take is kept for the next time; when it is more than there is room for, the
failure comes before the line is complete. -/
def Writer.add (w : Writer d.Handle) (text : String) : m (Except BenchError Unit × Writer d.Handle) := do
  let text := w.pending ++ text
  match ← d.write w.handle text with
  | .ok handle => return (.ok (), ⟨handle, ""⟩)
  | .error e => return (.error (if room < text.utf8ByteSize then .record e else .file e), ⟨w.handle, text⟩)

/-- Makes the directories above a file. -/
def makeRoom (path : Path) : m (Except FileError Unit) :=
  match path.parent? with
  | none => return .ok ()
  | some parent => d.makeDirectories parent

/-- Opens a record file, and begins it if it has to be made. -/
def openAt (path : Path) : m (Except BenchError (Writer d.Handle)) := do
  match ← makeRoom d path with
  | .error e => return .error (.file e)
  | .ok () =>
    match ← d.openExisting path with
    | .ok handle => return .ok ⟨handle, ""⟩
    | .error _ =>
      match ← d.openOrCreate path with
      | .error e => return .error (.file e)
      | .ok handle =>
        let (result, w) ← Writer.add d ⟨handle, ""⟩ (line header)
        return result.map fun () => w

/-- Adds the line of a run, if there is a record file. -/
def add (out : Option (Writer d.Handle)) (c : Config) (run : UInt64) (r : Report) :
    m (Except BenchError Unit × Option (Writer d.Handle)) := do
  match out with
  | none => return (.ok (), none)
  | some w =>
    let (result, w) ← w.add d (line (fields c run r))
    return (result, some w)

end Records

end TxnBench
