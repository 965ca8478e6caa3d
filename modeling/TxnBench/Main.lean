import TxnBench.Program

/-!
# The executable

The real machine as a host, and the program run on it.
-/

namespace TxnBench

/-- What the operating system refused, in the words used everywhere. -/
def FileError.ofSystem : IO.Error → FileError
  | .noFileOrDirectory _ _ _ => .notFound
  | .alreadyExists _ _ _ => .exists
  | .inappropriateType _ 20 _ => .notDirectory
  | .inappropriateType _ _ _ => .isDirectory
  | .resourceExhausted _ 28 _ => .noSpace
  | .permissionDenied _ _ _ => .system "Permission denied (os error 13)"
  | e => .system (toString e)

/-- Makes a request of the operating system. -/
def ask {α : Type} (request : IO α) : IO (Except FileError α) := do
  match ← request.toBaseIO with
  | .ok a => return .ok a
  | .error e => return .error (.ofSystem e)

/-- The disk of the machine. -/
def systemDisk : Disk IO where
  Handle := IO.FS.Handle
  makeDirectories p := ask (IO.FS.createDirAll p.text)
  openExisting p := ask do
    let _ ← IO.FS.Handle.mk p.text .readWrite
    IO.FS.Handle.mk p.text .append
  openOrCreate p := ask do
    try IO.FS.Handle.mk p.text .readWrite
    catch
      | .noFileOrDirectory _ _ _ => IO.FS.Handle.mk p.text .writeNew
      | e => throw e
  write file text := ask do
    file.putStr text
    file.flush
    return file

/-- A word made of four random bytes. -/
def wordOfBytes (bytes : ByteArray) : UInt32 :=
  bytes.foldl (fun word byte => word <<< 8 ||| byte.toUInt32) 0

/-- The machine. -/
def system : Host IO where
  memory := return usualMemory
  disk := systemDisk
  print := IO.print
  complain := IO.eprint
  timed f := do
    let start ← IO.monoNanosNow
    let value ← IO.lazyPure f
    let passed := (← IO.monoNanosNow) - start
    return (⟨UInt64.ofNat (passed / 1000000000), UInt32.ofNat (passed % 1000000000)⟩, value)
  freshKey := Vector.ofFnM fun _ => do return wordOfBytes (← IO.getRandomBytes 4)

end TxnBench

/-- Runs the program. Where it has no exit status, the one that a shell shows for a program taken down stands in for it. -/
def main (args : List String) : IO UInt32 := do
  return ((← TxnBench.Program.run TxnBench.system args).status.getD 134).toUInt32
