import TxnBench.Files.Tree

/-!
# Disks: what a program asks of a file system

A disk answers requests in a monad. The tree of `TxnBench.Files.Tree` is a disk whose requests change the tree and nothing
else, so what a program does to its files can be computed and reasoned about; the real one is a disk as well.
-/

namespace TxnBench

/-- A file system that is asked in a monad. -/
structure Disk (m : Type → Type) where
  /-- An open file. -/
  Handle : Type
  /-- Makes a directory and all that is missing above it. -/
  makeDirectories : Path → m (Except FileError Unit)
  /-- Opens a file that is there, to append. -/
  openExisting : Path → m (Except FileError Handle)
  /-- Opens a file from its beginning; makes an empty one if it is not there. -/
  openOrCreate : Path → m (Except FileError Handle)
  /-- Writes a text and returns the file as it is open then. -/
  write : Handle → String → m (Except FileError Handle)

/-- The disk that passes its requests on through `lift`. -/
def Disk.through {m n : Type → Type} (d : Disk m) (lift : {α : Type} → m α → n α) : Disk n where
  Handle := d.Handle
  makeDirectories p := lift (d.makeDirectories p)
  openExisting p := lift (d.openExisting p)
  openOrCreate p := lift (d.openOrCreate p)
  write h text := lift (d.write h text)

/-- A request that changes the tree if it is granted. -/
def Tree.request {α : Type} (f : Tree → Except FileError (α × Tree)) : StateM Tree (Except FileError α) :=
  fun t =>
    match f t with
    | .ok (a, t) => (.ok a, t)
    | .error e => (.error e, t)

/-- A tree as a disk. -/
def Tree.disk : Disk (StateM Tree) where
  Handle := TxnBench.Handle
  makeDirectories p := fun t => t.makeDirectories p
  openExisting p := request fun t => (t.openExisting p).map fun h => (h, t)
  openOrCreate p := request fun t => t.openOrCreate p
  write h text := request fun t => t.write h (bytesOf text)

end TxnBench
