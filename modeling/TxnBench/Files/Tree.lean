import Std.Data.ExtTreeMap
import TxnBench.Files.Error
import TxnBench.Files.Path

/-!
# A file system

A tree of directories with files in it. A path is followed from the working directory, or from the root: every name on the
way must be a directory, and what the last name may be is for each request to say. Besides regular files there are the two
devices that take output, one that forgets it and one that has no room for any.

A file is opened in one of two ways. A handle opened to append writes at the end of the file, wherever that is by then; a
handle opened to create keeps a place of its own in the file, which starts at its beginning and moves with each write. What
is written past the end is preceded by null bytes.
-/

namespace TxnBench

/-- A place in the tree: the names that lead to it, the innermost first. The root has none. -/
abbrev Place : Type :=
  List String

/-- What is at a place. -/
inductive Node where
  | directory
  | regular (content : List UInt8)
  /-- The device that forgets what it is given. -/
  | sink
  /-- The device that has no room. -/
  | fullDevice
  deriving DecidableEq, Repr

/-- The bytes of a text. -/
def bytesOf (text : String) : List UInt8 :=
  text.toUTF8.toList

/-- A file system with a working directory. -/
structure Tree where
  /-- What is below the root. -/
  nodes : Std.ExtTreeMap Place Node compare
  working : Place

/-- An open file: where it is, and its place in the file unless it was opened to append. -/
structure Handle where
  place : Place
  offset : Option Nat
  deriving DecidableEq, Repr

/-- What a path leads to: a directory, or a name in one. -/
inductive Target where
  | directory (place : Place)
  | entry (parent : Place) (name : String)
  deriving DecidableEq, Repr

namespace Tree

/-- An empty working directory, beside the devices. -/
def initial : Tree :=
  { nodes := Std.ExtTreeMap.ofList [(["dev"], .directory), (["null", "dev"], .sink), (["full", "dev"], .fullDevice),
      (["tmp"], .directory), (["work", "tmp"], .directory)] compare
    working := ["work", "tmp"] }

/-- The most bytes a name may have. -/
def nameLimit : Nat :=
  255

/-- The most bytes a path may have. -/
def pathLimit : Nat :=
  4095

/-- What is under a name in a directory. -/
def look (t : Tree) (parent : Place) (name : String) : Except FileError (Option Node) :=
  if nameLimit < name.utf8ByteSize then .error .nameTooLong else .ok t.nodes[name :: parent]?

/-- Follows names that must all be directories. -/
def follow (t : Tree) (place : Place) : List String → Except FileError Place
  | [] => .ok place
  | "." :: rest => follow t place rest
  | ".." :: rest => follow t place.tail rest
  | name :: rest =>
    match t.look place name with
    | .error e => .error e
    | .ok none => .error .notFound
    | .ok (some .directory) => follow t (name :: place) rest
    | .ok (some _) => .error .notDirectory

/-- Follows a path up to its last name. -/
def locate (t : Tree) (p : Path) : Except FileError Target :=
  if p.names.any fun name => '\x00' ∈ name.toList then .error .nulByte
  else if p.isEmpty then .error .notFound
  else if pathLimit < p.text.utf8ByteSize then .error .nameTooLong
  else
    let origin := if p.absolute then [] else t.working
    match p.names.reverse with
    | [] => .ok (.directory origin)
    | last :: outer => do
      let parent ← t.follow origin outer.reverse
      if last = "." then return .directory parent
      else if last = ".." then return .directory parent.tail
      else return .entry parent last

/-- Whether a path leads to a directory. -/
def isDirectory (t : Tree) (p : Path) : Bool :=
  match t.locate p with
  | .ok (.directory _) => true
  | .ok (.entry parent name) =>
    match t.look parent name with
    | .ok (some .directory) => true
    | _ => false
  | .error _ => false

/-- Puts something at a place. -/
def set (t : Tree) (place : Place) (node : Node) : Tree :=
  { t with nodes := t.nodes.insert place node }

/-- Makes a directory in a directory that is there. -/
def makeDirectory (t : Tree) (p : Path) : Except FileError Tree := do
  match ← t.locate p with
  | .directory _ => throw .exists
  | .entry parent name =>
    match ← t.look parent name with
    | some _ => throw .exists
    | none => return t.set (name :: parent) .directory

/-- Makes the first of some directories. Those after it are above it, and are made as far as they are missing. -/
def makeAll : List Path → Tree → Except FileError Unit × Tree
  | [], t => (.ok (), t)
  | p :: above, t =>
    match t.makeDirectory p with
    | .ok t => (.ok (), t)
    | .error .notFound =>
      match makeAll above t with
      | (.error e, t) => (.error e, t)
      | (.ok (), t) =>
        match t.makeDirectory p with
        | .ok t => (.ok (), t)
        | .error e => (if t.isDirectory p then .ok () else .error e, t)
    | .error e => (if t.isDirectory p then .ok () else .error e, t)

/-- Makes a directory and all that is missing above it. -/
def makeDirectories (t : Tree) (p : Path) : Except FileError Unit × Tree :=
  if p.isEmpty then (.ok (), t) else makeAll (p :: p.above) t

/-- Opens a file that is there, to append. -/
def openExisting (t : Tree) (p : Path) : Except FileError Handle := do
  match ← t.locate p with
  | .directory _ => throw .isDirectory
  | .entry parent name =>
    match ← t.look parent name with
    | none => throw .notFound
    | some .directory => throw .isDirectory
    | some _ => if p.trailing then throw .notDirectory else return ⟨name :: parent, none⟩

/-- Opens a file from its beginning; makes an empty one if it is not there. -/
def openOrCreate (t : Tree) (p : Path) : Except FileError (Handle × Tree) := do
  match ← t.locate p with
  | .directory _ => throw .isDirectory
  | .entry parent name =>
    if p.trailing then throw .isDirectory
    let handle : Handle := ⟨name :: parent, some 0⟩
    match ← t.look parent name with
    | none => return (handle, t.set (name :: parent) (.regular []))
    | some .directory => throw .isDirectory
    | some _ => return (handle, t)

/-- The content of a file with bytes written over it from an offset on. -/
def overwrite (content : List UInt8) (offset : Nat) (bytes : List UInt8) : List UInt8 :=
  content.take offset ++ List.replicate (offset - content.length) 0 ++ bytes ++ content.drop (offset + bytes.length)

/-- Writes bytes through a handle; to write no bytes is to do nothing. -/
def write (t : Tree) (h : Handle) (bytes : List UInt8) : Except FileError (Handle × Tree) :=
  if bytes.isEmpty then .ok (h, t)
  else
    match t.nodes[h.place]? with
    | some (.regular content) =>
      match h.offset with
      | none => .ok (h, t.set h.place (.regular (content ++ bytes)))
      | some offset =>
        .ok ({ h with offset := some (offset + bytes.length) },
          t.set h.place (.regular (overwrite content offset bytes)))
    | some .sink => .ok (h, t)
    | some .fullDevice => .error .noSpace
    | some .directory | none => .error .notFound

/-- Gives a file a new content, and makes the file if it is not there. -/
def save (t : Tree) (p : Path) (bytes : List UInt8) : Except FileError Tree := do
  let (handle, t) ← t.openOrCreate p
  match t.nodes[handle.place]? with
  | some (.regular _) => return t.set handle.place (.regular bytes)
  | _ => Prod.snd <$> t.write handle bytes

/-- The content of a file. -/
def content? (t : Tree) (p : Path) : Option (List UInt8) :=
  match t.openExisting p with
  | .error _ => none
  | .ok handle =>
    match t.nodes[handle.place]? with
    | some (.regular content) => some content
    | some .sink => some []
    | _ => none

/-- The text of a file, if it is one. -/
def text? (t : Tree) (p : Path) : Option String := do
  String.fromUTF8? ⟨(← t.content? p).toArray⟩

end Tree

end TxnBench
