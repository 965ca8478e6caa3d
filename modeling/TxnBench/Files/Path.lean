import TxnBench.Text.Cut

/-!
# Paths

A path is cut at its slashes. Its pieces are kept as they are written, the empty ones as well, since the length of a path
counts them (`text_ofText`); but only the others are names. A slash in front starts from the root, and one at the end says
that a directory is meant.
-/

namespace TxnBench

/-- A path, as it is written: what stands between its slashes. -/
structure Path where
  pieces : List String
  deriving DecidableEq, Repr

namespace Path

/-- Reads a path. -/
def ofText (text : String) : Path :=
  ⟨(Text.cut '/' text.toList).map String.ofList⟩

/-- The written form. -/
def text (p : Path) : String :=
  "/".intercalate p.pieces

/-- The written form of a path that has been read is what was read. -/
theorem text_ofText (s : String) : (ofText s).text = s := by
  apply String.toList_injective
  have h : (String.toList ∘ String.ofList) = id := funext fun _ => String.toList_ofList
  rw [text, ofText, String.toList_intercalate, List.map_map, h, List.map_id]
  exact Text.intercalate_cut '/' s.toList

/-- Whether a path starts from the root. -/
def absolute (p : Path) : Bool :=
  match p.pieces with
  | "" :: _ :: _ => true
  | _ => false

/-- The names, the outermost first. -/
def names (p : Path) : List String :=
  p.pieces.filter (· ≠ "")

/-- Whether a slash follows the last name. -/
def trailing (p : Path) : Bool :=
  p.pieces.getLast? = some ""

/-- Whether a path names nothing. -/
def isEmpty (p : Path) : Bool :=
  !p.absolute && p.names.isEmpty

/-- Whether a piece leads nowhere. -/
def isSilent (piece : String) : Bool :=
  piece = "" ∨ piece = "."

/-- The paths that end with a piece that leads somewhere, the innermost first. All begin with `start`, and the pieces after
it are given in reverse. -/
def stems (start : List String) : List String → List Path
  | [] => []
  | piece :: outer =>
    if isSilent piece then stems start outer else ⟨start ++ (piece :: outer).reverse⟩ :: stems start outer

/-- The directories above what a path names, the innermost first. The last one is where the path starts from, if that is
written: the root or a dot. -/
def above (p : Path) : List Path :=
  let (start, origin, body) : List String × List Path × List String :=
    match p.pieces with
    | "" :: body => ([""], [⟨["", ""]⟩], body)
    | "." :: body => (["."], [⟨["."]⟩], body)
    | body => ([], [], body)
  match stems start body.reverse with
  | [] => []
  | _ :: outer => outer ++ origin

/-- The directory in which a path has its last name, if the path says so. -/
def parent? (p : Path) : Option Path :=
  p.above.head?

end Path

end TxnBench
