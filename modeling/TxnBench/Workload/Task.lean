import TxnBench.Random.KeyRange

/-!
# Tasks: what workers are given to do
-/

namespace TxnBench

/-- The kinds of tasks. -/
inductive TaskKind where
  | insert | remove | contains
  deriving DecidableEq, Repr

/-- The name a kind is printed under. -/
def TaskKind.name : TaskKind → String
  | .insert => "INSERT"
  | .remove => "REMOVE"
  | .contains => "CONTAINS"

/-- One operation on a collection. Only an insertion makes use of the value. -/
structure Task where
  kind : TaskKind
  key : UInt64
  value : UInt64
  deriving DecidableEq, Repr

namespace Task

/-- How many bytes a task takes in a list. -/
def bytes : Nat :=
  24

/-- The printed form of a task. -/
def text (t : Task) : String :=
  t.kind.name ++ " " ++ toString t.key.toNat ++ " " ++ toString t.value.toNat

variable {G : Type} [Source G]

/-- Draws a task of a kind: its key and, for an insertion, its value. -/
def draw (kind : TaskKind) (range : KeyRange) (g : G) : Option (Task × G) := do
  let (key, g) ← range.draw g
  match kind with
  | .insert =>
    let (value, g) := Source.word64 g
    return (⟨.insert, key, value⟩, g)
  | _ => return (⟨kind, key, 0⟩, g)

/-- Draws a task of each kind in turn. -/
def drawAll (range : KeyRange) : List TaskKind → G → Option (List Task × G)
  | [], g => some ([], g)
  | kind :: kinds, g => do
    let (task, g) ← draw kind range g
    let (tasks, g) ← drawAll range kinds g
    return (task :: tasks, g)

end Task

end TxnBench
