import Std.Data.ExtTreeMap

/-!
# Contents: the entries of a collection

The entries are a finite map, and two maps with the same entries are equal. A write puts a value at a key or takes the key
away.
-/

namespace TxnBench

/-- The entries of a collection. -/
abbrev Contents (K V : Type) [Ord K] : Type :=
  Std.ExtTreeMap K V compare

namespace Contents

variable {K V : Type} [Ord K] [Std.TransOrd K]

/-- Gives a key the value written, or takes it away. -/
def write (m : Contents K V) (k : K) : Option V → Contents K V
  | some v => m.insert k v
  | none => m.erase k

/-- Carries out writes in order. -/
def writeAll (m : Contents K V) (writes : List (K × Option V)) : Contents K V :=
  writes.foldl (fun m w => m.write w.1 w.2) m

/-- A key at which there is something is in the map. -/
theorem mem_of_getElem? {m : Contents K V} {k : K} {v : V} (h : m[k]? = some v) : k ∈ m :=
  Std.ExtTreeMap.mem_iff_isSome_getElem?.mpr (Option.isSome_of_eq_some h)

variable [Std.LawfulEqOrd K] [DecidableEq K]

/-- What a write leaves at a key. -/
theorem getElem?_write (m : Contents K V) (k k' : K) (v : Option V) :
    (m.write k v)[k']? = if k = k' then v else m[k']? := by
  have hk : compare k k' = .eq ↔ k = k' := Std.compare_eq_iff_eq
  cases v with
  | none =>
    simp only [write, Std.ExtTreeMap.getElem?_erase]
    split <;> simp_all
  | some v =>
    simp only [write, Std.ExtTreeMap.getElem?_insert]
    split <;> simp_all

end Contents

end TxnBench
