import TxnBench.Fault

/-!
# Room in the address space

A list whose length is known takes room for all its elements before the first of them is there. A list that the address space
could not hold is a fault (`reserve_eq_error_iff`). Of the others the machine refuses the first that it has no memory for beside
those that are there already (`refused`), and then the program ends at once.
-/

namespace TxnBench.Capacity

/-- How many bytes the address space lets one list take. -/
def limit : Nat :=
  0x7fffffffffffffff

/-- Takes room for `count` elements of `size` bytes each. -/
def reserve (count size : Nat) : Except Fault Unit :=
  if count * size ≤ limit then .ok () else .error .capacity

/-- There is room exactly up to the limit. -/
theorem reserve_eq_ok_iff {count size : Nat} : reserve count size = .ok () ↔ count * size ≤ limit := by
  unfold reserve
  split
  · rename_i h
    exact ⟨fun _ => h, fun _ => rfl⟩
  · rename_i h
    exact ⟨fun hr => (nomatch hr), fun hl => absurd hl h⟩

/-- A lack of room is a fault of its own, and the only one. -/
theorem reserve_eq_error_iff {count size : Nat} {f : Fault} :
    reserve count size = .error f ↔ limit < count * size ∧ f = .capacity := by
  unfold reserve
  split
  · rename_i h
    exact ⟨fun hr => (nomatch hr), fun hl => absurd h (Nat.not_le.mpr hl.1)⟩
  · rename_i h
    constructor
    · rintro ⟨⟩
      exact ⟨Nat.not_le.mp h, rfl⟩
    · rintro ⟨_, rfl⟩
      rfl

/-- The bytes of the first list that a machine refuses, of lists that are taken room for one after another and are all kept. Of its
memory `held` bytes are taken already. The machine is not asked for a list past the limit, nor for one after it. -/
def refused (memory held : Nat) : List Nat → Option Nat
  | [] => none
  | bytes :: rest =>
    if limit < bytes then none
    else if memory < held + bytes then some bytes
    else refused memory (held + bytes) rest

/-- A machine refuses nothing exactly if the first list is one it is not asked for, or if it has memory for that list and beside it
for the others. -/
theorem refused_cons_eq_none_iff {memory held bytes : Nat} {rest : List Nat} :
    refused memory held (bytes :: rest) = none ↔
      limit < bytes ∨ (held + bytes ≤ memory ∧ refused memory (held + bytes) rest = none) := by
  rw [refused]
  split
  · rename_i hlimit
    exact iff_of_true rfl (.inl hlimit)
  · rename_i hlimit
    split
    · rename_i hmemory
      simp [hlimit, Nat.not_le.mpr hmemory]
    · rename_i hmemory
      simp [hlimit, Nat.not_lt.mp hmemory]

end TxnBench.Capacity
