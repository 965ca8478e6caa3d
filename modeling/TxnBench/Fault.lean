/-!
# Faults: computations that break off

A fault is a broken assumption of the program itself, not an answer to its user: arithmetic that leaves its 64 bits, or a
call whose requirement the caller did not meet. A function that can meet one returns `Except Fault`, and
`Fault.message` is the only place that words them.
-/

namespace TxnBench

/-- The checked operations of machine arithmetic. -/
inductive Arith where
  | add | sub | mul
  deriving DecidableEq, Repr

/-- The verb an overflow is reported with. -/
def Arith.verb : Arith → String
  | .add => "add"
  | .sub => "subtract"
  | .mul => "multiply"

/-- Why a computation broke off. -/
inductive Fault where
  /-- A result does not fit in its machine word. -/
  | overflow (op : Arith)
  /-- The shares of inserts and removes are more than everything. -/
  | shareSum
  /-- A share was asked for of a worker that does not exist. -/
  | noSuchWorker
  /-- Keys were to be drawn from a range whose low end is above its high end. -/
  | emptyRange
  /-- Work was to be given to no worker at all. -/
  | noWorkers
  /-- A worker came to the end of its tasks with a transaction open. -/
  | unfinished
  /-- A worker came to the end of its tasks and had not counted each of them. -/
  | miscounted (counted assigned : Nat)
  /-- A list is longer than the address space. -/
  | capacity
  /-- The collection under test was told to break here. -/
  | injected
  deriving DecidableEq, Repr

/-- The text of a fault. -/
def Fault.message : Fault → String
  | .overflow op => "attempt to " ++ op.verb ++ " with overflow"
  | .shareSum => "assertion failed: pct_inserts as u32 + pct_removes as u32 <= 100"
  | .noSuchWorker => "assertion failed: threads > 0 && i < threads"
  | .emptyRange => "Uniform::new_inclusive called with `low > high`"
  | .noWorkers => "The number of threads must be greater than zero!"
  | .unfinished => "assertion failed: open.is_none()"
  | .miscounted counted assigned =>
    "assertion `left == right` failed\n  left: " ++ toString counted ++ "\n right: " ++ toString assigned
  | .capacity => "capacity overflow"
  | .injected => "injected panic"

/-- A computation that returns has returned at every step. -/
theorem bind_eq_ok_iff {ε α β : Type} {x : Except ε α} {f : α → Except ε β} {b : β} :
    x >>= f = .ok b ↔ ∃ a, x = .ok a ∧ f a = .ok b := by
  cases x with
  | error e =>
    constructor
    · nofun
    · rintro ⟨a, ha, -⟩
      cases ha
  | ok a =>
    constructor
    · exact fun h => ⟨a, rfl, h⟩
    · rintro ⟨a', ha, h⟩
      cases ha
      exact h

/-- A computation that breaks off has broken off at one of its steps. -/
theorem bind_eq_error_iff {ε α β : Type} {x : Except ε α} {f : α → Except ε β} {e : ε} :
    x >>= f = .error e ↔ x = .error e ∨ ∃ a, x = .ok a ∧ f a = .error e := by
  cases x with
  | error e' =>
    constructor
    · intro h
      cases h
      exact Or.inl rfl
    · rintro (h | ⟨a, ha, -⟩)
      · cases h
        rfl
      · cases ha
  | ok a =>
    constructor
    · exact fun h => Or.inr ⟨a, rfl, h⟩
    · rintro (h | ⟨a', ha, h⟩)
      · cases h
      · cases ha
        exact h

end TxnBench
