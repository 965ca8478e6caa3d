import TxnBench.Collection.Basic

/-!
# Sessions: transactions by name

A session is a collection with any number of open transactions, each under a name. An `Action` is one atomic call, and a
list of actions with the names they are for is a schedule; `perform` carries one out and `performAll` a whole schedule.

A `Step` is an action or one of the two things a single-threaded schedule cannot say: a look at the size, and a commit in
whose middle other steps are carried out, after it is prepared and before it is published. A transaction that is turned
down stays open, and a commit closes its transaction whatever comes of it.
-/

namespace TxnBench

/-- One call of a transaction. -/
inductive Action (K V : Type) where
  | start
  | get (k : K)
  | contains (k : K)
  | put (k : K) (v : V)
  | remove (k : K)
  | commit
  | drop
  deriving DecidableEq, Repr

/-- What an action comes back with. -/
inductive Answer (V : Type) where
  | done
  | value (v : Option V)
  | present (is : Bool)
  | aborted (why : Abort)
  | faulted (f : Fault)
  /-- There is no open transaction of that name. -/
  | unknown
  deriving DecidableEq, Repr

/-- The answer to a call that returns nothing. -/
def Answer.ofUnit {V : Type} : Reply Unit → Answer V
  | .value () => .done
  | .abort why => .aborted why
  | .fault f => .faulted f

/-- The answer to a call that returns the value at a key. -/
def Answer.ofValue {V : Type} : Reply (Option V) → Answer V
  | .value v => .value v
  | .abort why => .aborted why
  | .fault f => .faulted f

/-- The answer to a call that returns whether a key is present. -/
def Answer.ofPresent {V : Type} : Reply Bool → Answer V
  | .value is => .present is
  | .abort why => .aborted why
  | .fault f => .faulted f

/-- A collection with its open transactions; a name stands for the transaction first in the list. -/
structure Session {K V : Type} (C : Collection K V) (Name : Type) where
  state : C.State
  opened : List (Name × C.Txn)

namespace Session

variable {K V : Type} {C : Collection K V} {Name : Type} [DecidableEq Name]

/-- The session in which nothing has happened. -/
def fresh (C : Collection K V) (Name : Type) : Session C Name :=
  ⟨C.empty, []⟩

/-- The open transaction of a name. -/
def txn? (σ : Session C Name) (t : Name) : Option C.Txn :=
  σ.opened.lookup t

/-- The open transactions but one. -/
def others (σ : Session C Name) (t : Name) : List (Name × C.Txn) :=
  σ.opened.filter fun o => o.1 ≠ t

/-- Carries out one call for an open transaction, which stays open. -/
def call {α : Type} (σ : Session C Name) (t : Name) (answer : Reply α → Answer V)
    (f : C.Txn → C.State → Reply α × C.Txn × C.State) : Answer V × Session C Name :=
  match σ.txn? t with
  | none => (.unknown, σ)
  | some x =>
    let (reply, x, state) := f x σ.state
    (answer reply, ⟨state, (t, x) :: σ.others t⟩)

/-- Carries out one action. -/
def perform (σ : Session C Name) (t : Name) : Action K V → Answer V × Session C Name
  | .start =>
    let (x, state) := C.start σ.state
    (.done, ⟨state, (t, x) :: σ.others t⟩)
  | .get k => σ.call t .ofValue fun x s => C.get x s k
  | .contains k => σ.call t .ofPresent fun x s => C.contains x s k
  | .put k v => σ.call t .ofValue fun x s => C.put x s k v
  | .remove k => σ.call t .ofValue fun x s => C.remove x s k
  | .commit =>
    match σ.txn? t with
    | none => (.unknown, σ)
    | some x =>
      let (reply, state) := C.commit x σ.state
      (.ofUnit reply, ⟨state, σ.others t⟩)
  | .drop =>
    match σ.txn? t with
    | none => (.unknown, σ)
    | some x => (.done, ⟨C.drop x σ.state, σ.others t⟩)

/-- Carries out a schedule. -/
def performAll (σ : Session C Name) : List (Name × Action K V) → List (Answer V) × Session C Name
  | [] => ([], σ)
  | (t, a) :: rest =>
    let (answer, σ) := σ.perform t a
    let (answers, σ) := performAll σ rest
    (answer :: answers, σ)

/-- Drops every open transaction. -/
def dropAll (σ : Session C Name) : C.State :=
  σ.opened.foldl (fun s o => C.drop o.2 s) σ.state

end Session

/-- A step of a session. -/
inductive Step (Name K V : Type) where
  /-- One call of a transaction. -/
  | act (t : Name) (a : Action K V)
  /-- How many entries are there? -/
  | size
  /-- Are there no entries? -/
  | isEmpty
  /-- A commit, with the steps that others carry out in its middle. -/
  | commitAround (t : Name) (during : List (Step Name K V))

/-- What a step comes back with. -/
inductive Outcome (V : Type) where
  | answer (a : Answer V)
  | size (n : UInt64)
  | isEmpty (is : Bool)
  /-- The answer to a commit, and the outcomes of the steps in its middle if it got that far. -/
  | commitAround (a : Answer V) (during : Option (List (Outcome V)))

namespace Session

variable {K V : Type} {C : Collection K V} {Name : Type} [DecidableEq Name]

mutual

/-- Carries out one step. -/
def step (σ : Session C Name) : Step Name K V → Outcome V × Session C Name
  | .act t a =>
    let (answer, σ) := σ.perform t a
    (.answer answer, σ)
  | .size => (.size (C.size σ.state), σ)
  | .isEmpty => (.isEmpty (C.size σ.state = 0), σ)
  | .commitAround t during =>
    match σ.txn? t with
    | none => (.commitAround .unknown none, σ)
    | some x =>
      match C.prepare x σ.state with
      | .settled reply state => (.commitAround (.ofUnit reply) none, ⟨state, σ.others t⟩)
      | .ready pending state =>
        let (outcomes, σ) := stepAll ⟨state, σ.others t⟩ during
        (.commitAround .done (some outcomes), { σ with state := C.publish pending σ.state })

/-- Carries out steps in order. -/
def stepAll (σ : Session C Name) : List (Step Name K V) → List (Outcome V) × Session C Name
  | [] => ([], σ)
  | s :: rest =>
    let (outcome, σ) := step σ s
    let (outcomes, σ) := stepAll σ rest
    (outcome :: outcomes, σ)

end

end Session

end TxnBench
