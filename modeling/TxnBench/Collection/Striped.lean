import Std.Data.ExtTreeSet
import TxnBench.Capacity
import TxnBench.Collection.Basic
import TxnBench.Collection.Contents
import TxnBench.Collection.KeyHash

/-!
# The striped collection

Entries are spread over stripes, each with a version of its own, and transactions run without waiting. A transaction notes
the clock when it begins, reads only what has not changed since, and keeps its writes to itself. To commit, it takes every
stripe it is to write to, ticks the clock, checks that no stripe it has read has changed in the meantime, publishes its
writes, and gives the stripes the time of the clock as their version.

Stripes are taken in ascending order, and those taken are given back with the word they had if the commit is turned down.
The stripe of a key is a parameter: `place` may be any assignment of keys to stripes. Versions and the clock are natural
numbers. A machine packs a version and the lock of its stripe into one word of 64 bits; `packed_words_agree` says that these hold
the same as long as there are fewer commits than `2 ^ 63`.
-/

namespace TxnBench

/-- The word that guards a stripe. -/
structure StripeWord where
  /-- The time of the last commit that wrote to the stripe. -/
  version : Nat
  /-- Whether a commit holds the stripe. -/
  locked : Bool
  deriving DecidableEq, Repr

/-- Whether a stripe is not to be read by a transaction that began at `time`. -/
def StripeWord.isStale (w : StripeWord) (time : Nat) : Bool :=
  w.locked || time < w.version

/-- A part of the entries, and the word that guards it. -/
structure Stripe (K V : Type) [Ord K] where
  word : StripeWord
  entries : Contents K V

/-- The entries in `n` stripes, and the clock. -/
structure Striped (K V : Type) [Ord K] (n : Nat) where
  /-- How many commits have ticked. -/
  clock : Nat
  stripes : Vector (Stripe K V) n

namespace Striped

variable {K V : Type} [Ord K] {n : Nat}

/-- What a transaction has of its own. -/
structure Txn (K V : Type) [Ord K] (n : Nat) where
  /-- The time of the clock when the transaction began. -/
  began : Nat
  /-- The stripes read. -/
  readSet : Std.ExtTreeSet (Fin n) compare
  /-- The writes not yet published; `none` takes a key away. -/
  writeSet : Contents K (Option V)

/-- The stripes a commit has taken, each with the word it had. -/
abbrev Held (n : Nat) : Type :=
  List (Fin n × StripeWord)

/-- What a commit that will succeed has yet to do. -/
structure Pending (K V : Type) (n : Nat) where
  writes : List (K × Option V)
  held : Held n
  /-- The time of the commit. -/
  time : Nat

/-- The word of a stripe. -/
def word (s : Striped K V n) (i : Fin n) : StripeWord :=
  s.stripes[i].word

/-- The entries of a stripe. -/
def entries (s : Striped K V n) (i : Fin n) : Contents K V :=
  s.stripes[i].entries

/-- Sets the word of a stripe. -/
def setWord (s : Striped K V n) (i : Fin n) (w : StripeWord) : Striped K V n :=
  { s with stripes := s.stripes.set i { s.stripes[i] with word := w } }

/-- Gives back the stripes taken, with the words they had. -/
def release (s : Striped K V n) (held : Held n) : Striped K V n :=
  held.foldl (fun s h => s.setWord h.1 h.2) s

/-- Takes stripes in order after those in `held`; stops at one that is locked and names it. -/
def acquire (s : Striped K V n) (held : Held n) : List (Fin n) → Striped K V n × Held n × Option (Fin n)
  | [] => (s, held, none)
  | i :: rest =>
    if (s.word i).locked then (s, held, some i)
    else acquire (s.setWord i { s.word i with locked := true }) (held ++ [(i, s.word i)]) rest

/-- Looks for a stripe among those held, which are in ascending order: as long as there are several, only the half of them is kept
that may hold it. -/
def search (held : Held n) (i : Fin n) : Option StripeWord :=
  match held with
  | [] => none
  | [(j, w)] => if j = i then some w else none
  | a :: b :: rest =>
    let half := (rest.length + 2) / 2
    have hhalf : half < (a :: b :: rest).length := Nat.div_lt_self (Nat.succ_pos _) (by decide)
    if i < (a :: b :: rest)[half].1 then search ((a :: b :: rest).take half) i
    else search ((a :: b :: rest).drop half) i
termination_by held.length
decreasing_by
  all_goals
    simp only [List.length_take, List.length_drop, List.length_cons] at hhalf ⊢
    omega

/-- The word of a stripe as it was before this commit took it. -/
def wordBefore (s : Striped K V n) (held : Held n) (i : Fin n) : StripeWord :=
  (search held i).getD (s.word i)

/-- The first stripe read that a transaction should no longer have read. -/
def invalid (s : Striped K V n) (t : Txn K V n) (held : Held n) : Option (Fin n) :=
  t.readSet.toList.find? fun i => (s.wordBefore held i).isStale t.began

variable [Std.TransOrd K]

/-- The number of entries. -/
def size (s : Striped K V n) : Nat :=
  s.stripes.toList.foldr (fun stripe rest => stripe.entries.size + rest) 0

/-- Stripes without entries, at the start of time. -/
def empty (K V : Type) [Ord K] [Std.TransOrd K] (n : Nat) : Striped K V n :=
  ⟨0, Vector.replicate n ⟨⟨0, false⟩, ∅⟩⟩

/-- Opens a transaction. -/
def start (s : Striped K V n) : Txn K V n :=
  ⟨s.clock, ∅, ∅⟩

variable (place : K → Fin n)

/-- The entry at a key. -/
def find (s : Striped K V n) (k : K) : Option V :=
  s.stripes[place k].entries[k]?

/-- Reads a key: its buffered write if there is one, and else its stripe, unless that is stale. -/
def read (t : Txn K V n) (s : Striped K V n) (k : K) : Reply (Option V) × Txn K V n :=
  match t.writeSet[k]? with
  | some buffered => (.value buffered, t)
  | none =>
    let i := place k
    if (s.word i).isStale t.began then (.abort (.readConflict i), t)
    else (.value s.stripes[i].entries[k]?, { t with readSet := t.readSet.insert i })

/-- Reads a key and buffers a value for it. -/
def put (t : Txn K V n) (s : Striped K V n) (k : K) (v : V) : Reply (Option V) × Txn K V n :=
  match read place t s k with
  | (.value previous, t) => (.value previous, { t with writeSet := t.writeSet.insert k (some v) })
  | other => other

/-- Reads a key and, if it is present, buffers its removal. -/
def remove (t : Txn K V n) (s : Striped K V n) (k : K) : Reply (Option V) × Txn K V n :=
  match read place t s k with
  | (.value (some v), t) => (.value (some v), { t with writeSet := t.writeSet.insert k none })
  | other => other

/-- The stripes a transaction writes to, in ascending order. -/
def writeStripes (t : Txn K V n) : List (Fin n) :=
  (Std.ExtTreeSet.ofList (t.writeSet.keys.map place) compare).toList

/-- Takes the stripes to write to, ticks the clock and validates what was read. A transaction that began at the time just
before the tick has read nothing that could have changed. -/
def prepare (t : Txn K V n) (s : Striped K V n) : Prepared (Pending K V n) (Striped K V n) :=
  if t.writeSet.isEmpty then .settled (.value ()) s
  else
    match s.acquire [] (writeStripes place t) with
    | (s, held, some i) => .settled (.abort (.lockBusy i)) (s.release held)
    | (s, held, none) =>
      let time := s.clock + 1
      let s := { s with clock := time }
      match if time = t.began + 1 then none else s.invalid t held with
      | some i => .settled (.abort (.validation i)) (s.release held)
      | none => .ready ⟨t.writeSet.toList, held, time⟩ s

/-- Writes one entry to its stripe. -/
def writeEntry (s : Striped K V n) (k : K) (v : Option V) : Striped K V n :=
  let i := place k
  { s with stripes := s.stripes.set i { s.stripes[i] with entries := s.stripes[i].entries.write k v } }

/-- Writes entries in order. -/
def writeAll (s : Striped K V n) (writes : List (K × Option V)) : Striped K V n :=
  writes.foldl (fun s w => s.writeEntry place w.1 w.2) s

/-- Publishes the writes of a commit and gives its stripes back with the time of the commit. -/
def publish (p : Pending K V n) (s : Striped K V n) : Striped K V n :=
  (s.writeAll place p.writes).release (p.held.map fun h => (h.1, ⟨p.time, false⟩))

/-- The collection in `n` stripes whose keys are placed by `place`. -/
def collection (place : K → Fin n) : Collection K V where
  State := Striped K V n
  Txn := Txn K V n
  Pending := Pending K V n
  empty := empty K V n
  start s := (s.start, s)
  get t s k :=
    let (reply, t) := read place t s k
    (reply, t, s)
  put t s k v :=
    let (reply, t) := put place t s k v
    (reply, t, s)
  remove t s k :=
    let (reply, t) := remove place t s k
    (reply, t, s)
  prepare := prepare place
  publish := publish place
  drop _ s := s
  size s := UInt64.ofNat s.size
  find s k := s.find place k

/-- The number of stripes unless another is asked for. -/
def defaultCount : Nat :=
  1024

/-- There is at least one stripe. -/
theorem count_pos (count : Nat) : 0 < max count 1 :=
  Nat.le_max_right ..

/-- The collection whose keys are placed by their hash; there is at least one stripe. It is made by `sized`, if there is room for
its stripes. -/
def hashed (K V : Type) [Ord K] [Std.TransOrd K] [ByteKey K] (count : Nat) : Collection K V :=
  collection (stripeOf (max count 1) (count_pos count))

/-- How many bytes a stripe takes. -/
def stripeBytes : Nat :=
  64

/-- The collection in as many stripes as are asked for, if there is room for them. -/
def sized (K V : Type) [Ord K] [Std.TransOrd K] [ByteKey K] (count : UInt64) : Except Fault (Collection K V) :=
  match Capacity.reserve count.toNat stripeBytes with
  | .ok () => .ok (hashed K V count.toNat)
  | .error f => .error f

end Striped

end TxnBench
