import TxnBench.Proofs.Sequential.Batches
import TxnBench.Proofs.Sequential.Striped
import TxnBench.Proofs.Sequential.Workers
import TxnBench.Proofs.Workers.Log

/-!
# What a worker leaves of a collection at rest

A collection is `AtRest` on entries if it holds them and no transaction is open on it. A worker that has it to itself leaves the
entries with the tasks of just those batches carried out that were committed, and what it has counted as inserted and removed is
by how much their number has changed (`AtRest.keeps_committed_batches`), however many batches the collection turns down.
-/

namespace TxnBench

/-- A collection that holds entries and on which no transaction is open: the striped one, with any stripes, as a schedule has left
it; the locked one; or the faulty one, with any failures but a key at which it breaks off, and after any number of commits. -/
inductive AtRest : (C : Collection UInt64 UInt64) → C.State → Contents UInt64 UInt64 → Prop where
  | striped {n : Nat} (place : UInt64 → Fin n) (before : List (Nat × Action UInt64 UInt64)) :
    AtRest (Striped.collection place) (Session.quietAfter (Striped.collection place) before).state
      (Striped.contents (n := n) (Session.quietAfter (Striped.collection (V := UInt64) place) before).state)
  | locked (m : Contents UInt64 UInt64) : AtRest (Locked.collection UInt64 UInt64) m m
  | faulty (f : Failures) (unbreaking : f.breaking = none) (m : Contents UInt64 UInt64) (commits : Nat) :
    AtRest (Faulty.collection f) ⟨m, commits⟩ m

namespace AtRest

variable {C : Collection UInt64 UInt64} {s : C.State} {m : Contents UInt64 UInt64}

/-- A collection at rest does not break off, and the size it states is off by the same as long as it is used by one transaction
at a time. -/
theorem exists_unbroken (h : AtRest C s m) :
    ∃ (Q : Sequential C) (offset : UInt64), Q.Unbroken ∧ Q.Rests s m ∧
      ∀ {s m}, Q.Rests s m → C.size s = UInt64.ofNat m.size + offset := by
  cases h with
  | striped place before =>
    refine ⟨Striped.sequential place, 0, (Striped.steady place).unbroken, ⟨Striped.sound_quietAfter before, rfl⟩, ?_⟩
    intro s m hrests
    rw [UInt64.add_zero]
    exact Striped.truthful place hrests
  | locked =>
    refine ⟨Locked.sequential UInt64 UInt64, 0, Locked.steady.unbroken, rfl, ?_⟩
    intro s m hrests
    rw [UInt64.add_zero]
    exact Locked.truthful hrests
  | faulty f unbreaking commits =>
    refine ⟨Faulty.sequential f, f.offset, Faulty.unbroken f unbreaking, rfl, ?_⟩
    rintro s m rfl
    rfl

/-- Only batches that are committed change a collection. A worker that has to itself a collection at rest, which may turn down any
calls and commits, comes to report. Its batches are made up of its tasks. The entries it leaves are those there were, with the
tasks of the batches carried out in order that were committed; and their number, like the size that the collection states, has
grown by what the worker counts as inserted, less what it counts as removed. -/
theorem keeps_committed_batches (h : AtRest C s m) (limit : UInt64) (tasks : List Task) (hlen : tasks.length < 2 ^ 64) :
    let ran := Worker.run C limit tasks s
    ∃ attempts stats, ran.1 = .ok stats ∧ Worker.log C limit tasks s = Attempt.logOf attempts ∧
      attempts.flatMap Attempt.tasks = tasks ∧
      let left := m.performAll (((Attempt.kept attempts).flatMap Attempt.tasks).map Task.action)
      (∀ k, C.find s k = m[k]?) ∧ (∀ k, C.find ran.2 k = left[k]?) ∧
        left.size + stats.removes.toNat = m.size + stats.inserts.toNat ∧
        C.size ran.2 + stats.removes = C.size s + stats.inserts := by
  intro ran
  obtain ⟨Q, offset, hQ, hrests, hstated⟩ := h.exists_unbroken
  obtain ⟨attempts, todo, hcourse, hreports, hover, hlog⟩ := Worker.exists_course_of_log (C := C) limit hlen s
  obtain ⟨stats, s', -, hran, -⟩ := hQ.run hrests limit hlen
  have hran : ran = (.ok stats, s') := hran
  change Worker.Course C limit s tasks attempts todo ran.2 at hcourse
  change Worker.Reports attempts ran.1 at hreports
  rw [hran] at hcourse hreports ⊢
  have htasks := hcourse.tasks_eq
  rw [hover hreports.1, List.append_nil] at htasks
  obtain ⟨left, hrests', hreplays⟩ := Sequential.rests_of_course hrests hcourse
  have hleft := hreplays.eq_performAll
  rw [Attempt.map_action_keptCalls] at hleft
  have hsize : left.size + stats.removes.toNat = m.size + stats.inserts.toNat := by
    rw [hreports.inserts, hreports.removes]
    exact hreplays.size
  refine ⟨attempts, stats, rfl, hlog, htasks, Q.find hrests, hleft ▸ Q.find hrests', hleft ▸ hsize, ?_⟩
  have hwords := congrArg UInt64.ofNat hsize
  rw [UInt64.ofNat_add, UInt64.ofNat_add, UInt64.ofNat_toNat, UInt64.ofNat_toNat] at hwords
  calc C.size s' + stats.removes
      = UInt64.ofNat left.size + offset + stats.removes := by rw [hstated hrests']
    _ = UInt64.ofNat left.size + stats.removes + offset := by ac_rfl
    _ = UInt64.ofNat m.size + stats.inserts + offset := by rw [hwords]
    _ = UInt64.ofNat m.size + offset + stats.inserts := by ac_rfl
    _ = C.size s + stats.inserts := by rw [hstated hrests]

/-- A batch that puts a new key is given up at its second task, so the same key is new again to the next batch; that one is turned
down at its commit, and the key is new once more. -/
theorem lost_keys_are_new_again :
    let f : Failures := { poison := 5, period := 2, offset := 100 }
    let m : Contents UInt64 UInt64 := Contents.performAll ∅ [.put 7 70]
    let tasks : List Task :=
      [⟨.insert, 3, 31⟩, ⟨.insert, 5, 50⟩, ⟨.insert, 3, 32⟩, ⟨.remove, 7, 0⟩, ⟨.insert, 3, 33⟩, ⟨.contains, 7, 0⟩]
    let ran := Worker.run (Faulty.collection f) 2 tasks ⟨m, 1⟩
    AtRest (Faulty.collection f) ⟨m, 1⟩ m ∧
      ∃ attempts stats, ran.1 = .ok stats ∧ Worker.log (Faulty.collection f) 2 tasks ⟨m, 1⟩ = Attempt.logOf attempts ∧
        (∀ k, (Faulty.collection f).find ran.2 k =
          (m.performAll (((Attempt.kept attempts).flatMap Attempt.tasks).map Task.action))[k]?) ∧
        (Faulty.collection f).find ran.2 3 = some 33 ∧ (Faulty.collection f).find ran.2 7 = some 70 ∧
        (Faulty.collection f).size ran.2 + stats.removes = 101 + stats.inserts := by
  intro f m tasks ran
  have hrest : AtRest (Faulty.collection f) ⟨m, 1⟩ m := .faulty f rfl m 1
  obtain ⟨attempts, stats, hran, hlog, -, -, hfind, -, hsize⟩ := keeps_committed_batches hrest 2 tasks (by decide)
  exact ⟨hrest, attempts, stats, hran, hlog, hfind, by decide +kernel, by decide +kernel, hsize⟩

end AtRest

end TxnBench
