import TxnBench.Proofs.Striped.Layout

/-!
# What a commit does

`commit_eq` says what a commit does from any state, whoever holds stripes of it, without the steps it takes on the way: the
stripes it takes before it is turned down, and gives back, leave no trace. A commit of a transaction that has written nothing
does nothing at all, and one that fails to validate ticks the clock and does nothing else.
-/

namespace TxnBench

namespace Collection

variable {K V : Type} {C : Collection K V} {t : C.Txn} {s s' : C.State}

/-- A commit that its first half settles. -/
theorem commit_of_settled {reply : Reply Unit} (h : C.prepare t s = .settled reply s') : C.commit t s = (reply, s') := by
  rw [commit, h]

/-- A commit that its first half prepares is published. -/
theorem commit_of_ready {pending : C.Pending} (h : C.prepare t s = .ready pending s') :
    C.commit t s = (.value (), C.publish pending s') := by
  rw [commit, h]

end Collection

namespace Striped

variable {K V : Type} [Ord K] {n : Nat}

/-- The state with its clock one tick on. -/
def ticked (s : Striped K V n) : Striped K V n :=
  { s with clock := s.clock + 1 }

/-- The stripe a commit names when it fails to validate: the first of those read that is stale. When nobody has ticked since
the transaction began, none is looked at. -/
def outdated (s : Striped K V n) (t : Txn K V n) : Option (Fin n) :=
  if s.clock = t.began then none else t.readSet.toList.find? fun i => (s.word i).isStale t.began

variable [Std.TransOrd K] (place : K → Fin n)

/-- The state after a transaction has committed its writes. -/
def written (s : Striped K V n) (t : Txn K V n) : Striped K V n :=
  (s.ticked.writeAll place t.writeSet.toList).release (withWords (fun _ => ⟨s.clock + 1, false⟩) (writeStripes place t))

/-- The stripes written to are in ascending order. -/
theorem ascending_writeStripes (t : Txn K V n) : (writeStripes place t).Pairwise (· < ·) :=
  Std.ExtTreeSet.ordered_toList.imp compare_lt_iff_lt.mp

/-- No stripe is written to twice. -/
theorem nodup_writeStripes (t : Txn K V n) : (writeStripes place t).Nodup :=
  (ascending_writeStripes place t).imp ne_of_lt

/-- A commit that holds all stripes it is to write to judges every stripe by its word from before. -/
theorem wordBefore_of_unlocked (s : Striped K V n) (t : Txn K V n) (hu : ∀ i ∈ writeStripes place t, (s.word i).locked = false)
    (j : Fin n) :
    (s.lockAll (writeStripes place t)).wordBefore (withWords s.word (writeStripes place t)) j = s.word j := by
  have hheld := s.acquire_ascending [] (writeStripes place t) (ascending_writeStripes place t)
  rw [s.acquire_of_unlocked (nodup_writeStripes place t) hu] at hheld
  exact s.wordBefore_lockAll hheld j

/-- A transaction writes to the stripes of the keys it writes. -/
theorem mem_writeStripes [Std.LawfulEqOrd K] {t : Txn K V n} {i : Fin n} :
    i ∈ writeStripes place t ↔ ∃ k ∈ t.writeSet, place k = i := by
  simp [writeStripes]

/-- Publishing from the state with the stripes taken gives the state written. -/
theorem publish_lockAll (s : Striped K V n) (t : Txn K V n) :
    publish place ⟨t.writeSet.toList, withWords s.word (writeStripes place t), s.clock + 1⟩
      (s.lockAll (writeStripes place t)).ticked = s.written place t := by
  have hnd := nodup_writeStripes place t
  have hmap : (withWords s.word (writeStripes place t)).map (fun h => (h.1, (⟨s.clock + 1, false⟩ : StripeWord))) =
      withWords (fun _ => ⟨s.clock + 1, false⟩) (writeStripes place t) := by
    simp [withWords]
  rw [publish, written, hmap]
  apply ext_stripes
  · simp [ticked]
  · intro i
    rw [word_release_withWords _ _ hnd, word_release_withWords _ _ hnd, word_writeAll, word_writeAll]
    split
    · rfl
    · rename_i hi
      exact (word_lockAll s (writeStripes place t) i).trans (if_neg hi)
  · intro i
    rw [entries_release, entries_release, entries_writeAll, entries_writeAll]
    exact congrArg (Contents.writeAll · _) (entries_lockAll s (writeStripes place t) i)

omit [Std.TransOrd K] in
/-- Giving the stripes back from the state with the stripes taken and the clock ticked leaves only the tick. -/
theorem release_ticked_lockAll (s : Striped K V n) {l : List (Fin n)} (hd : l.Nodup) :
    (s.lockAll l).ticked.release (withWords s.word l) = s.ticked := by
  apply ext_stripes
  · simp [ticked]
  · intro i
    have h := congrArg (fun s => s.word i) (s.release_lockAll hd)
    simp only [word_release_withWords _ _ hd] at h ⊢
    exact h
  · intro i
    rw [entries_release]
    exact entries_lockAll s l i

/-- The first half of a commit when nobody holds any of the stripes it is to take. -/
theorem prepare_of_unlocked (s : Striped K V n) (t : Txn K V n) (he : ¬t.writeSet.isEmpty)
    (hu : ∀ i ∈ writeStripes place t, (s.word i).locked = false) :
    prepare place t s =
      match s.outdated t with
      | some i => .settled (.abort (.validation i)) s.ticked
      | none => .ready ⟨t.writeSet.toList, withWords s.word (writeStripes place t), s.clock + 1⟩
          (s.lockAll (writeStripes place t)).ticked := by
  have hnd := nodup_writeStripes place t
  have hword : ∀ i, (s.lockAll (writeStripes place t)).ticked.wordBefore (withWords s.word (writeStripes place t)) i =
      s.word i := s.wordBefore_of_unlocked place t hu
  -- The stripe that fails is looked for among stripes and told as a number.
  have hinvalid : (if s.clock + 1 = t.began + 1 then none
      else do
        let i ← (s.lockAll (writeStripes place t)).ticked.invalid t (withWords s.word (writeStripes place t))
        pure i.val) = (s.outdated t).map Fin.val := by
    simp only [invalid, hword, outdated, Nat.add_right_cancel_iff]
    split
    · rfl
    · cases t.readSet.toList.find? fun i => (s.word i).isStale t.began <;> rfl
  have hrelease := s.release_ticked_lockAll hnd
  simp only [ticked, clock_lockAll] at hinvalid hrelease
  simp only [prepare, he, Bool.false_eq_true, if_false, s.acquire_of_unlocked hnd hu, clock_lockAll, hinvalid]
  cases s.outdated t with
  | some i => simp only [Option.map_some, hrelease, ticked]
  | none => simp only [Option.map_none, ticked, clock_lockAll]

/-- What a commit does, from any state. -/
theorem commit_eq (t : Txn K V n) (s : Striped K V n) :
    (collection place).commit t s =
      if t.writeSet.isEmpty then (.value (), s)
      else
        match (writeStripes place t).find? fun i => (s.word i).locked with
        | some i => (.abort (.lockBusy i), s)
        | none =>
          match s.outdated t with
          | some i => (.abort (.validation i), s.ticked)
          | none => (.value (), s.written place t) := by
  by_cases he : t.writeSet.isEmpty
  · rw [if_pos he]
    exact Collection.commit_of_settled (by simp only [collection, prepare, he, if_true])
  · rw [if_neg he]
    have hnd := nodup_writeStripes place t
    cases hf : (writeStripes place t).find? fun i => (s.word i).locked with
    | some i =>
      obtain ⟨taken, ht, ha⟩ := s.acquire_of_locked hnd hf
      exact Collection.commit_of_settled (by
        simp only [collection, prepare, he, Bool.false_eq_true, if_false, ha, s.release_lockAll ht])
    | none =>
      have hu : ∀ i ∈ writeStripes place t, (s.word i).locked = false := by
        simpa using List.find?_eq_none.mp hf
      have hprepare := prepare_of_unlocked place s t he hu
      cases ho : s.outdated t with
      | some i =>
        rw [ho] at hprepare
        exact Collection.commit_of_settled hprepare
      | none =>
        rw [ho] at hprepare
        exact (Collection.commit_of_ready hprepare).trans (congrArg _ (publish_lockAll place s t))

/-- With nothing to write, a commit goes through and does nothing. -/
theorem commit_of_empty {place : K → Fin n} {t : Txn K V n} {s : Striped K V n} (h : t.writeSet = ∅) :
    (collection place).commit t s = (.value (), s) := by
  rw [commit_eq, if_pos (Std.ExtTreeMap.isEmpty_iff.mpr h)]

end Striped

end TxnBench
