import TxnBench.Proofs.Striped.Conflicts

/-!
# Commits from any state

What a commit does when nothing is known of the state: others may hold stripes of it, stripes may have versions from the future,
and keys may lie anywhere (`commit_from_any_state`). Two questions decide it, each about the words that the stripes have before the
call: whether a stripe to be written is held (`Blocks`), and whether one that was read is stale (`Invalidates`). A stripe that the
commit has taken itself is judged by the word it had, so no commit is in its own way.
-/

namespace TxnBench

/-- A stripe is stale if it is held or too new. -/
theorem StripeWord.isStale_iff (w : StripeWord) (time : Nat) :
    w.isStale time = true ↔ w.locked = true ∨ time < w.version := by
  simp [StripeWord.isStale]

namespace Striped

variable {K V : Type} [Ord K] {n : Nat} {place : K → Fin n} {s : Striped K V n} {t : Txn K V n} {i : Fin n}

/-! ## Stale stripes that were read -/

/-- A stripe that the transaction has read is held, or has changed since the transaction began. -/
def Invalidates (s : Striped K V n) (t : Txn K V n) (i : Fin n) : Prop :=
  i ∈ t.readSet ∧ ((s.word i).locked = true ∨ t.began < (s.word i).version)

/-- When the clock has moved since the transaction began, a commit that fails to validate names the least stripe that invalidates
it. -/
theorem outdated_of_isLeast (hclock : s.clock ≠ t.began) (hi : IsLeast {i | Invalidates s t i} i) :
    s.outdated t = some i := by
  rw [outdated, if_neg hclock, find?_toList_eq_some_iff]
  simp only [StripeWord.isStale_iff]
  exact hi

/-- A commit validates if the clock has not moved since the transaction began, or no stripe invalidates it. -/
theorem outdated_of_valid (h : s.clock = t.began ∨ ∀ i, ¬Invalidates s t i) : s.outdated t = none := by
  rcases h with hclock | hvalid
  · rw [outdated, if_pos hclock]
  · rw [outdated, ite_eq_left_iff]
    intro _
    apply List.find?_eq_none.mpr
    intro i hi hstale
    exact hvalid i ⟨Std.ExtTreeSet.mem_toList.mp hi, (StripeWord.isStale_iff _ _).mp hstale⟩

variable [Std.TransOrd K]

/-! ## Held stripes that are to be written -/

/-- A stripe that the transaction is to write to is held. -/
def Blocks (place : K → Fin n) (s : Striped K V n) (t : Txn K V n) (i : Fin n) : Prop :=
  (∃ k ∈ t.writeSet, place k = i) ∧ (s.word i).locked = true

/-- Only a transaction with something to write is blocked. -/
theorem Blocks.writeSet_ne_empty (h : Blocks place s t i) : t.writeSet ≠ ∅ := by
  obtain ⟨⟨k, hk, -⟩, -⟩ := h
  intro hempty
  rw [hempty] at hk
  exact Std.ExtTreeMap.not_mem_empty hk

theorem not_isEmpty_writeSet (h : t.writeSet ≠ ∅) : ¬t.writeSet.isEmpty = true :=
  fun hempty => h (Std.ExtTreeMap.isEmpty_iff.mp hempty)

variable [Std.LawfulEqOrd K]

/-- The stripe that a commit finds held is the least that blocks it. -/
theorem find?_locked_eq_some_iff :
    ((writeStripes place t).find? fun i => (s.word i).locked) = some i ↔ IsLeast {i | Blocks place s t i} i := by
  have hblocks : ∀ j, (j ∈ Std.ExtTreeSet.ofList (t.writeSet.keys.map place) compare ∧ (s.word j).locked = true) ↔
      Blocks place s t j := fun j =>
    and_congr_left' (Std.ExtTreeSet.mem_toList.symm.trans (mem_writeStripes place))
  rw [writeStripes, find?_toList_eq_some_iff]
  simp only [hblocks]

/-- A commit finds no stripe held exactly if none blocks it. -/
theorem find?_locked_eq_none_iff :
    ((writeStripes place t).find? fun i => (s.word i).locked) = none ↔ ∀ i, ¬Blocks place s t i := by
  simp only [List.find?_eq_none, mem_writeStripes, Blocks, not_and]

/-! ## The outcomes -/

/-- When stripes that it is to write to are held, a commit names the least of these and does nothing. -/
theorem commit_of_blocks (hi : IsLeast {i | Blocks place s t i} i) :
    (collection place).commit t s = (.abort (.lockBusy i), s) := by
  rw [commit_eq, if_neg (not_isEmpty_writeSet hi.1.writeSet_ne_empty), find?_locked_eq_some_iff.mpr hi]

/-- When nothing blocks it, the outcome of a commit depends on what was read. -/
theorem commit_of_free (hw : t.writeSet ≠ ∅) (hfree : ∀ i, ¬Blocks place s t i) :
    (collection place).commit t s =
      match s.outdated t with
      | some i => (.abort (.validation i), s.ticked)
      | none => (.value (), s.written place t) := by
  rw [commit_eq, if_neg (not_isEmpty_writeSet hw), find?_locked_eq_none_iff.mpr hfree]
  rfl

variable [DecidableEq K]

/-- A commit that goes through changes exactly the keys that it writes, in their own stripes. -/
theorem getElem?_entries_written_of_not_mem {k : K} (h : k ∉ t.writeSet ∨ place k ≠ i) :
    ((s.written place t).entries i)[k]? = (s.entries i)[k]? := by
  rw [written, entries_release]
  exact getElem?_entries_writeAll_of_not_mem place s.ticked (List.Perm.refl _) h

/-- What a commit does, from any state. With nothing to write it goes through and changes nothing. When stripes that it is to write
to are held, it names the least of these and changes nothing. Otherwise the clock ticks. Unless that is the first tick since the
transaction began, a stripe that was read and is held or too new turns the commit down, which names the least of these and changes
nothing else. Otherwise it goes through: in their stripes, the keys to be written have what there was to write, and these stripes
have the time of the tick, with nobody holding them; every other key, and every other stripe, is as it was. -/
theorem commit_from_any_state (place : K → Fin n) (t : Txn K V n) (s : Striped K V n) :
    let reply := ((collection place).commit t s).1
    let s' : Striped K V n := ((collection place).commit t s).2
    (t.writeSet = ∅ → reply = .value () ∧ s' = s) ∧
    ((∃ i, Blocks place s t i) →
      ∃ i, IsLeast {i | Blocks place s t i} i ∧ reply = .abort (.lockBusy i) ∧ s' = s) ∧
    (t.writeSet ≠ ∅ → (∀ i, ¬Blocks place s t i) →
      s'.clock = s.clock + 1 ∧
      (s.clock + 1 ≠ t.began + 1 → (∃ i, Invalidates s t i) →
        ∃ i, IsLeast {i | Invalidates s t i} i ∧ reply = .abort (.validation i) ∧
          ∀ j, s'.word j = s.word j ∧ s'.entries j = s.entries j) ∧
      (s.clock + 1 = t.began + 1 ∨ (∀ i, ¬Invalidates s t i) →
        reply = .value () ∧
          (∀ k v, t.writeSet[k]? = some v → (s'.entries (place k))[k]? = v) ∧
          (∀ i k, k ∉ t.writeSet ∨ place k ≠ i → (s'.entries i)[k]? = (s.entries i)[k]?) ∧
          (∀ i, (∃ k ∈ t.writeSet, place k = i) → s'.word i = ⟨s.clock + 1, false⟩) ∧
          ∀ i, (¬∃ k ∈ t.writeSet, place k = i) → s'.word i = s.word i ∧ s'.entries i = s.entries i)) := by
  refine ⟨fun hw => ?_, fun hblocks => ?_, fun hw hfree => ⟨?_, fun hclock hinvalid => ?_, fun hvalid => ?_⟩⟩
  · rw [commit_of_empty hw]
    exact ⟨rfl, rfl⟩
  · obtain ⟨i, hi⟩ := exists_isLeast hblocks
    rw [commit_of_blocks hi]
    exact ⟨i, hi, rfl, rfl⟩
  · rw [commit_of_free hw hfree]
    cases s.outdated t with
    | some i => rfl
    | none => exact clock_written place s t
  · obtain ⟨i, hi⟩ := exists_isLeast hinvalid
    rw [commit_of_free hw hfree, outdated_of_isLeast (fun h => hclock (congrArg Nat.succ h)) hi]
    exact ⟨i, hi, rfl, fun _ => ⟨rfl, rfl⟩⟩
  · rw [commit_of_free hw hfree, outdated_of_valid (hvalid.imp_left Nat.succ.inj)]
    refine ⟨rfl, fun k v hk => ?_, fun i k hk => getElem?_entries_written_of_not_mem hk, fun i hi => ?_, fun i hi => ?_⟩
    · exact (getElem?_entries_written place s t (place k) k).trans (by rw [if_pos rfl, hk, Option.getD_some])
    · exact (word_written place s t i).trans (if_pos ((mem_writeStripes place).mpr hi))
    · have hnot : i ∉ writeStripes place t := fun hmem => hi ((mem_writeStripes place).mp hmem)
      exact ⟨(word_written place s t i).trans (if_neg hnot), entries_written_of_not_mem place s t hnot⟩

/-- The second stripe is newer than the transactions, and somebody holds the third. To write to the third is to be turned down at
once. To write to the first after all three have been read is to be turned down on account of the second. If only the first has been
read, one key of it comes and one goes, and it has the time of the tick. -/
theorem newer_stripe_before_held_one :
    let place : Nat → Fin 3 := fun k => Fin.ofNat 3 k
    let stripe (version : Nat) (locked : Bool) (k : Nat) : Stripe Nat Nat := ⟨⟨version, locked⟩, {(k, k)}⟩
    let s : Striped Nat Nat 3 := ⟨7, #v[stripe 1 false 3, stripe 5 false 4, stripe 0 true 5]⟩
    let toThird : Txn Nat Nat 3 := ⟨3, {2}, {(2, some 20)}⟩
    let readsAll : Txn Nat Nat 3 := ⟨3, {0, 1, 2}, {(0, some 10), (3, none)}⟩
    let readsFirst : Txn Nat Nat 3 := ⟨3, {0}, {(0, some 10), (3, none)}⟩
    let after (t : Txn Nat Nat 3) : Striped Nat Nat 3 := ((collection place).commit t s).2
    ((∃ i, Blocks place s toThird i) ∧ after toThird = s) ∧
      ((∀ i, ¬Blocks place s readsAll i) ∧ (∃ i, Invalidates s readsAll i) ∧
        ((collection place).commit readsAll s).1 = .abort (.validation 1) ∧ ∀ j, (after readsAll).word j = s.word j) ∧
      (∀ i, ¬Blocks place s readsFirst i) ∧ (∀ i, ¬Invalidates s readsFirst i) ∧
        ((after readsFirst).entries 0)[0]? = some 10 ∧ ((after readsFirst).entries 0)[3]? = none ∧
        (after readsFirst).word 0 = ⟨8, false⟩ := by
  intro place stripe s toThird readsAll readsFirst after
  have hblocks : ∃ i, Blocks place s toThird i := ⟨2, ⟨2, by decide +kernel, rfl⟩, rfl⟩
  have hfree : ∀ i, ¬Blocks place s readsAll i := find?_locked_eq_none_iff.mp (by decide +kernel)
  have hinvalid : ∃ i, Invalidates s readsAll i := ⟨1, by decide +kernel, Or.inr (by decide)⟩
  have hvalid : ∀ i, ¬Invalidates s readsFirst i := by
    rintro i ⟨hread, hstale⟩
    obtain rfl : 0 = i := by simpa [readsFirst] using hread
    exact absurd hstale (by decide)
  have hwrites : readsAll.writeSet ≠ ∅ := fun hempty =>
    absurd (Std.ExtTreeMap.isEmpty_iff.mpr hempty) (by decide +kernel)
  obtain ⟨-, hheld, -⟩ := commit_from_any_state place toThird s
  obtain ⟨-, -, hall⟩ := commit_from_any_state place readsAll s
  obtain ⟨-, -, hfirst⟩ := commit_from_any_state place readsFirst s
  obtain ⟨-, -, -, hsame⟩ := hheld hblocks
  obtain ⟨-, -, -, hwords⟩ := (hall hwrites hfree).2.1 (by decide) hinvalid
  obtain ⟨-, hwritten, -, hword, -⟩ := (hfirst hwrites hfree).2.2 (Or.inr hvalid)
  refine ⟨⟨hblocks, hsame⟩, ⟨hfree, hinvalid, by decide +kernel, fun j => (hwords j).1⟩, hfree, hvalid, ?_, ?_, ?_⟩
  · exact hwritten 0 (some 10) (by decide +kernel)
  · exact hwritten 3 none (by decide +kernel)
  · exact hword 0 ⟨0, by decide +kernel, rfl⟩

end Striped

end TxnBench
