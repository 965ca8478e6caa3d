import TxnBench.Bench.Report
import TxnBench.Proofs.Workers.Counters

/-!
# Reports

A report expects the entries there were before, more by what the workers have inserted and less by what they have removed.
As long as the counters fit in their words, it is given, and expects just that number (`Report.exists_aggregate`).
-/

namespace TxnBench

/-- A word from the lower half of the range is itself as a signed word. -/
theorem Word.toSigned_of_lt {a : UInt64} (h : a.toNat < 2 ^ 63) : Word.toSigned a = a.toNat :=
  BitVec.toInt_eq_toNat_of_lt (by rw [UInt64.toBitVec_toInt64, UInt64.toNat_toBitVec]; omega)

/-- The result of signed arithmetic is returned if it is in range. -/
theorem Word.signed_of_mem {op : Arith} {x : Int} (h : -2 ^ 63 ≤ x ∧ x < 2 ^ 63) : Word.signed op x = .ok x :=
  if_pos (by rw [Int64.toInt_minValue, Int64.toInt_maxValue]; omega)

/-- What signed arithmetic returns is a signed word. -/
theorem Word.mem_of_signed {op : Arith} {x y : Int} (h : Word.signed op x = .ok y) : -2 ^ 63 ≤ y ∧ y < 2 ^ 63 := by
  rw [Word.signed, Int64.toInt_minValue, Int64.toInt_maxValue] at h
  split at h
  · cases h
    omega
  · cases h

namespace Report

/-- A report is consistent if the size found is a signed word and the one expected. -/
theorem isConsistent_iff {r : Report} : r.isConsistent ↔ r.actual.toNat < 2 ^ 63 ∧ (r.actual.toNat : Int) = r.expected := by
  rw [isConsistent, decide_eq_true_iff, Int64.toInt_maxValue]
  omega

/-- A report is given when every counter fits in its word and neither the entries inserted on top of those before nor the
entries removed leave the signed words, and it expects the entries there must be. -/
theorem exists_aggregate (initial : UInt64) {workers : List Stats} (actual : UInt64) (elapsed : Duration)
    (hfit : ∀ c, (workers.map fun s => s.count c).sum < 2 ^ 64)
    (hinserts : initial.toNat + (workers.map fun s => s.count .inserts).sum < 2 ^ 63)
    (hremoves : (workers.map fun s => s.count .removes).sum < 2 ^ 63) :
    ∃ r, aggregate initial workers actual elapsed = .ok r ∧ r.actual = actual ∧
      r.expected =
        initial.toNat + (workers.map fun s => s.count .inserts).sum - (workers.map fun s => s.count .removes).sum := by
  obtain ⟨total, htotal⟩ := Stats.exists_sum hfit
  have hcount := Stats.sum_eq_ok_iff.mp htotal
  rw [hcount .inserts] at hinserts
  rw [hcount .removes] at hremoves
  rw [hcount .inserts, hcount .removes]
  have hi : Word.toSigned initial = initial.toNat := Word.toSigned_of_lt (by omega)
  have hins : Word.toSigned total.inserts = total.count .inserts := Word.toSigned_of_lt (by
    change total.count .inserts < _
    omega)
  have hrem : Word.toSigned total.removes = total.count .removes := Word.toSigned_of_lt hremoves
  have hgrown : Word.signed .add (initial.toNat + total.count .inserts : Int) = .ok _ := Word.signed_of_mem (by omega)
  have hexpected : Word.signed .sub (initial.toNat + total.count .inserts - total.count .removes : Int) = .ok _ :=
    Word.signed_of_mem (by omega)
  refine ⟨⟨initial, workers, total, initial.toNat + total.count .inserts - total.count .removes, actual, elapsed⟩, ?_, rfl,
    rfl⟩
  simp only [aggregate, htotal, hi, hins, hrem, bind, Except.bind, hgrown, hexpected]
  rfl

/-- A report is about the workers it is given, and its total is the true sum of what they have counted. -/
theorem of_aggregate {initial actual : UInt64} {workers : List Stats} {elapsed : Duration} {r : Report}
    (h : aggregate initial workers actual elapsed = .ok r) :
    r.initial = initial ∧ r.workers = workers ∧
      ∀ c, (workers.map fun s => s.count c).sum = r.total.count c := by
  unfold aggregate at h
  obtain ⟨total, htotal, h⟩ := bind_eq_ok_iff.mp h
  obtain ⟨grown, -, h⟩ := bind_eq_ok_iff.mp h
  obtain ⟨expected, -, h⟩ := bind_eq_ok_iff.mp h
  cases h
  exact ⟨rfl, rfl, Stats.sum_eq_ok_iff.mp htotal⟩

/-- The size that a report expects is a signed word. -/
theorem signed_of_aggregate {initial actual : UInt64} {workers : List Stats} {elapsed : Duration} {r : Report}
    (h : aggregate initial workers actual elapsed = .ok r) : -2 ^ 63 ≤ r.expected ∧ r.expected < 2 ^ 63 := by
  unfold aggregate at h
  obtain ⟨total, -, h⟩ := bind_eq_ok_iff.mp h
  obtain ⟨grown, -, h⟩ := bind_eq_ok_iff.mp h
  obtain ⟨expected, hexpected, h⟩ := bind_eq_ok_iff.mp h
  cases h
  exact Word.mem_of_signed hexpected

/-- A report on the same workers in another order says the same, but for the order in which it lists them. -/
theorem aggregate_of_perm (initial actual : UInt64) {workers others : List Stats} (h : others.Perm workers) (elapsed : Duration) :
    aggregate initial others actual elapsed =
      (aggregate initial workers actual elapsed).map fun r => { r with workers := others } := by
  unfold aggregate
  rw [Stats.sum_eq_of_perm h]
  cases Stats.sum workers with
  | error f => rfl
  | ok total =>
    cases hgrown : Word.signed .add (Word.toSigned initial + Word.toSigned total.inserts) with
    | error f => simp only [bind, Except.bind, hgrown, Except.map]
    | ok grown =>
      cases hexpected : Word.signed .sub (grown - Word.toSigned total.removes) with
      | error f => simp only [bind, Except.bind, hgrown, hexpected, Except.map]
      | ok expected => simp only [bind, Except.bind, hgrown, hexpected, Except.map, pure, Except.pure]

/-- A report adds up exactly what its workers have counted, in whatever order they are listed. There is a fault in the totals
just if the true sum of some counter does not fit in its word. Otherwise, if the entries before the workload and those inserted
are together within the signed words, and those removed are too, there is a report: each total is the true sum of its counter,
the size expected is the true number, be it negative, and the report is consistent just if that is the size there is. The same
workers in another order make the same report but for that order, and if they make none, for the same reason. -/
theorem adds_up_exactly (initial actual : UInt64) (workers : List Stats) (elapsed : Duration) :
    let sum (c : Counter) : Nat := (workers.map fun s => s.count c).sum
    ((∃ f, Stats.sum workers = .error f) ↔ ∃ c, 2 ^ 64 ≤ sum c) ∧
    (∀ f, Stats.sum workers = .error f → f = .overflow .add ∧ aggregate initial workers actual elapsed = .error f) ∧
    ((∀ c, sum c < 2 ^ 64) → initial.toNat + sum .inserts < 2 ^ 63 → sum .removes < 2 ^ 63 →
      ∃ r, aggregate initial workers actual elapsed = .ok r ∧ (∀ c, r.total.count c = sum c) ∧
        r.expected = initial.toNat + sum .inserts - sum .removes ∧
        (r.isConsistent ↔ (actual.toNat : Int) = initial.toNat + sum .inserts - sum .removes)) ∧
    ∀ others : List Stats, others.Perm workers →
      aggregate initial others actual elapsed =
        (aggregate initial workers actual elapsed).map fun r => { r with workers := others } := by
  intro sum
  refine ⟨?_, ?_, ?_, fun others h => aggregate_of_perm initial actual h elapsed⟩
  · constructor
    · rintro ⟨f, hf⟩
      exact (Stats.sum_eq_error_iff.mp hf).1
    · intro hover
      exact ⟨_, Stats.sum_eq_error_iff.mpr ⟨hover, rfl⟩⟩
  · intro f hf
    refine ⟨(Stats.sum_eq_error_iff.mp hf).2, ?_⟩
    simp only [aggregate, hf, bind, Except.bind]
  · intro hfit hinserts hremoves
    obtain ⟨r, hr, hactual, hexpected⟩ := exists_aggregate initial actual elapsed hfit hinserts hremoves
    obtain ⟨-, -, htotal⟩ := of_aggregate hr
    have hexpected : r.expected = initial.toNat + sum .inserts - sum .removes := hexpected
    refine ⟨r, hr, fun c => (htotal c).symm, hexpected, ?_⟩
    rw [isConsistent_iff, hactual, hexpected]
    omega

/-- One worker has counted as much as it can, and another has removed one entry more than there ever were: a negative number of
entries is expected, which is not the size that has the same bits, and the order of the two makes no difference. With one task
more the totals overflow. -/
theorem one_more_removed_than_inserted :
    let most : Stats := { succeeded := 18446744073709551615, inserts := 9223372036854775806 }
    let other : Stats := { removes := 9223372036854775807, aborted := 3 }
    (∃ r, aggregate 0 [most, other] 18446744073709551615 ⟨1, 0⟩ = .ok r ∧ r.expected = -1 ∧ ¬r.isConsistent ∧
      aggregate 0 [other, most] 18446744073709551615 ⟨1, 0⟩ = .ok { r with workers := [other, most] }) ∧
    ∃ f, Stats.sum [most, other, { succeeded := 1 }] = .error f := by
  intro most other
  obtain ⟨-, -, hreport, horder⟩ := adds_up_exactly 0 18446744073709551615 [most, other] ⟨1, 0⟩
  obtain ⟨hover, -⟩ := adds_up_exactly 0 0 [most, other, { succeeded := 1 }] ⟨1, 0⟩
  obtain ⟨r, hr, -, hexpected, hconsistent⟩ := hreport (by intro c; cases c <;> decide) (by decide) (by decide)
  refine ⟨⟨r, hr, hexpected.trans (by decide), ?_, ?_⟩, hover.mpr ⟨.succeeded, by decide⟩⟩
  · rw [hconsistent]
    decide
  · rw [horder [other, most] (List.Perm.swap most other []), hr]
    rfl

end Report

end TxnBench
