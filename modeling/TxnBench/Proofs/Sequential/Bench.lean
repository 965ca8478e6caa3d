import TxnBench.Proofs.Reports
import TxnBench.Proofs.Sequential.Populate
import TxnBench.Proofs.Sequential.Striped
import TxnBench.Proofs.Sequential.Workers

/-!
# Benchmarks whose workers run one after another

A benchmark of feasible parameters whose draws do not give up has three ends (`Unbroken.bench`): a list has no room in the
address space, or populating was turned down, or there is a report, and it expects just the entries there are.
-/

namespace TxnBench

/-- The lists of known length of a run are its tasks and its workers. -/
theorem Params.rooms_eq {p : Params} (hp : p.Feasible) :
    p.rooms = [p.tasks.toNat * Task.bytes, p.threads.toNat * Workers.handleBytes] := by
  obtain ⟨composition, hcomposition, -, -, htotal⟩ := Composition.exists_ofShares hp.shares hp.inserts hp.removes
  have hall : (Composition.ofShares p.tasks p.inserts p.removes >>= Composition.total) = .ok p.tasks := by
    rw [hcomposition]
    exact Composition.total_eq htotal
  rw [rooms, hall]

namespace Bench

variable {C : Collection UInt64 UInt64} {G : Type} [Source G] {p : Params} {g : G} {d : Drawn G}

/-- Without room for the tasks, nothing is drawn. -/
theorem prepare_of_no_room (hp : p.Feasible) (g : G) (hroom : Capacity.limit < p.tasks.toNat * Task.bytes) :
    prepare C p g = .error (.fault .capacity) := by
  obtain ⟨range, hrange, -⟩ := KeyRange.exists_ofTasks p.tasks
  obtain ⟨composition, hcomposition, -, -, htotal⟩ := Composition.exists_ofShares hp.shares hp.inserts hp.removes
  have hgenerate := Composition.generate_of_no_room (Composition.total_eq htotal) range g hroom
  unfold prepare
  rw [hrange, hcomposition]
  simp only [bind, Except.bind, liftM, monadLift, MonadLift.monadLift, Except.mapError, hgenerate]

/-- With room for the tasks, what is drawn is given to the workers, once the collection is populated. -/
theorem prepare_of_room (hp : p.Feasible) (hd : p.draws g = some d) (hroom : p.tasks.toNat * Task.bytes ≤ Capacity.limit) :
    prepare C p g =
      let populated := populate C (initialEntries p.tasks) d.range C.empty d.between
      populated.1.map fun initial => ⟨d.tasks, initial, populated.2.1, populated.2.2⟩ := by
  obtain ⟨composition, drawn, shuffling, hdraws⟩ := Params.of_draws hp hd
  have hgenerate := Composition.generate_of_room (Composition.total_eq hdraws.total) hdraws.tasks hdraws.order hroom
  unfold prepare
  rw [hdraws.range, hdraws.shares]
  simp only [bind, Except.bind, liftM, monadLift, MonadLift.monadLift, Except.mapError, hgenerate]
  rcases populate C (initialEntries p.tasks) d.range C.empty d.between with ⟨initial | initial, state, source⟩ <;> rfl

end Bench

namespace Sequential

/-- What a benchmark that is over has found. -/
structure Benched {C : Collection UInt64 UInt64} (Q : Sequential C) {G : Type} (p : Params) (d : Drawn G)
    (fin : Bench.Finished C G) (m : Contents UInt64 UInt64) : Prop where
  rests : Q.Rests fin.state m
  /-- The entries and tasks are together no more than a signed word can count. -/
  initial_lt : fin.report.initial.toNat + p.tasks.toNat < 2 ^ 63
  actual : fin.report.actual = C.size fin.state
  expected : fin.report.expected = m.size
  size_lt : m.size < 2 ^ 63
  workers : List.Forall₂ (Worked Q) (Workers.slices d.tasks p.threads) fin.report.workers
  total : ∀ c, (fin.report.workers.map fun st => st.count c).sum = fin.report.total.count c

variable {C : Collection UInt64 UInt64} {Q : Sequential C} {G : Type} [Source G] {p : Params} {g : G} {d : Drawn G}

/-- Workers whose entries and tasks are together no more than a signed word can count are reported on, and the report expects
the entries they have left. -/
theorem exists_report {slices : List (List Task)} {stats : List Stats} (hworked : List.Forall₂ (Worked Q) slices stats)
    {initial : UInt64} {left : Nat} (hfit : initial.toNat + (slices.map List.length).sum < 2 ^ 63)
    (hbalance : left + (stats.map fun st => st.count .removes).sum =
      initial.toNat + (stats.map fun st => st.count .inserts).sum) (actual : UInt64) (elapsed : Duration) :
    ∃ r, Report.aggregate initial stats actual elapsed = .ok r ∧ r.initial = initial ∧ r.actual = actual ∧
      r.expected = left ∧ left < 2 ^ 63 ∧ r.workers = stats ∧ ∀ c, (stats.map fun st => st.count c).sum = r.total.count c := by
  have hcount := sum_count_le hworked
  have hinserts := hcount .inserts
  have hremoves := hcount .removes
  have hwords : ∀ c, (stats.map fun st => st.count c).sum < 2 ^ 64 := by
    intro c
    have hle := hcount c
    omega
  obtain ⟨r, hr, hactual, hexpected⟩ := Report.exists_aggregate initial actual elapsed hwords (by omega) (by omega)
  obtain ⟨hinitial, hworkers, htotal⟩ := Report.of_aggregate hr
  refine ⟨r, hr, hinitial, hactual, ?_, by omega, hworkers, htotal⟩
  rw [hexpected]
  omega

/-- Once a collection that does not break off is populated, its workers are run and reported on, if there is room to keep
hold of them. -/
theorem Unbroken.bench_of_prepare (hQ : Q.Unbroken) (hp : p.Feasible) {initial : UInt64} {s : C.State} {source : G}
    {m : Contents UInt64 UInt64} (hprepare : Bench.prepare C p g = .ok ⟨d.tasks, initial, s, source⟩) (h : Q.Rests s m)
    (hsize : m.size = initial.toNat) (hlength : d.tasks.length = p.tasks.toNat)
    (hfit : initial.toNat + p.tasks.toNat < 2 ^ 63) (hroom : p.threads.toNat * Workers.handleBytes ≤ Capacity.limit)
    (elapsed : Duration) : ∃ fin m', TxnBench.bench C p elapsed g = .ok fin ∧ Benched Q p d fin m' := by
  obtain ⟨stats, s', m', hran, hrests', hworked, hbalance⟩ := hQ.runWorkers h hlength p.perTxn hp.threads hroom
  have hsum := Workers.sum_length_slices hlength hp.threads
  rw [hsize] at hbalance
  obtain ⟨r, hr, hinitial, hactual, hexpected, hlt, hworkers, htotal⟩ :=
    exists_report hworked (by omega) hbalance (C.size s') elapsed
  rw [← hworkers] at hworked htotal
  rw [← hinitial] at hfit
  have hexecute : Bench.Ready.execute p (⟨d.tasks, initial, s, source⟩ : Bench.Ready C G) =
      .ok ⟨initial, stats, s', source⟩ := by
    simp only [Bench.Ready.execute, hran]
    rfl
  have hreport : Bench.Executed.report (⟨initial, stats, s', source⟩ : Bench.Executed C G) elapsed =
      .ok ⟨r, s', source⟩ := by
    simp only [Bench.Executed.report, hr]
    rfl
  refine ⟨⟨r, s', source⟩, m', ?_, hrests', hfit, hactual, hexpected, hlt, hworked, htotal⟩
  simp only [TxnBench.bench, hprepare, bind, Except.bind, hexecute, hreport]

/-- A benchmark on a collection that does not break off has no room for a list, or is turned down while the collection is
populated, or comes to its end. -/
theorem Unbroken.bench (hQ : Q.Unbroken) (hempty : Q.Rests C.empty ∅) (hp : p.Feasible) (hd : p.draws g = some d)
    (elapsed : Duration) :
    (TxnBench.bench C p elapsed g = .error (.fault .capacity) ∧ ∃ bytes ∈ p.rooms, Capacity.limit < bytes) ∨
    (∃ why, (TxnBench.populate C (initialEntries p.tasks) d.range C.empty d.between).1 = .error (.failed (.populate why)) ∧
      TxnBench.bench C p elapsed g = .error (.failed (.populate why)) ∧ ¬Q.Steady) ∨
    ∃ fin m, TxnBench.bench C p elapsed g = .ok fin ∧ Benched Q p d fin m := by
  have hrooms := Params.rooms_eq hp
  have hlength := Params.length_of_draws hp hd
  obtain ⟨composition, drawn, shuffling, hdraws⟩ := Params.of_draws hp hd
  by_cases htasks : p.tasks.toNat * Task.bytes ≤ Capacity.limit
  · have hprepare := Bench.prepare_of_room (C := C) hp hd htasks
    rcases hQ.populate hempty hdraws.entries with ⟨initial, s, hpopulate, hrests, hsize, hle⟩ | ⟨why, s, g₁, hpopulate, -, hnot⟩
    · rw [hpopulate] at hprepare
      by_cases hthreads : p.threads.toNat * Workers.handleBytes ≤ Capacity.limit
      · right
        right
        have hinitial := toNat_initialEntries p.tasks
        have hbound : p.tasks.toNat * 24 ≤ 2 ^ 63 - 1 := htasks
        rw [Std.ExtTreeMap.size_empty, Nat.zero_add] at hsize
        exact hQ.bench_of_prepare hp hprepare hrests hsize hlength (by omega) hthreads elapsed
      · left
        refine ⟨?_, p.threads.toNat * Workers.handleBytes, by rw [hrooms]; simp, Nat.lt_of_not_le hthreads⟩
        have hran := Workers.run_of_no_room C d.tasks p.perTxn s hp.threads (Nat.lt_of_not_le hthreads)
        simp only [TxnBench.bench, hprepare, Except.map, bind, Except.bind, Bench.Ready.execute, hran]
    · right
      left
      rw [hpopulate] at hprepare
      refine ⟨why, by rw [hpopulate], ?_, hnot⟩
      simp only [TxnBench.bench, hprepare, Except.map, bind, Except.bind]
  · left
    refine ⟨?_, p.tasks.toNat * Task.bytes, by rw [hrooms]; simp, Nat.lt_of_not_le htasks⟩
    have hprepare := Bench.prepare_of_no_room (C := C) hp g (Nat.lt_of_not_le htasks)
    simp only [TxnBench.bench, hprepare, bind, Except.bind]

end Sequential

end TxnBench
