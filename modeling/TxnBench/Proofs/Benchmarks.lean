import TxnBench.Proofs.Sequential.Bench

/-!
# Benchmarks and the sizes they report

A report is consistent exactly if the collection tells the truth about its size (`Benched.isConsistent_iff`). So no benchmark
of the striped or the locked collection is ever found inconsistent, each comes to its end with every task carried out, and
of the faulty collection, whatever it turns down, just those are found inconsistent that misstate their size.
-/

namespace TxnBench

/-- A configuration that was made can be printed. -/
theorem Config.exists_text {kind : CollectionKind} {p : Params} {runs : UInt64} {seed : Option UInt64} {c : Config}
    (h : make kind p runs seed = .ok c) : ∃ text, c.text = .ok text := by
  obtain ⟨-, rfl, -, hshares⟩ := of_make h
  have hi : c.params.inserts.toUInt64.toNat = c.params.inserts.toNat := UInt8.toNat_toUInt64 _
  have hr : c.params.removes.toUInt64.toNat = c.params.removes.toNat := UInt8.toNat_toUInt64 _
  obtain ⟨rest, hrest⟩ : ∃ rest, Word.minus 100 c.params.inserts.toUInt64 = .ok rest :=
    ⟨_, if_pos (by rw [hi]; change _ ≤ 100; omega)⟩
  have hexact : c.params.inserts.toUInt64.toNat + rest.toNat = 100 := Word.minus_eq_ok_iff.mp hrest
  obtain ⟨lookups, hlookups⟩ : ∃ lookups, Word.minus rest c.params.removes.toUInt64 = .ok lookups :=
    ⟨_, if_pos (by rw [hr]; omega)⟩
  simp only [text, Config.lookups, hrest, bind, Except.bind, hlookups]
  exact ⟨_, rfl⟩

/-! ## What a report finds -/

namespace Sequential

variable {C : Collection UInt64 UInt64} {Q : Sequential C} {G : Type} {p : Params} {d : Drawn G}
  {fin : Bench.Finished C G} {m : Contents UInt64 UInt64}

/-- A report is consistent exactly if the collection tells the truth about its size. -/
theorem Benched.isConsistent_iff (h : Benched Q p d fin m) :
    fin.report.isConsistent ↔ C.size fin.state = UInt64.ofNat m.size := by
  have hlt := h.size_lt
  have hsize : (UInt64.ofNat m.size).toNat = m.size := UInt64.toNat_ofNat_of_lt' (show m.size < 2 ^ 64 by omega)
  rw [Report.isConsistent_iff, h.actual, h.expected, ← UInt64.toNat_inj, hsize]
  omega

/-- No counter of all workers together stands higher than there are tasks. -/
theorem Benched.count_le (h : Benched Q p d fin m) (hp : p.Feasible) (hlength : d.tasks.length = p.tasks.toNat)
    (c : Counter) : fin.report.total.count c ≤ p.tasks.toNat := by
  have hle := sum_count_le h.workers c
  rw [Workers.sum_length_slices hlength hp.threads, hlength, h.total] at hle
  exact hle

/-- If nothing is refused, every task has succeeded. -/
theorem Benched.count_succeeded (h : Benched Q p d fin m) (hQ : Q.Steady) (hp : p.Feasible)
    (hlength : d.tasks.length = p.tasks.toNat) : fin.report.total.count .succeeded = p.tasks.toNat := by
  have hcounted := sum_counted h.workers
  rw [sum_failed h.workers hQ, Workers.sum_length_slices hlength hp.threads, hlength, h.total] at hcounted
  exact hcounted

end Sequential

/-! ## The collections that are benchmarked -/

namespace CollectionKind

/-- Each of the collections is a plain map to transactions that do not overlap. -/
def sequential (kind : CollectionKind) : Sequential kind.collection :=
  match kind with
  | .striped => Striped.sequential _
  | .locked => Locked.sequential UInt64 UInt64

theorem steady (kind : CollectionKind) : kind.sequential.Steady := by
  cases kind with
  | striped => exact Striped.steady _
  | locked => exact Locked.steady

theorem truthful (kind : CollectionKind) : kind.sequential.Truthful := by
  cases kind with
  | striped => exact Striped.truthful _
  | locked => exact Locked.truthful

theorem rests_empty (kind : CollectionKind) : kind.sequential.Rests kind.collection.empty ∅ := by
  cases kind with
  | striped => exact Striped.rests_empty _
  | locked => rfl

end CollectionKind

/-- A configuration that was made, and whose shares can be computed, is printed and run to its end, on either collection and
with any source whose draws do not give up, if its lists have room in the address space. There is a report on each worker,
who has carried out just the tasks of its slice, of which none failed; all tasks together succeeded, no number changes when
it becomes a signed word, and the collection has the size expected. -/
theorem Config.bench_carries_out_all {kind : CollectionKind} {p : Params} {runs : UInt64} {seed : Option UInt64} {c : Config}
    (hc : make kind p runs seed = .ok c) (hi : p.tasks.toNat * p.inserts.toNat < 2 ^ 64)
    (hr : p.tasks.toNat * p.removes.toNat < 2 ^ 64) (hroom : ∀ bytes ∈ p.rooms, bytes ≤ Capacity.limit) {G : Type}
    [Source G] (g : G) (hd : (p.draws g).isSome) (elapsed : Duration) :
    (∃ text, c.text = .ok text) ∧
      ∃ fin, bench c.collection.collection c.params elapsed g = .ok fin ∧
        fin.report.workers.length = p.threads.toNat ∧
        (∀ i < p.threads.toNat, ∃ slice stats ops, Slice.ofWorker p.tasks p.threads (UInt64.ofNat i) = .ok slice ∧
          fin.report.workers[i]? = some stats ∧ stats.ops = .ok ops ∧
          ops.toNat = slice.stop.toNat - slice.start.toNat ∧ stats.failed = 0 ∧ stats.aborted = 0) ∧
        fin.report.total.succeeded = p.tasks ∧
        (∀ n ∈ [fin.report.initial, fin.report.total.inserts, fin.report.total.removes], Word.toSigned n = n.toNat) ∧
        fin.report.isConsistent := by
  have hp := feasible hc hi hr
  have htext := exists_text hc
  obtain ⟨rfl, rfl, -, -⟩ := of_make hc
  obtain ⟨d, hd⟩ := Option.isSome_iff_exists.mp hd
  have hlength := Params.length_of_draws hp hd
  have hsteady := c.collection.steady
  refine ⟨htext, ?_⟩
  rcases hsteady.unbroken.bench c.collection.rests_empty hp hd elapsed with
    ⟨-, bytes, hmem, hlt⟩ | ⟨why, -, -, hnot⟩ | ⟨fin, m, hbench, hfound⟩
  · exact absurd (hroom bytes hmem) (Nat.not_le.mpr hlt)
  · exact absurd hsteady hnot
  · refine ⟨fin, hbench, ?_, ?_, ?_, ?_, ?_⟩
    · rw [Sequential.length_workers hfound.workers, Workers.length_slices]
    · intro i hi
      obtain ⟨stats, hstats, hworked⟩ := Sequential.exists_worked hfound.workers (Workers.getElem?_slices hlength hi)
      obtain ⟨hfailed, haborted⟩ := hworked.steady hsteady
      have hfailed : stats.failed = 0 := UInt64.toNat_inj.mp hfailed
      have haborted : stats.aborted = 0 := UInt64.toNat_inj.mp haborted
      have hops : stats.ops = .ok stats.succeeded := by
        unfold Stats.ops
        rw [hfailed]
        exact Word.plus_zero _
      have hcounted : stats.succeeded.toNat + stats.failed.toNat = _ := hworked.counted
      rw [hfailed, Slice.length_of_given hlength hi] at hcounted
      exact ⟨_, stats, _, Slice.ofWorker_eq _ hi, hstats, hops, hcounted, hfailed, haborted⟩
    · exact UInt64.toNat_inj.mp (hfound.count_succeeded hsteady hp hlength)
    · intro n hn
      have hinitial := hfound.initial_lt
      have hinserts : fin.report.total.inserts.toNat ≤ _ := hfound.count_le hp hlength .inserts
      have hremoves : fin.report.total.removes.toNat ≤ _ := hfound.count_le hp hlength .removes
      apply Word.toSigned_of_lt
      simp only [List.mem_cons, List.not_mem_nil, or_false] at hn
      rcases hn with rfl | rfl | rfl <;> omega
    · exact hfound.isConsistent_iff.mpr (c.collection.truthful hfound.rests)

/-- Two workers carry out five tasks on the striped collection. -/
theorem Config.bench_of_five_tasks :
    let p : Params := ⟨2, 5, 2, 40, 20⟩
    let g : Stepping := ⟨3, 0x3000000000000001⟩
    ∃ fin, bench (CollectionKind.collection .striped) p ⟨1, 0⟩ g = .ok fin ∧ fin.report.workers.length = 2 ∧
      fin.report.total.succeeded = 5 ∧ fin.report.isConsistent := by
  intro p g
  have hc : make .striped p 1 none = .ok ⟨.striped, p, 1, none⟩ := rfl
  obtain ⟨-, fin, hbench, hlength, -, hsucceeded, -, hconsistent⟩ :=
    bench_carries_out_all hc (by decide) (by decide) (by decide) g (by decide +kernel) ⟨1, 0⟩
  exact ⟨fin, hbench, hlength, hsucceeded, hconsistent⟩

/-! ## The faulty collection -/

/-- The consistency of a report tells whether the faulty collection, which is not told to break at a key, states its size as
it is, whatever it turns down. A benchmark on it ends without a report only because it was turned down while the collection
was populated, or because a list had no room in the address space; every report expects the entries there are, and is
consistent exactly if the size is not misstated. -/
theorem Faulty.isConsistent_iff_truthful (f : Failures) (hf : f.breaking = none) {kind : CollectionKind} {p : Params}
    {runs : UInt64} {seed : Option UInt64} {c : Config} (hc : Config.make kind p runs seed = .ok c)
    (hi : p.tasks.toNat * p.inserts.toNat < 2 ^ 64) (hr : p.tasks.toNat * p.removes.toNat < 2 ^ 64) {G : Type} [Source G]
    (g : G) {d : Drawn G} (hd : p.draws g = some d) (elapsed : Duration) :
    (∀ e, bench (collection f) p elapsed g = .error e →
      (∃ why, e = .failed (.populate why) ∧
        (populate (collection f) (initialEntries p.tasks) d.range (collection f).empty d.between).1 = .error e) ∨
      (e = .fault .capacity ∧ ∃ bytes ∈ p.rooms, Capacity.limit < bytes)) ∧
    ∀ fin, bench (collection f) p elapsed g = .ok fin →
      let entries := State.entries fin.state
      fin.report.expected = entries.size ∧ (fin.report.isConsistent ↔ f.offset = 0) ∧
        (f.offset = 0 ↔ ((collection f).size fin.state).toNat = entries.size) := by
  have hp := Config.feasible hc hi hr
  have hempty : (sequential f).Rests (collection f).empty ∅ := rfl
  rcases (unbroken f hf).bench hempty hp hd elapsed with
    ⟨hbench, hnoroom⟩ | ⟨why, hpopulate, hbench, -⟩ | ⟨fin, m, hbench, hfound⟩
  · constructor
    · intro e he
      cases hbench.symm.trans he
      exact Or.inr ⟨rfl, hnoroom⟩
    · intro fin hfin
      cases hbench.symm.trans hfin
  · constructor
    · intro e he
      cases hbench.symm.trans he
      exact Or.inl ⟨why, rfl, hpopulate⟩
    · intro fin hfin
      cases hbench.symm.trans hfin
  · constructor
    · intro e he
      cases hbench.symm.trans he
    · intro fin' hfin entries
      cases hbench.symm.trans hfin
      have hrests : entries = m := hfound.rests
      have hlt := hfound.size_lt
      rw [← hrests] at hlt
      have hsize : (collection f).size fin.state = UInt64.ofNat entries.size + f.offset := rfl
      have htruth : f.offset = 0 ↔ (collection f).size fin.state = UInt64.ofNat entries.size := by
        rw [hsize]
        exact UInt64.add_eq_left.symm
      refine ⟨?_, ?_, ?_⟩
      · rw [hfound.expected, ← hrests]
      · rw [hfound.isConsistent_iff, ← hrests, htruth]
      · rw [htruth, ← UInt64.toNat_inj, UInt64.toNat_ofNat_of_lt' (show entries.size < 2 ^ 64 by omega)]

/-- Of six batches three are turned down; the report on them expects the entries there are, and finds the size misstated. -/
theorem Faulty.misstated_size_is_found :
    let f : Failures := { poison := 7, period := 3, offset := 5 }
    let p : Params := ⟨2, 12, 2, 50, 25⟩
    let g : Stepping := ⟨0x2000000000000001, 0x3000000000000001⟩
    ∃ fin, bench (collection f) p ⟨1, 0⟩ g = .ok fin ∧ fin.report.total.aborted = 3 ∧
      fin.report.expected = (State.entries fin.state).size ∧ ¬fin.report.isConsistent := by
  intro f p g
  have hc : Config.make .locked p 1 none = .ok ⟨.locked, p, 1, none⟩ := rfl
  obtain ⟨d, hd⟩ := Option.isSome_iff_exists.mp (show (p.draws g).isSome by decide +kernel)
  obtain ⟨-, hreport⟩ := isConsistent_iff_truthful f rfl hc (by decide) (by decide) g hd ⟨1, 0⟩
  have hran : (bench (collection f) p ⟨1, 0⟩ g).toOption.map (fun fin => fin.report.total.aborted) = some 3 := by
    decide +kernel
  cases hbench : bench (collection f) p ⟨1, 0⟩ g with
  | error e =>
    rw [hbench] at hran
    cases hran
  | ok fin =>
    rw [hbench] at hran
    obtain ⟨hexpected, hconsistent, -⟩ := hreport fin hbench
    exact ⟨fin, rfl, Option.some.inj hran, hexpected, fun h => absurd (hconsistent.mp h) (by decide)⟩

/-- The task list of an accepted run may have no room in the address space, and then there is no report, though nothing was
turned down and every draw ends. -/
theorem Faulty.no_report_without_room :
    let p : Params := ⟨1, 1152921504606846976, 0, 0, 0⟩
    (∃ c, Config.make .locked p 1 none = .ok c) ∧ p.tasks.toNat * p.inserts.toNat < 2 ^ 64 ∧
      p.tasks.toNat * p.removes.toNat < 2 ^ 64 ∧ (p.draws Stepping.still).isSome ∧
      bench (collection {}) p ⟨1, 0⟩ Stepping.still = .error (.fault .capacity) := by
  intro p
  have hp : p.Feasible := ⟨by decide, by decide, by decide, by decide⟩
  have hprepare : Bench.prepare (collection {}) p Stepping.still = .error (.fault .capacity) :=
    Bench.prepare_of_no_room hp _ (by decide)
  refine ⟨⟨⟨.locked, p, 1, none⟩, rfl⟩, hp.inserts, hp.removes, Params.draws_still hp, ?_⟩
  simp only [bench, hprepare, bind, Except.bind]

end TxnBench
