import TxnBench.Proofs.Benchmarks
import TxnBench.Proofs.Sequential.SteadyWorkers

/-!
# Outcomes of benchmarks

What a benchmark on a collection that refuses nothing reports is what becomes of a plain map on which all that it has drawn is
carried out in order (`Steady.bench`): the number of its workers, the limit on their batches and the collection decide only
whether there is room for its lists. So all benchmarks of one workload that have room have one outcome
(`Config.outcome_depends_on_workload`). The time that the workers take shows in nothing but itself (`bench_elapsed`).
-/

namespace TxnBench

/-- The draws of a run do not depend on who carries out its tasks. -/
theorem Params.draws_congr {p p' : Params} (htasks : p'.tasks = p.tasks) (hinserts : p'.inserts = p.inserts)
    (hremoves : p'.removes = p.removes) {G : Type} [Source G] (g : G) : p'.draws g = p.draws g := by
  unfold draws
  rw [htasks, hinserts, hremoves]

/-- The entries that a run puts in place before its workload. -/
def Drawn.populated {G : Type} (d : Drawn G) : Contents UInt64 UInt64 :=
  Contents.performAll ∅ (d.entries.map Task.action)

/-- A report says what becomes of a plain map on which everything that a run draws is carried out in order. -/
structure Report.Replays (r : Report) {G : Type} (d : Drawn G) : Prop where
  initial : r.initial.toNat = d.populated.size
  succeeded : r.total.succeeded.toNat = d.tasks.length
  failed : r.total.failed.toNat = 0
  inserts : r.total.inserts.toNat = insertions (d.populated.record (d.tasks.map Task.action))
  removes : r.total.removes.toNat = removals (d.populated.record (d.tasks.map Task.action))
  expected : r.expected = (d.populated.performAll (d.tasks.map Task.action)).size
  actual : r.actual = UInt64.ofNat (d.populated.performAll (d.tasks.map Task.action)).size

namespace Sequential

variable {C : Collection UInt64 UInt64} {Q : Sequential C} {G : Type} [Source G] {p : Params} {g : G} {d : Drawn G}

/-- A collection at rest holds the entries of one map only. -/
theorem contents_unique {s : C.State} {m m' : Contents UInt64 UInt64} (h : Q.Rests s m) (h' : Q.Rests s m') : m = m' :=
  Std.ExtTreeMap.ext_getElem? fun k => (Q.find h k).symm.trans (Q.find h' k)

/-- A benchmark that is over has prepared, run its workers and added up what they have counted. -/
theorem of_bench {elapsed : Duration} {fin : Bench.Finished C G} (h : bench C p elapsed g = .ok fin) :
    ∃ ready, Bench.prepare C p g = .ok ready ∧
      runWorkers C ready.tasks p.threads p.perTxn ready.state = (.ok fin.report.workers, fin.state) ∧
      fin.source = ready.source ∧
      Report.aggregate ready.initial fin.report.workers (C.size fin.state) elapsed = .ok fin.report := by
  obtain ⟨ready, hprepare, h⟩ := bind_eq_ok_iff.mp h
  refine ⟨ready, hprepare, ?_⟩
  obtain ⟨executed, hexecute, h⟩ := bind_eq_ok_iff.mp h
  rcases hran : runWorkers C ready.tasks p.threads p.perTxn ready.state with ⟨result, state⟩
  unfold Bench.Ready.execute at hexecute
  rw [hran] at hexecute
  obtain ⟨workers, rfl, hexecute⟩ := bind_eq_ok_iff.mp hexecute
  cases hexecute
  unfold Bench.Executed.report at h
  obtain ⟨report, hreport, h⟩ := bind_eq_ok_iff.mp h
  cases haggregate : Report.aggregate ready.initial workers (C.size state) elapsed with
  | error f =>
    rw [haggregate] at hreport
    cases hreport
  | ok r =>
    rw [haggregate] at hreport
    cases hreport
    cases h
    obtain ⟨-, hworkers, -⟩ := Report.of_aggregate haggregate
    cases hworkers
    exact ⟨rfl, rfl, haggregate⟩

/-- The time that the workers take shows in nothing but itself. -/
theorem bench_elapsed (elapsed elapsed' : Duration) :
    bench C p elapsed' g =
      (bench C p elapsed g).map fun fin => { fin with report := { fin.report with elapsed := elapsed' } } := by
  unfold bench
  cases Bench.prepare C p g with
  | error e => rfl
  | ok ready =>
    change ready.execute p >>= (fun executed => executed.report elapsed') =
      (ready.execute p >>= fun executed => executed.report elapsed).map _
    cases ready.execute p with
    | error e => rfl
    | ok executed =>
      change executed.report elapsed' = (executed.report elapsed).map _
      unfold Bench.Executed.report Report.aggregate
      cases Stats.sum executed.workers with
      | error f => rfl
      | ok total =>
        simp only [bind, Except.bind]
        cases Word.signed .add (Word.toSigned executed.initial + Word.toSigned total.inserts) with
        | error f => rfl
        | ok grown =>
          simp only
          cases Word.signed .sub (grown - Word.toSigned total.removes) <;> rfl


namespace Steady

/-- If nothing is refused and there is room for its lists, a run puts its entries in place and hands its tasks to the workers. -/
theorem exists_prepared (hQ : Q.Steady) (hempty : Q.Rests C.empty ∅) (hp : p.Feasible) (hd : p.draws g = some d)
    (hroom : p.tasks.toNat * Task.bytes ≤ Capacity.limit) :
    ∃ initial s, Bench.prepare C p g = .ok ⟨d.tasks, initial, s, d.source⟩ ∧ Q.Rests s d.populated ∧
      d.populated.size = initial.toNat ∧ initial.toNat ≤ p.tasks.toNat / 10 := by
  have hprepare := Bench.prepare_of_room (C := C) hp hd hroom
  obtain ⟨composition, drawn, shuffling, hdraws⟩ := Params.of_draws hp hd
  rcases hQ.unbroken.populate hempty hdraws.entries with
    ⟨initial, s, hpopulate, hrests, hsize, hle⟩ | ⟨why, s, g₁, -, -, hnot⟩
  · rw [hpopulate] at hprepare
    rw [toNat_initialEntries] at hle
    rw [Std.ExtTreeMap.size_empty, Nat.zero_add] at hsize
    exact ⟨initial, s, hprepare, hrests, hsize, hle⟩
  · exact absurd hQ hnot

/-- If nothing is refused, a benchmark whose lists have room comes to its end, and its report is the one that a plain map
would give. -/
theorem bench (hQ : Q.Steady) (htruth : Q.Truthful) (hempty : Q.Rests C.empty ∅) (hp : p.Feasible) (hd : p.draws g = some d)
    (hroom : ∀ bytes ∈ p.rooms, bytes ≤ Capacity.limit) (elapsed : Duration) :
    ∃ fin, TxnBench.bench C p elapsed g = .ok fin ∧ fin.report.Replays d ∧ fin.report.isConsistent ∧
      fin.source = d.source := by
  rw [Params.rooms_eq hp] at hroom
  have htasks := hroom _ List.mem_cons_self
  have hthreads := hroom _ (List.mem_cons_of_mem _ List.mem_cons_self)
  have hlength := Params.length_of_draws hp hd
  have hlen := p.tasks.toNat_lt
  rw [← hlength] at hlen
  obtain ⟨initial, s, hprepare, hrests, hsize, hle⟩ := hQ.exists_prepared hempty hp hd htasks
  have hbound : p.tasks.toNat * 24 ≤ 2 ^ 63 - 1 := htasks
  obtain ⟨fin, m, hbench, hfound⟩ :=
    hQ.unbroken.bench_of_prepare hp hprepare hrests hsize hlength (by omega) hthreads elapsed
  obtain ⟨ready, hready, hran, hsource, haggregate⟩ := of_bench hbench
  cases hprepare.symm.trans hready
  obtain ⟨stats, s', hran', hrests', -, hinserts, hremoves⟩ := hQ.runWorkers hrests p.perTxn hp.threads hlen hthreads
  cases hran'.symm.trans hran
  cases contents_unique hfound.rests hrests'
  obtain ⟨hinitial, -, -⟩ := Report.of_aggregate haggregate
  have hconsistent := hfound.isConsistent_iff.mpr (htruth hrests')
  refine ⟨fin, hbench, ⟨?_, ?_, ?_, ?_, ?_, hfound.expected, ?_⟩, hconsistent, hsource⟩
  · rw [hinitial, hsize]
  · rw [hlength]
    exact hfound.count_succeeded hQ hp hlength
  · exact (hfound.total .failed).symm.trans (sum_failed hfound.workers hQ)
  · exact (hfound.total .inserts).symm.trans hinserts
  · exact (hfound.total .removes).symm.trans hremoves
  · rw [hfound.actual, htruth hrests']

/-- If nothing is refused, the only benchmark that breaks off is one with a list that has no room. -/
theorem bench_of_no_room (hQ : Q.Steady) (hempty : Q.Rests C.empty ∅) (hp : p.Feasible) (hd : p.draws g = some d)
    (hroom : ∃ bytes ∈ p.rooms, Capacity.limit < bytes) (elapsed : Duration) :
    TxnBench.bench C p elapsed g = .error (.fault .capacity) := by
  rw [Params.rooms_eq hp] at hroom
  by_cases htasks : p.tasks.toNat * Task.bytes ≤ Capacity.limit
  · have hthreads : Capacity.limit < p.threads.toNat * Workers.handleBytes := by
      simpa [Nat.not_lt.mpr htasks] using hroom
    obtain ⟨initial, s, hprepare, -⟩ := hQ.exists_prepared hempty hp hd htasks
    have hran := Workers.run_of_no_room C d.tasks p.perTxn s hp.threads hthreads
    simp only [TxnBench.bench, hprepare, bind, Except.bind, Bench.Ready.execute, hran]
  · have hprepare := Bench.prepare_of_no_room (C := C) hp g (Nat.lt_of_not_le htasks)
    simp only [TxnBench.bench, hprepare, bind, Except.bind]

end Steady

end Sequential

/-- Two benchmarks of one workload, drawn from one source, differ in the time they take and in nothing else that is summed up or
left over: be it in how many workers there are, in the limit on their batches or in the collection. Neither comes to its end if
one of its own lists has no room in the address space; if all have room, both do, and their reports agree in the entries before
and after, in those expected, and in what all workers together have counted of each task, and the source is left the same. -/
theorem Config.outcome_depends_on_workload {kind kind' : CollectionKind} {p p' : Params} {runs runs' : UInt64}
    {seed seed' : Option UInt64} {c c' : Config} (hc : make kind p runs seed = .ok c) (hc' : make kind' p' runs' seed' = .ok c')
    (htasks : p'.tasks = p.tasks) (hinserts : p'.inserts = p.inserts) (hremoves : p'.removes = p.removes)
    (hi : p.tasks.toNat * p.inserts.toNat < 2 ^ 64) (hr : p.tasks.toNat * p.removes.toNat < 2 ^ 64) {G : Type} [Source G] (g : G)
    (hd : (p.draws g).isSome) (elapsed elapsed' : Duration) :
    let ran := bench kind.collection p elapsed g
    let ran' := bench kind'.collection p' elapsed' g
    ((∃ bytes ∈ p.rooms, Capacity.limit < bytes) → ran = .error (.fault .capacity)) ∧
    ((∃ bytes ∈ p'.rooms, Capacity.limit < bytes) → ran' = .error (.fault .capacity)) ∧
    ((∀ bytes ∈ p.rooms ++ p'.rooms, bytes ≤ Capacity.limit) → ∃ fin fin', ran = .ok fin ∧ ran' = .ok fin' ∧
      fin'.report.initial = fin.report.initial ∧
      fin'.report.total.succeeded = fin.report.total.succeeded ∧ fin'.report.total.failed = fin.report.total.failed ∧
      fin'.report.total.inserts = fin.report.total.inserts ∧ fin'.report.total.removes = fin.report.total.removes ∧
      fin'.report.expected = fin.report.expected ∧ fin'.report.actual = fin.report.actual ∧ fin'.source = fin.source) := by
  intro ran ran'
  have hp := feasible hc hi hr
  have hp' := feasible hc' (by rwa [htasks, hinserts]) (by rwa [htasks, hremoves])
  obtain ⟨d, hd⟩ := Option.isSome_iff_exists.mp hd
  have hd' := (Params.draws_congr htasks hinserts hremoves g).trans hd
  refine ⟨?_, ?_, ?_⟩
  · exact fun hroom => kind.steady.bench_of_no_room kind.rests_empty hp hd hroom elapsed
  · exact fun hroom => kind'.steady.bench_of_no_room kind'.rests_empty hp' hd' hroom elapsed'
  · intro hroom
    obtain ⟨hroom, hroom'⟩ := List.forall_mem_append.mp hroom
    obtain ⟨fin, hbench, h, -, hsource⟩ := kind.steady.bench kind.truthful kind.rests_empty hp hd hroom elapsed
    obtain ⟨fin', hbench', h', -, hsource'⟩ := kind'.steady.bench kind'.truthful kind'.rests_empty hp' hd' hroom' elapsed'
    refine ⟨fin, fin', hbench, hbench', ?_, ?_, ?_, ?_, ?_, ?_, ?_, ?_⟩
    · exact UInt64.toNat_inj.mp (h'.initial.trans h.initial.symm)
    · exact UInt64.toNat_inj.mp (h'.succeeded.trans h.succeeded.symm)
    · exact UInt64.toNat_inj.mp (h'.failed.trans h.failed.symm)
    · exact UInt64.toNat_inj.mp (h'.inserts.trans h.inserts.symm)
    · exact UInt64.toNat_inj.mp (h'.removes.trans h.removes.symm)
    · exact h'.expected.trans h.expected.symm
    · exact h'.actual.trans h.actual.symm
    · exact hsource'.trans hsource.symm

/-- One worker on the striped collection, with all its tasks in one transaction, and three on the locked one, with two tasks in
each, have one outcome. -/
theorem Config.one_worker_and_three_agree :
    let p : Params := ⟨1, 20, 0, 40, 30⟩
    let p' : Params := ⟨3, 20, 2, 40, 30⟩
    let g : Stepping := ⟨0x2000000000000001, 0x3000000000000001⟩
    ∃ fin fin', bench (CollectionKind.collection .striped) p ⟨1, 0⟩ g = .ok fin ∧
      bench (CollectionKind.collection .locked) p' ⟨2, 0⟩ g = .ok fin' ∧
      fin'.report.total.inserts = fin.report.total.inserts ∧ fin'.report.total.removes = fin.report.total.removes ∧
      fin'.report.actual = fin.report.actual ∧ fin'.source = fin.source := by
  intro p p' g
  have hc : make .striped p 1 none = .ok ⟨.striped, p, 1, none⟩ := rfl
  have hc' : make .locked p' 1 none = .ok ⟨.locked, p', 1, none⟩ := rfl
  obtain ⟨-, -, hagree⟩ := outcome_depends_on_workload hc hc' rfl rfl rfl (by decide) (by decide) g (by decide +kernel)
    ⟨1, 0⟩ ⟨2, 0⟩
  obtain ⟨fin, fin', hbench, hbench', -, -, -, hinserts, hremoves, -, hactual, hsource⟩ := hagree (by decide)
  exact ⟨fin, fin', hbench, hbench', hinserts, hremoves, hactual, hsource⟩

/-- Of two benchmarks of one workload one may have more workers than there is room to keep hold of, and then it alone has no
report; and if there is no room for the tasks, neither has one. -/
theorem Config.no_outcome_without_room :
    let p : Params := ⟨1, 0, 1, 0, 0⟩
    let p' : Params := ⟨384307168202282326, 0, 1, 0, 0⟩
    let q : Params := ⟨1, 1152921504606846976, 0, 0, 0⟩
    ((∃ c, make .locked p 1 none = .ok c) ∧ (∃ c, make .locked p' 1 none = .ok c) ∧ (p.draws Stepping.still).isSome ∧
      (∃ fin, bench (CollectionKind.collection .locked) p ⟨1, 0⟩ Stepping.still = .ok fin) ∧
      bench (CollectionKind.collection .locked) p' ⟨1, 0⟩ Stepping.still = .error (.fault .capacity)) ∧
    ((∃ c, make .locked q 1 none = .ok c) ∧ (q.draws Stepping.still).isSome ∧
      bench (CollectionKind.collection .locked) q ⟨1, 0⟩ Stepping.still = .error (.fault .capacity)) := by
  intro p p' q
  have hp : p.Feasible := ⟨by decide, by decide, by decide, by decide⟩
  have hp' : p'.Feasible := ⟨by decide, by decide, by decide, by decide⟩
  have hq : q.Feasible := ⟨by decide, by decide, by decide, by decide⟩
  have hdraws := Params.draws_still hp
  have hdraws' := Params.draws_still hq
  obtain ⟨d, hd⟩ := Option.isSome_iff_exists.mp hdraws
  obtain ⟨d', hd'⟩ := Option.isSome_iff_exists.mp hdraws'
  have hsteady := CollectionKind.steady .locked
  have hempty := CollectionKind.rests_empty .locked
  obtain ⟨fin, hbench, -⟩ := hsteady.bench (CollectionKind.truthful .locked) hempty hp hd (by decide) ⟨1, 0⟩
  refine ⟨⟨⟨_, rfl⟩, ⟨_, rfl⟩, hdraws, ⟨fin, hbench⟩, ?_⟩, ⟨_, rfl⟩, hdraws', ?_⟩
  · exact hsteady.bench_of_no_room hempty hp' ((Params.draws_congr rfl rfl rfl _).trans hd) (by decide) ⟨1, 0⟩
  · exact hsteady.bench_of_no_room hempty hq hd' (by decide) ⟨1, 0⟩

end TxnBench
