import Mathlib.Data.List.Forall2
import TxnBench.Proofs.Sequential.Batches
import TxnBench.Proofs.Sequential.Striped
import TxnBench.Proofs.Sequential.Workers

/-!
# Workers of a collection that refuses nothing

On a collection that refuses nothing, workers that run one after another do what one plain map does with all tasks in their
order (`Steady.runWorkers`). Neither the number of the workers nor the limit on their batches shows in the entries they leave or
in what they count as inserted and removed; only how many batches each has committed follows from its slice and the limit. The
striped collection, whatever its stripes, and the locked one are such collections (`Measured`), so they do the same
(`Measured.workers_replay_tasks`).
-/

namespace TxnBench

namespace Attempt

/-- A counter that every committed batch counts the same for. -/
theorem sum_count_of_committed {attempts : List Attempt} (h : ∀ a ∈ attempts, a.fate = .committed) {c : Counter} {n : Nat}
    (hn : ∀ made, count ⟨made, .committed⟩ c = n) : (attempts.map fun a => a.count c).sum = attempts.length * n := by
  induction attempts with
  | nil => simp
  | cons a rest ih =>
    have hfate := h a List.mem_cons_self
    have hrest := ih fun b hb => h b (List.mem_cons_of_mem a hb)
    obtain ⟨made, fate⟩ := a
    cases hfate
    rw [List.map_cons, List.sum_cons, hrest, hn, List.length_cons, Nat.succ_mul, Nat.add_comm]

end Attempt

/-- What a worker reports whose every batch was committed. -/
structure Stats.AllCommitted (limit : UInt64) (slice : List Task) (stats : Stats) : Prop where
  failed : stats.count .failed = 0
  aborted : stats.count .aborted = 0
  /-- Every batch has as many tasks as the limit says but for the last. -/
  committed : stats.count .committed = Worker.batches limit slice.length

namespace Workers

variable {C : Collection UInt64 UInt64} {limit : UInt64} {s s' : C.State} {slices : List (List Task)}
  {courses : List (List Attempt)} {results : List (Except Fault Stats)}

/-- Workers whose batches were all committed report each what that makes of its slice. -/
theorem Courses.allCommitted (h : Courses C limit s slices courses s') (hr : List.Forall₂ Worker.Reports courses results)
    (hall : ∀ attempts ∈ courses, ∀ a ∈ attempts, a.fate = .committed) :
    ∃ workers, results = workers.map .ok ∧ List.Forall₂ (Stats.AllCommitted limit) slices workers := by
  induction h generalizing results with
  | none =>
    cases hr
    exact ⟨[], rfl, .nil⟩
  | @one s s₁ s' slice attempts todo slices rest course whole others ih =>
    cases hr with
    | @cons _ result _ results hreport hreports =>
      have hcommitted := hall attempts List.mem_cons_self
      have hwhole : ∀ a ∈ attempts, a.fate ≠ .broken := fun a ha e => nomatch (hcommitted a ha).symm.trans e
      obtain ⟨workers, rfl, hworkers⟩ := ih hreports fun other hother => hall other (List.mem_cons_of_mem attempts hother)
      obtain ⟨stats, rfl, -, hcount⟩ := hreport.exists_ok hwhole
      have hlength := course.length_add_batches hcommitted
      rw [whole hwhole] at hlength
      refine ⟨stats :: workers, rfl, .cons ⟨?_, ?_, ?_⟩ hworkers⟩
      · rw [hcount, Attempt.sum_count_of_committed hcommitted (n := 0) fun _ => rfl, Nat.mul_zero]
      · rw [hcount, Attempt.sum_count_of_committed hcommitted (n := 0) fun _ => rfl, Nat.mul_zero]
      · rw [hcount, Attempt.sum_count_of_committed hcommitted (n := 1) fun _ => rfl, Nat.mul_one]
        exact hlength

/-- What all workers together have counted is what all their batches count for. -/
theorem sum_count_of_reports {workers : List Stats} (hr : List.Forall₂ Worker.Reports courses (workers.map .ok)) (c : Counter) :
    (workers.map fun st => st.count c).sum = (courses.flatten.map fun a => a.count c).sum := by
  induction courses generalizing workers with
  | nil =>
    cases workers with
    | nil => rfl
    | cons => cases hr
  | cons attempts rest ih =>
    cases workers with
    | nil => cases hr
    | cons stats workers =>
      obtain ⟨⟨-, hcount⟩, hrest⟩ := List.forall₂_cons.mp hr
      rw [List.map_cons, List.sum_cons, hcount, ih hrest, List.flatten_cons, List.map_append, List.sum_append]

end Workers

namespace Sequential.Steady

variable {C : Collection UInt64 UInt64} {Q : Sequential C} {s : C.State} {m : Contents UInt64 UInt64}

/-- Workers that run one after another do what a plain map does with all their tasks in order. -/
theorem runEach (hQ : Q.Steady) (h : Q.Rests s m) (limit : UInt64) {slices : List (List Task)}
    (hlen : ∀ slice ∈ slices, slice.length < 2 ^ 64) :
    let calls := slices.flatten.map Task.action
    ∃ workers s', Workers.runEach C limit slices s = (workers.map .ok, s') ∧ Q.Rests s' (m.performAll calls) ∧
      List.Forall₂ (Stats.AllCommitted limit) slices workers ∧
      (workers.map fun st => st.count .inserts).sum = insertions (m.record calls) ∧
      (workers.map fun st => st.count .removes).sum = removals (m.record calls) := by
  intro calls
  obtain ⟨courses, hcourses, hreports⟩ := Workers.exists_courses (C := C) limit hlen s
  have hall := hQ.committed_of_courses h hcourses
  have hwhole : ∀ attempts ∈ courses, ∀ a ∈ attempts, a.fate ≠ .broken :=
    fun attempts hmem a ha e => nomatch (hall attempts hmem a ha).symm.trans e
  have hkept : Attempt.kept courses.flatten = courses.flatten := Attempt.kept_of_committed fun a ha => by
    obtain ⟨attempts, hmem, ha⟩ := List.mem_flatten.mp ha
    exact hall attempts hmem a ha
  obtain ⟨m', hrests, hreplays⟩ := rests_of_courses h hcourses
  have hcalls : (Attempt.keptCalls courses.flatten).map Call.action = calls := by
    rw [Attempt.map_action_keptCalls, hkept, hcourses.tasks_eq hwhole]
  have hm' := hreplays.eq_performAll
  have hrecord := hreplays.eq_record
  rw [hcalls] at hm' hrecord
  obtain ⟨workers, hresults, hworkers⟩ := hcourses.allCommitted hreports hall
  rw [hresults] at hreports
  refine ⟨workers, (Workers.runEach C limit slices s).2, Prod.ext hresults rfl, hm' ▸ hrests, hworkers, ?_, ?_⟩
  · rw [Workers.sum_count_of_reports hreports, Attempt.sum_count_inserts, hrecord]
  · rw [Workers.sum_count_of_reports hreports, Attempt.sum_count_removes, hrecord]

/-- Workers of a collection that refuses nothing do with the tasks what a plain map does, if there is room to keep hold of
them. -/
theorem runWorkers (hQ : Q.Steady) (h : Q.Rests s m) {tasks : List Task} {workers : UInt64} (limit : UInt64)
    (hw : workers ≠ 0) (hlen : tasks.length < 2 ^ 64) (hroom : workers.toNat * Workers.handleBytes ≤ Capacity.limit) :
    let calls := tasks.map Task.action
    ∃ stats s', TxnBench.runWorkers C tasks workers limit s = (.ok stats, s') ∧ Q.Rests s' (m.performAll calls) ∧
      List.Forall₂ (Stats.AllCommitted limit) (Workers.slices tasks workers) stats ∧
      (stats.map fun st => st.count .inserts).sum = insertions (m.record calls) ∧
      (stats.map fun st => st.count .removes).sum = removals (m.record calls) := by
  intro calls
  have hcount : tasks.length = (UInt64.ofNat tasks.length).toNat := (UInt64.toNat_ofNat_of_lt' hlen).symm
  have hshort : ∀ slice ∈ Workers.slices tasks workers, slice.length < 2 ^ 64 := fun slice hslice =>
    Workers.length_lt_of_mem_slices hcount hw hslice
  obtain ⟨stats, s', hran, hrests, hall, hinserts, hremoves⟩ := hQ.runEach h limit hshort
  rw [Workers.flatten_slices hcount hw] at hrests hinserts hremoves
  refine ⟨stats, s', ?_, hrests, hall, hinserts, hremoves⟩
  simp only [Workers.run_of_room C tasks limit s hw hroom, hran, Workers.join_ok]
  rfl

end Sequential.Steady

/-! ## A collection that is not empty at first -/

namespace Sequential.Steady

variable {K V : Type} [Ord K] [Std.TransOrd K] {C : Collection K V} {Q : Sequential C} {s : C.State} {m₀ m : Contents K V}

/-- Entries put in an open transaction are what it sees. -/
theorem putAll (hQ : Q.Steady) {t : C.Txn} (h : Q.Runs t s m₀ m) (entries : List (K × V)) :
    Q.Runs (C.putAll t s entries).1 (C.putAll t s entries).2 m₀ (m.performAll (entries.map fun e => .put e.1 e.2)) := by
  induction entries generalizing t s m with
  | nil => exact h
  | cons e rest ih =>
    rcases hput : C.put t s e.1 e.2 with ⟨reply, t', s'⟩
    have hcall : C.call t s (.put e.1 e.2) = (.ofValue reply, t', s') := by
      simp only [Collection.call, hput]
    have hok := hQ.call h (a := .put e.1 e.2) rfl
    rw [hcall] at hok
    obtain ⟨-, hruns⟩ := call_of_success h (a := .put e.1 e.2) rfl hcall hok
    have hcons : C.putAll t s (e :: rest) = C.putAll t' s' rest := by
      simp only [Collection.putAll, hput]
    rw [hcons]
    exact ih hruns

/-- Entries put before anything else are there. -/
theorem prefill (hQ : Q.Steady) (h : Q.Rests s m) (entries : List (K × V)) :
    Q.Rests (C.prefill s entries) (m.performAll (entries.map fun e => .put e.1 e.2)) := by
  cases entries with
  | nil => exact h
  | cons e rest =>
    have hruns := hQ.putAll (Q.start h) (e :: rest)
    exact commit_of_value hruns (Prod.ext (hQ.commit hruns) rfl)

end Sequential.Steady

/-! ## The collections that are measured -/

/-- The collections whose workers are measured: the striped one, with any stripes and any assignment of keys to them, and the
locked one. -/
inductive Measured : Collection UInt64 UInt64 → Prop where
  | striped {n : Nat} (place : UInt64 → Fin n) : Measured (Striped.collection place)
  | locked : Measured (Locked.collection UInt64 UInt64)

namespace Measured

variable {C : Collection UInt64 UInt64}

/-- A collection that is measured is a plain map to transactions that do not overlap, and refuses them nothing. -/
theorem exists_steady (h : Measured C) : ∃ Q : Sequential C, Q.Steady ∧ Q.Rests C.empty ∅ := by
  cases h with
  | striped place => exact ⟨Striped.sequential place, Striped.steady place, Striped.rests_empty place⟩
  | locked => exact ⟨Locked.sequential UInt64 UInt64, Locked.steady, rfl⟩

/-- Workers that run one after another do the same with the same tasks and entries, however many they are, whatever the limit
on their batches, and on either collection. If there is no room to keep hold of the workers, none is run. Otherwise they leave
the entries that a plain map has when all tasks are carried out on it in order; they count as inserted and removed, all
together, just the keys that its replay finds absent and present; nothing fails; and each has committed as many batches as its
slice makes under the limit. -/
theorem workers_replay_tasks (hC : Measured C) (entries : List (UInt64 × UInt64)) (tasks : List Task) (workers limit : UInt64)
    (hw : workers ≠ 0) (hlen : tasks.length < 2 ^ 64) :
    let s := C.prefill C.empty entries
    let m : Contents UInt64 UInt64 := Contents.performAll ∅ (entries.map fun e => .put e.1 e.2)
    let calls := tasks.map Task.action
    let ran := runWorkers C tasks workers limit s
    (Capacity.limit < workers.toNat * Workers.handleBytes → ran = (.error (.fault .capacity), s)) ∧
    (workers.toNat * Workers.handleBytes ≤ Capacity.limit →
      (∀ k, C.find ran.2 k = (m.performAll calls)[k]?) ∧
      ∃ stats, ran.1 = .ok stats ∧ stats.length = workers.toNat ∧
        (stats.map fun st => st.inserts.toNat).sum = insertions (m.record calls) ∧
        (stats.map fun st => st.removes.toNat).sum = removals (m.record calls) ∧
        (∀ st ∈ stats, st.failed = 0 ∧ st.aborted = 0) ∧
        ∀ i < workers.toNat, ∃ slice st,
          Slice.ofWorker (UInt64.ofNat tasks.length) workers (UInt64.ofNat i) = .ok slice ∧ stats[i]? = some st ∧
          st.committed.toNat = Worker.batches limit (slice.stop.toNat - slice.start.toNat)) := by
  intro s m calls ran
  refine ⟨fun hroom => Workers.run_of_no_room C tasks limit s hw hroom, ?_⟩
  intro hroom
  obtain ⟨Q, hQ, hempty⟩ := hC.exists_steady
  obtain ⟨stats, s', hran, hrests, hall, hinserts, hremoves⟩ :=
    hQ.runWorkers (hQ.prefill hempty entries) limit hw hlen hroom
  have hran : ran = (.ok stats, s') := hran
  have hcount : tasks.length = (UInt64.ofNat tasks.length).toNat := (UInt64.toNat_ofNat_of_lt' hlen).symm
  have hlength : stats.length = workers.toNat := by
    rw [← hall.length_eq, Workers.length_slices]
  rw [hran]
  refine ⟨Q.find hrests, stats, rfl, hlength, hinserts, hremoves, ?_, ?_⟩
  · intro st hst
    obtain ⟨i, hi, rfl⟩ := List.getElem_of_mem hst
    obtain ⟨hfailed, haborted, -⟩ := hall.get (by rw [hall.length_eq]; exact hi) hi
    exact ⟨UInt64.toNat_inj.mp hfailed, UInt64.toNat_inj.mp haborted⟩
  · intro i hi
    have hslice := Workers.getElem?_slices hcount hi
    obtain ⟨hi', hget⟩ := List.getElem?_eq_some_iff.mp hslice
    have hst : i < stats.length := by rw [hlength]; exact hi
    obtain ⟨-, -, hcommitted⟩ := hall.get hi' hst
    refine ⟨_, stats[i], Slice.ofWorker_eq _ hi, List.getElem?_eq_getElem hst, ?_⟩
    rw [← Slice.length_of_given hcount hi, ← hget]
    exact hcommitted

/-- Two workers with five tasks, of which the second has a batch cut short: the key they both change is counted as on a plain
map, and so are the batches. -/
theorem two_workers_replay_five_tasks :
    let C := Striped.collection (V := UInt64) fun k : UInt64 => Fin.ofNat 3 k.toNat
    let tasks : List Task :=
      [⟨.insert, 1, 11⟩, ⟨.remove, 4, 0⟩, ⟨.remove, 1, 0⟩, ⟨.contains, 1, 0⟩, ⟨.insert, 4, 44⟩]
    let ran := runWorkers C tasks 2 2 (C.prefill C.empty [(4, 40), (7, 70)])
    C.find ran.2 1 = none ∧ C.find ran.2 4 = some 44 ∧
      ∃ stats, ran.1 = .ok stats ∧ (stats.map fun st => st.inserts.toNat).sum = 2 ∧
        (stats.map fun st => st.removes.toNat).sum = 2 ∧
        ∃ st, stats[1]? = some st ∧ st.committed.toNat = 2 := by
  intro C tasks ran
  obtain ⟨hfind, stats, hran, -, hinserts, hremoves, -, hcommitted⟩ :=
    (workers_replay_tasks (.striped _) [(4, 40), (7, 70)] tasks 2 2 (by decide) (by decide)).2
      (by decide)
  obtain ⟨slice, st, hslice, hst, hbatches⟩ := hcommitted 1 (by decide)
  have hsecond : Slice.ofWorker (UInt64.ofNat tasks.length) 2 (UInt64.ofNat 1) = .ok ⟨2, 5⟩ := by decide
  cases hsecond.symm.trans hslice
  refine ⟨(hfind 1).trans ?_, (hfind 4).trans ?_, stats, hran, hinserts.trans ?_, hremoves.trans ?_, st, hst,
    hbatches.trans ?_⟩ <;> decide +kernel

/-- There may be too many workers to keep hold of, and then there is nothing to report, though there is nothing to do either. -/
theorem no_report_of_too_many_workers :
    let ran := runWorkers (Locked.collection UInt64 UInt64) [] 384307168202282326 1 (Locked.collection UInt64 UInt64).empty
    ran.1 = .error (.fault .capacity) ∧ ¬∃ stats, ran.1 = .ok stats := by
  intro ran
  have hran : ran.1 = .error (.fault .capacity) :=
    congrArg Prod.fst (Workers.run_of_no_room _ [] 1 _ (by decide) (by decide))
  rw [hran]
  exact ⟨rfl, nofun⟩

end Measured

end TxnBench
