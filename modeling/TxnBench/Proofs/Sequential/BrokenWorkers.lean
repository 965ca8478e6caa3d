import TxnBench.Proofs.Sequential.Batches
import TxnBench.Proofs.Sequential.UndoLog
import TxnBench.Proofs.Workers.Blame

/-!
# Workers of a collection that breaks off

The faulty collection breaks off at one key. A batch with a task on that key has this as its last task and breaks off there, and
no other batch does (`broken_iff_of_attempted`). So a worker breaks off exactly if its slice has such a task, and a run of
workers fails exactly if some task is such a one. Neither that batch nor any other that is not committed leaves a trace: the
batches before it stay, and the workers after it do all their work (`workers_keep_committed`).
-/

namespace TxnBench

namespace Faulty

variable {f : Failures} {limit : UInt64}

/-- Whether a batch has a task on the key at which a collection breaks. -/
def Hit (f : Failures) (a : Attempt) : Prop :=
  ∃ task ∈ a.tasks, f.breaking = some task.key

/-- A collection breaks off at the calls on one key. -/
theorem faulted_iff {t t' : (collection f).Txn} {s s' : (collection f).State} {task : Task} {answer : Answer UInt64}
    (called : (collection f).call t s task.action = (answer, t', s')) :
    (∃ e, answer = .faulted e) ↔ f.breaking = some task.key := by
  rw [call_eq f t s task.key?_action] at called
  split at called
  · rename_i hkey
    cases called
    exact ⟨fun _ => hkey, fun _ => ⟨_, rfl⟩⟩
  · rename_i hkey
    refine ⟨?_, fun h => absurd h hkey⟩
    rintro ⟨e, rfl⟩
    split at called
    · cases called
    · have hanswer := (Locked.call_eq t s.entries task.key?_action).1.symm.trans (Prod.mk.inj called).1
      have hok := Contents.isSuccess_perform s.entries task.action
      rw [hanswer] at hok
      cases hok

/-- No task that was carried out is on the key at which the collection breaks. -/
theorem unhit_of_opened {s₀ s : (collection f).State} {t : (collection f).Txn} {made : List (Task × Answer UInt64)}
    (h : Worker.Opened (collection f) limit s₀ made t s) : ∀ task ∈ made.map Prod.fst, f.breaking ≠ some task.key := by
  induction h with
  | start => nofun
  | @carry made task answer t t' s s' before room called ok ih =>
    intro other hother
    rw [List.map_append, List.mem_append] at hother
    rcases hother with hother | hother
    · exact ih other hother
    · cases List.mem_singleton.mp hother
      intro hkey
      obtain ⟨e, rfl⟩ := (faulted_iff called).mpr hkey
      cases ok

/-- A batch breaks off if and only if it has a task on the key at which the collection breaks. -/
theorem broken_iff_of_attempted {todo : List Task} {s s' : (collection f).State} {a : Attempt}
    (h : Worker.Attempted (collection f) limit todo s a s') : a.fate = .broken ↔ Hit f a := by
  cases h with
  | commit opened | fail opened =>
    refine ⟨nofun, ?_⟩
    rintro ⟨task, htask, hkey⟩
    exact absurd hkey (unhit_of_opened opened task htask)
  | @refuse made task t t' s s' why opened room called =>
    refine ⟨nofun, ?_⟩
    rintro ⟨other, hother, hkey⟩
    rw [Attempt.tasks, List.map_append, List.mem_append] at hother
    rcases hother with hother | hother
    · exact absurd hkey (unhit_of_opened opened other hother)
    · cases List.mem_singleton.mp hother
      obtain ⟨e, he⟩ := (faulted_iff called).mpr hkey
      cases he
  | @breakOff made task t t' s s' e opened room called =>
    exact ⟨fun _ => ⟨task, by simp [Attempt.tasks], (faulted_iff called).mp ⟨e, rfl⟩⟩, fun _ => rfl⟩
  | @breakCommit made t s s' e opened filled closes committed =>
    have hcommit := (commit_eq f t s).symm.trans committed
    split at hcommit <;> cases hcommit

end Faulty

namespace Workers

variable {C : Collection UInt64 UInt64} {limit : UInt64} {s s' : C.State} {slices : List (List Task)}
  {courses : List (List Attempt)} {results : List (Except Fault Stats)}

/-- Some worker came to no result exactly if the collection broke off in some batch. -/
theorem findIdxs_broke_eq_nil_iff (h : List.Forall₂ Worker.Reports courses results) :
    results.findIdxs broke = [] ↔ ∀ attempts ∈ courses, ∀ a ∈ attempts, a.fate ≠ .broken := by
  rw [List.findIdxs_eq_nil_iff]
  induction h with
  | nil => simp
  | @cons attempts result courses results hreport hreports ih =>
    rw [List.forall_mem_cons, List.forall_mem_cons, ih]
    refine and_congr_left fun _ => ?_
    cases result with
    | ok stats => exact ⟨fun _ => hreport.1, fun _ => rfl⟩
    | error e =>
      obtain ⟨a, ha, hbroken⟩ := hreport
      exact ⟨nofun, fun hwhole => absurd hbroken (hwhole a ha)⟩

end Workers

namespace Faulty

variable {f : Failures} {limit : UInt64}

/-- The collection breaks off in the batches of workers if and only if one of their tasks is on the key at which it breaks. -/
theorem broken_iff_of_courses {s s' : (collection f).State} {slices : List (List Task)} {courses : List (List Attempt)}
    (h : Workers.Courses (collection f) limit s slices courses s') :
    (∃ attempts ∈ courses, ∃ a ∈ attempts, a.fate = .broken) ↔ ∃ task ∈ slices.flatten, f.breaking = some task.key := by
  have hhit : ∀ attempts ∈ courses, ∀ a ∈ attempts, a.fate = .broken ↔ Hit f a :=
    h.forall_of_attempted broken_iff_of_attempted
  constructor
  · rintro ⟨attempts, hmem, a, ha, hbroken⟩
    obtain ⟨task, htask, hkey⟩ := (hhit attempts hmem a ha).mp hbroken
    exact ⟨task, h.mem_slices_of_mem hmem ha htask, hkey⟩
  · rintro ⟨task, htask, hkey⟩
    by_contra hnone
    have hwhole : ∀ attempts ∈ courses, ∀ a ∈ attempts, a.fate ≠ .broken := fun attempts hmem a ha hbroken =>
      hnone ⟨attempts, hmem, a, ha, hbroken⟩
    -- If nothing broke off, all tasks were attempted, so the one on the key was.
    rw [← h.tasks_eq hwhole] at htask
    obtain ⟨a, ha, hin⟩ := List.mem_flatMap.mp htask
    obtain ⟨attempts, hmem, ha⟩ := List.mem_flatten.mp ha
    exact hwhole attempts hmem a ha ((hhit attempts hmem a ha).mpr ⟨task, hin, hkey⟩)

/-- Workers that run one after another on a collection that may refuse calls and commits, and may break at a key. If there is
no room to keep hold of the workers, none is run. Otherwise the run fails if and only if some task is on that key, and then on
account of a worker. Either way the batches that were committed, of all workers in order, are what has changed the entries: the
batches before the one that broke off, and those of the workers after it, are among them. -/
theorem workers_keep_committed (f : Failures) (s : State) (tasks : List Task) (workers limit : UInt64)
    (hw : workers ≠ 0) (hlen : tasks.length < 2 ^ 64) :
    let C := collection f
    let ran := runWorkers C tasks workers limit s
    (Capacity.limit < workers.toNat * Workers.handleBytes → ran = (.error (.fault .capacity), s)) ∧
    (workers.toNat * Workers.handleBytes ≤ Capacity.limit →
      ((∃ task ∈ tasks, f.breaking = some task.key) → ∃ i, ran.1 = .error (.failed (.workerBroke i))) ∧
      ((∀ task ∈ tasks, f.breaking ≠ some task.key) → ∃ stats, ran.1 = .ok stats) ∧
      ∃ courses, Workers.Courses C limit s (Workers.slices tasks workers) courses ran.2 ∧
        (∀ attempts ∈ courses, ∀ a ∈ attempts, a.fate = .broken ↔ Hit f a) ∧
        ran.2.entries =
          s.entries.performAll (((Attempt.kept courses.flatten).flatMap Attempt.tasks).map Task.action)) := by
  intro C ran
  refine ⟨fun hroom => Workers.run_of_no_room C tasks limit s hw hroom, ?_⟩
  intro hroom
  have hcount : tasks.length = (UInt64.ofNat tasks.length).toNat := (UInt64.toNat_ofNat_of_lt' hlen).symm
  have hflat := Workers.flatten_slices hcount hw
  obtain ⟨courses, hcourses, hreports⟩ := Workers.exists_courses (C := C) limit
    (fun slice hslice => Workers.length_lt_of_mem_slices hcount hw hslice) s
  obtain ⟨hends, hstate⟩ := Workers.ends_of_room C tasks limit s hw hroom
  have hbroken := Workers.findIdxs_broke_eq_nil_iff hreports
  have hhit := broken_iff_of_courses hcourses
  rw [hflat] at hhit
  change Workers.Ends _ ran.1 at hends
  change ran.2 = _ at hstate
  rw [← hstate] at hcourses
  refine ⟨?_, ?_, courses, hcourses, hcourses.forall_of_attempted broken_iff_of_attempted, ?_⟩
  · intro htask
    obtain ⟨attempts, hmem, a, ha, hfate⟩ := hhit.mpr htask
    exact ⟨_, hends.of_broken fun hnone => hbroken.mp hnone attempts hmem a ha hfate⟩
  · intro hnone
    have hwhole : ∀ attempts ∈ courses, ∀ a ∈ attempts, a.fate ≠ .broken := by
      intro attempts hmem a ha hfate
      obtain ⟨task, htask, hkey⟩ := hhit.mp ⟨attempts, hmem, a, ha, hfate⟩
      exact hnone task htask hkey
    obtain ⟨stats, -, hran⟩ := hends.of_whole (hbroken.mpr hwhole)
    exact ⟨stats, hran⟩
  · obtain ⟨m, hrests, hreplays⟩ := Sequential.rests_of_courses (Q := sequential f) (m := s.entries) rfl hcourses
    have hm := hreplays.eq_performAll
    rw [Attempt.map_action_keptCalls] at hm
    exact Eq.trans hrests hm

/-- Two workers with three tasks each, one task to a batch. The first worker breaks off at its second task; of the second
worker one task is turned down and one commit, the third. What is left is the first task of either. -/
theorem two_workers_keep_two_tasks :
    let f : Failures := { poison := 5, period := 3, breaking := some 7 }
    let tasks : List Task :=
      [⟨.insert, 1, 10⟩, ⟨.insert, 7, 70⟩, ⟨.insert, 2, 20⟩, ⟨.insert, 3, 30⟩, ⟨.insert, 5, 50⟩, ⟨.insert, 4, 40⟩]
    let ran := runWorkers (collection f) tasks 2 1 ⟨∅, 0⟩
    (∃ i, ran.1 = .error (.failed (.workerBroke i))) ∧
      (∃ courses, Workers.Courses (collection f) 1 ⟨∅, 0⟩ (Workers.slices tasks 2) courses ran.2 ∧
        (∀ attempts ∈ courses, ∀ a ∈ attempts, a.fate = .broken ↔ Hit f a) ∧
        ran.2.entries =
          Contents.performAll ∅ (((Attempt.kept courses.flatten).flatMap Attempt.tasks).map Task.action)) ∧
      ran.2.entries.toList = [(1, 10), (3, 30)] := by
  intro f tasks ran
  obtain ⟨hfails, -, hcourses⟩ :=
    (workers_keep_committed f ⟨∅, 0⟩ tasks 2 1 (by decide) (by decide)).2 (by decide)
  exact ⟨hfails ⟨⟨.insert, 7, 70⟩, by decide, rfl⟩, hcourses, by decide +kernel⟩

/-- There may be too many workers to keep hold of, and then none of them is to blame, though a task is on the key. -/
theorem no_blame_on_too_many_workers :
    let C := collection { breaking := some 7 }
    let ran := runWorkers C [⟨.contains, 7, 0⟩] 384307168202282326 1 C.empty
    ran.1 = .error (.fault .capacity) ∧ ¬∃ i, ran.1 = .error (.failed (.workerBroke i)) := by
  intro C ran
  have hran : ran.1 = .error (.fault .capacity) :=
    congrArg Prod.fst (Workers.run_of_no_room C [⟨.contains, 7, 0⟩] 1 C.empty (by decide) (by decide))
  rw [hran]
  exact ⟨rfl, nofun⟩

end Faulty

end TxnBench
