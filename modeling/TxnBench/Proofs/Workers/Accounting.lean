import TxnBench.Collection.Faulty
import TxnBench.Proofs.Workers.Log

/-!
# What a worker makes of its tasks

A batch `EndsInTime` if it goes on until one of its tasks is turned down, until it is full, or until there are no more tasks, and
no longer. As long as the collection does not break off, every batch of a worker does (`Course.endsInTime`), and what the worker
reports is what came of each batch: tasks and batches that were committed, tasks and batches that were lost, and what those that
were committed inserted and removed (`runs_in_batches`).
-/

namespace TxnBench

namespace Attempt

/-- A batch has come to its end where it had to, with the tasks `todo` left to do after it. -/
structure EndsInTime (limit : UInt64) (a : Attempt) (todo : List Task) : Prop where
  filled : a.made ≠ []
  /-- No task before the last was turned down. -/
  carried : ∀ e ∈ a.made.dropLast, e.2.isSuccess = true
  /-- It has no more tasks than the limit says. -/
  length_le : limit ≠ 0 → a.made.length ≤ limit.toNat
  /-- If its last task went through as well, it is full, or there are no more tasks. -/
  closes : a.refused = false → Worker.Closes limit a.made.length todo
  turnedDown : a.refused = true → a.fate = .turnedDown

/-- The batches that were not committed. -/
def lost (attempts : List Attempt) : List Attempt :=
  attempts.filter fun a => !decide (a.fate = .committed)

/-- Every batch was committed or lost. -/
theorem kept_append_lost_perm (attempts : List Attempt) : (kept attempts ++ lost attempts).Perm attempts :=
  List.filter_append_perm _ attempts

theorem length_kept_add_length_lost (attempts : List Attempt) :
    (kept attempts).length + (lost attempts).length = attempts.length := by
  rw [← List.length_append]
  exact (kept_append_lost_perm attempts).length_eq

theorem sum_length_kept_add_sum_length_lost (attempts : List Attempt) :
    ((kept attempts).map fun a => a.tasks.length).sum + ((lost attempts).map fun a => a.tasks.length).sum =
      (attempts.flatMap tasks).length := by
  rw [List.length_flatMap, ← List.sum_append, ← List.map_append]
  exact ((kept_append_lost_perm attempts).map _).sum_nat

/-! ## What batches count for -/

/-- A counter that counts something for the batches of one kind and nothing for the others. -/
theorem sum_count_filter {attempts : List Attempt} {c : Counter} {p : Attempt → Bool} {f : Attempt → Nat}
    (h : ∀ a ∈ attempts, a.count c = if p a then f a else 0) :
    (attempts.map fun a => a.count c).sum = ((attempts.filter p).map f).sum := by
  induction attempts with
  | nil => rfl
  | cons a rest ih =>
    have hrest := ih fun b hb => h b (List.mem_cons_of_mem a hb)
    rw [List.map_cons, List.sum_cons, h a List.mem_cons_self, hrest, List.filter_cons]
    split <;> simp

/-- A counter that counts the batches of one kind. -/
theorem sum_count_length {attempts : List Attempt} {c : Counter} {p : Attempt → Bool}
    (h : ∀ a ∈ attempts, a.count c = if p a then 1 else 0) :
    (attempts.map fun a => a.count c).sum = (attempts.filter p).length := by
  rw [sum_count_filter (f := fun _ => 1) h, List.map_const', List.sum_replicate_nat, Nat.mul_one]

theorem sum_count_succeeded (attempts : List Attempt) :
    (attempts.map fun a => a.count .succeeded).sum = ((kept attempts).map fun a => a.tasks.length).sum := by
  refine sum_count_filter fun a _ => ?_
  obtain ⟨made, fate⟩ := a
  cases fate <;> simp [count, tasks]

theorem sum_count_committed (attempts : List Attempt) :
    (attempts.map fun a => a.count .committed).sum = (kept attempts).length := by
  refine sum_count_length fun a _ => ?_
  obtain ⟨made, fate⟩ := a
  cases fate <;> rfl

section Lost

variable {attempts : List Attempt} (h : ∀ a ∈ attempts, a.fate ≠ .broken)

include h

theorem sum_count_failed :
    (attempts.map fun a => a.count .failed).sum = ((lost attempts).map fun a => a.tasks.length).sum := by
  refine sum_count_filter fun a ha => ?_
  have hfate := h a ha
  obtain ⟨made, fate⟩ := a
  cases fate with
  | broken => exact absurd rfl hfate
  | committed | turnedDown => simp [count, tasks]

theorem sum_count_aborted : (attempts.map fun a => a.count .aborted).sum = (lost attempts).length := by
  refine sum_count_length fun a ha => ?_
  have hfate := h a ha
  obtain ⟨made, fate⟩ := a
  cases fate with
  | broken => exact absurd rfl hfate
  | committed | turnedDown => rfl

end Lost

end Attempt

namespace Worker

variable {C : Collection UInt64 UInt64} {limit : UInt64} {slice todo : List Task} {s s' : C.State} {a : Attempt}
  {done : List Attempt}

/-! ## Where batches end -/

/-- Unless the collection breaks off, a batch comes to its end in time. -/
theorem Attempted.endsInTime (h : Attempted C limit todo s a s') (hwhole : a.fate ≠ .broken) : a.EndsInTime limit todo := by
  cases h with
  | commit opened filled closes committed | fail opened filled closes committed =>
    have hall := opened.isSuccess
    refine ⟨filled, fun e he => hall e (List.dropLast_subset _ he), opened.length_le, fun _ => closes, ?_⟩
    rw [Attempt.refused_of_success hall]
    nofun
  | breakOff | breakCommit => exact absurd rfl hwhole
  | @refuse made task t t' s s' why opened room called =>
    refine ⟨by simp, ?_, ?_, ?_, fun _ => rfl⟩
    · rw [List.dropLast_concat]
      exact opened.isSuccess
    · intro hl
      have hlt := room.resolve_left hl
      rw [List.length_append, List.length_singleton]
      exact hlt
    · rw [Attempt.refused_append_singleton made rfl]
      nofun

/-- In a course in which the collection does not break off, every batch comes to its end in time. -/
theorem Course.endsInTime (h : Course C limit s slice done todo s') (hwhole : ∀ a ∈ done, a.fate ≠ .broken)
    {before after : List Attempt} (hsplit : done = before ++ a :: after) :
    a.EndsInTime limit (after.flatMap Attempt.tasks ++ todo) := by
  induction h generalizing after with
  | fresh => simp at hsplit
  | @next done b todo s₁ s' earlier whole attempted ih =>
    -- The batch is the last of the course, or one of those before the last.
    rcases after.eq_nil_or_concat with rfl | ⟨between, last, rfl⟩
    · obtain ⟨rfl, hlast⟩ := List.append_inj' hsplit rfl
      cases hlast
      exact attempted.endsInTime (hwhole _ (by simp))
    · have hconcat : done ++ [b] = (before ++ a :: between) ++ [last] := by simpa using hsplit
      obtain ⟨hdone, hlast⟩ := List.append_inj' hconcat rfl
      cases hlast
      have hrest := ih whole hdone
      simpa using hrest

/-! ## What the log says of a collection that does not break off -/

/-- If the collection breaks off in a batch, it does so at what is asked of it for the batch. -/
theorem Attempted.exists_breaks (h : Attempted C limit todo s a s') (hbroken : a.fate = .broken) :
    ∃ note ∈ a.notes, note.breaks = true := by
  cases h with
  | commit | fail | refuse => cases hbroken
  | @breakOff made task t t' s s' f opened room called =>
    refine ⟨.call ⟨task.action, .faulted f⟩, ?_, rfl⟩
    simp [Attempt.notes, Attempt.callsOf]
  | @breakCommit made t s s' f opened filled closes committed =>
    refine ⟨.commit .broken, ?_, rfl⟩
    rw [Attempt.notes, Attempt.refused_of_success opened.isSuccess]
    simp

/-- If nothing that was asked for the batches of a worker made the collection break off, it broke off in none of them. -/
theorem Course.whole_of_log (h : Course C limit s slice done todo s')
    (hlog : ∀ e ∈ Attempt.logOf done, e.2.breaks = false) : ∀ a ∈ done, a.fate ≠ .broken := by
  intro a ha hbroken
  have hbreaks : ∀ a ∈ done, a.fate = .broken → ∃ note ∈ a.notes, note.breaks = true :=
    h.forall_of_attempted Attempted.exists_breaks
  obtain ⟨note, hnote, hbreak⟩ := hbreaks a ha hbroken
  obtain ⟨i, hi⟩ := Attempt.exists_mem_logOf ha hnote
  exact Bool.false_ne_true ((hlog _ hi).symm.trans hbreak)

/-- How a worker goes about its tasks. The collection may answer every call and every commit as it likes, as long as it does not
break off. Then the worker comes to report, so no counter overflows and no transaction is left open. All that it asks of the
collection is what its batches ask for, one after another, each in a transaction of its own: a batch that was given up at a task
is dropped, and every other is committed once. The batches are made up of the tasks in their order, and each ends with the first
task that is turned down, when it is full, or when there are no more tasks. The worker reports as succeeded the tasks of the
batches that were committed, and as failed those of the others, which makes every task once. It reports how many batches there
are of either kind, as many as transactions began. And it counts as inserted and removed what was new and what was there in the
batches that were committed. -/
theorem runs_in_batches (C : Collection UInt64 UInt64) (limit : UInt64) (tasks : List Task) (hlen : tasks.length < 2 ^ 64)
    (s : C.State) (hwhole : ∀ e ∈ log C limit tasks s, e.2.breaks = false) :
    let asked := log C limit tasks s
    run C.logged limit tasks (s, []) = ((run C limit tasks s).1, ((run C limit tasks s).2, asked)) ∧
      ∃ attempts stats, (run C limit tasks s).1 = .ok stats ∧ asked = Attempt.logOf attempts ∧ asked.opened = [] ∧
        attempts.flatMap Attempt.tasks = tasks ∧
        (∀ before a after, attempts = before ++ a :: after → a.EndsInTime limit (after.flatMap Attempt.tasks)) ∧
        stats.succeeded.toNat = ((Attempt.kept attempts).map fun a => a.tasks.length).sum ∧
        stats.failed.toNat = ((Attempt.lost attempts).map fun a => a.tasks.length).sum ∧
        stats.succeeded.toNat + stats.failed.toNat = tasks.length ∧
        stats.committed.toNat = (Attempt.kept attempts).length ∧ stats.aborted.toNat = (Attempt.lost attempts).length ∧
        stats.committed.toNat + stats.aborted.toNat = asked.begun ∧
        stats.inserts.toNat = insertions (Attempt.keptCalls attempts) ∧
        stats.removes.toNat = removals (Attempt.keptCalls attempts) := by
  intro asked
  refine ⟨run_logged C limit tasks s, ?_⟩
  obtain ⟨attempts, todo, hcourse, hreports, hover, hlog⟩ := exists_course_of_log (C := C) limit hlen s
  rw [hlog] at hwhole
  have hunbroken := hcourse.whole_of_log hwhole
  cases hover hunbroken
  obtain ⟨stats, hran, hreports⟩ := hreports.exists_ok hunbroken
  have hcount := hreports.2
  have hasked : asked = Attempt.logOf attempts := hlog
  have htasks := hcourse.tasks_eq
  rw [List.append_nil] at htasks
  have hsucceeded : stats.succeeded.toNat = _ := (hcount .succeeded).trans (Attempt.sum_count_succeeded attempts)
  have hfailed : stats.failed.toNat = _ := (hcount .failed).trans (Attempt.sum_count_failed hunbroken)
  have hcommitted : stats.committed.toNat = _ := (hcount .committed).trans (Attempt.sum_count_committed attempts)
  have haborted : stats.aborted.toNat = _ := (hcount .aborted).trans (Attempt.sum_count_aborted hunbroken)
  refine ⟨attempts, stats, hran, hasked, ?_, htasks, ?_, hsucceeded, hfailed, ?_, hcommitted, haborted, ?_,
    hreports.inserts, hreports.removes⟩
  · rw [hasked, Attempt.opened_logOf]
  · intro before a after hsplit
    have hends := hcourse.endsInTime hunbroken hsplit
    rwa [List.append_nil] at hends
  · rw [hsucceeded, hfailed, Attempt.sum_length_kept_add_sum_length_lost, htasks]
  · rw [hasked, Attempt.begun_logOf, hcommitted, haborted, Attempt.length_kept_add_length_lost]

/-- A worker of which the first batch is committed, the second is given up at its second task, and the third, which is full, is
turned down at its commit; the last has one task. -/
theorem seven_tasks_in_four_batches :
    let C := Faulty.collection { poison := 5, period := 2 }
    let tasks : List Task :=
      [⟨.insert, 1, 10⟩, ⟨.insert, 1, 11⟩, ⟨.insert, 2, 20⟩, ⟨.remove, 5, 0⟩, ⟨.insert, 3, 30⟩, ⟨.contains, 1, 0⟩,
        ⟨.remove, 1, 0⟩]
    (∀ e ∈ log C 2 tasks C.empty, e.2.breaks = false) ∧
      ∃ attempts stats, (run C 2 tasks C.empty).1 = .ok stats ∧ log C 2 tasks C.empty = Attempt.logOf attempts ∧
        attempts.flatMap Attempt.tasks = tasks ∧
        stats.succeeded.toNat = ((Attempt.kept attempts).map fun a => a.tasks.length).sum ∧
        stats.succeeded.toNat + stats.failed.toNat = 7 ∧ stats.committed.toNat + stats.aborted.toNat = 4 := by
  intro C tasks
  have hwhole : ∀ e ∈ log C 2 tasks C.empty, e.2.breaks = false := by decide +kernel
  have hbegun : (log C 2 tasks C.empty).begun = 4 := by decide +kernel
  obtain ⟨-, attempts, stats, hran, hlog, -, htasks, -, hsucceeded, -, hcounted, -, -, htxns, -⟩ :=
    runs_in_batches C 2 tasks (by decide) C.empty hwhole
  exact ⟨hwhole, attempts, stats, hran, hlog, htasks, hsucceeded, hcounted, htxns.trans hbegun⟩

end Worker

end TxnBench
