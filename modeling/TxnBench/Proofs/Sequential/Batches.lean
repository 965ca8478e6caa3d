import TxnBench.Proofs.Sequential.Basic
import TxnBench.Proofs.Workers.Batches

/-!
# Batches that run one after another

Of the batches that a worker attempts on a collection that no one else uses, those that were committed change the entries, as
their tasks do on a plain map, and the others leave no trace: not those that were turned down, and not the one in which the
collection broke off (`rests_of_course`). The same holds of all workers that run one after another (`rests_of_courses`). On a
collection that refuses nothing, every batch is committed (`Steady.committed_of_courses`).
-/

namespace TxnBench

namespace Sequential

variable {C : Collection UInt64 UInt64} {Q : Sequential C} {limit : UInt64} {s s' : C.State} {m : Contents UInt64 UInt64}

/-- An open transaction sees the entries on which the tasks of its batch are carried out. -/
theorem runs_of_opened {made : List (Task × Answer UInt64)} {t : C.Txn} (h : Q.Rests s m)
    (ho : Worker.Opened C limit s made t s') :
    ∃ seen, Q.Runs t s' m seen ∧ Replays m (Attempt.callsOf made) seen := by
  induction ho with
  | start => exact ⟨m, Q.start h, rfl⟩
  | @carry made task answer t t' s₁ s₂ before room called ok ih =>
    obtain ⟨seen, hruns, hreplays⟩ := ih
    obtain ⟨hanswer, hruns'⟩ := call_of_success hruns task.key?_action called ok
    have hone : Replays seen [⟨task.action, answer⟩] (seen.perform task.action).2 := ⟨hanswer.symm, rfl⟩
    refine ⟨_, hruns', ?_⟩
    rw [Attempt.callsOf_append]
    exact hreplays.append hone

/-- A batch changes the entries only if it is committed, and then as its tasks do on a plain map. -/
theorem rests_of_attempted {todo : List Task} {a : Attempt} (h : Q.Rests s m) (ha : Worker.Attempted C limit todo s a s') :
    ∃ m', Q.Rests s' m' ∧ Replays m (Attempt.keptCalls [a]) m' := by
  cases ha with
  | commit opened filled closes committed =>
    obtain ⟨seen, hruns, hreplays⟩ := runs_of_opened h opened
    refine ⟨seen, commit_of_value hruns committed, ?_⟩
    rw [Attempt.keptCalls_of_committed rfl]
    exact hreplays
  | fail opened filled closes committed =>
    obtain ⟨seen, hruns, -⟩ := runs_of_opened h opened
    exact ⟨m, commit_of_refusal hruns committed nofun, rfl⟩
  | @refuse made task t t' s₁ s₂ why opened room called =>
    obtain ⟨seen, hruns, -⟩ := runs_of_opened h opened
    exact ⟨m, Q.drop (call_of_refusal hruns task.key?_action called rfl), rfl⟩
  | @breakOff made task t t' s₁ s₂ f opened room called =>
    obtain ⟨seen, hruns, -⟩ := runs_of_opened h opened
    exact ⟨m, Q.drop (call_of_refusal hruns task.key?_action called rfl), rfl⟩
  | breakCommit opened filled closes committed =>
    obtain ⟨seen, hruns, -⟩ := runs_of_opened h opened
    exact ⟨m, commit_of_refusal hruns committed nofun, rfl⟩

/-- Of all that a worker attempts, the batches that were committed change the entries. -/
theorem rests_of_course {slice todo : List Task} {attempts : List Attempt} (h : Q.Rests s m)
    (hc : Worker.Course C limit s slice attempts todo s') :
    ∃ m', Q.Rests s' m' ∧ Replays m (Attempt.keptCalls attempts) m' := by
  induction hc with
  | fresh => exact ⟨m, h, rfl⟩
  | next before whole attempted ih =>
    obtain ⟨m₁, hrests₁, hreplays₁⟩ := ih
    obtain ⟨m', hrests, hreplays⟩ := rests_of_attempted hrests₁ attempted
    refine ⟨m', hrests, ?_⟩
    rw [Attempt.keptCalls_append]
    exact hreplays₁.append hreplays

/-- Of all that workers attempt one after another, the batches that were committed change the entries. -/
theorem rests_of_courses {slices : List (List Task)} {courses : List (List Attempt)} (h : Q.Rests s m)
    (hc : Workers.Courses C limit s slices courses s') :
    ∃ m', Q.Rests s' m' ∧ Replays m (Attempt.keptCalls courses.flatten) m' := by
  induction hc generalizing m with
  | none => exact ⟨m, h, rfl⟩
  | one course whole others ih =>
    obtain ⟨m₁, hrests₁, hreplays₁⟩ := rests_of_course h course
    obtain ⟨m', hrests, hreplays⟩ := ih hrests₁
    refine ⟨m', hrests, ?_⟩
    rw [List.flatten_cons, Attempt.keptCalls_append]
    exact hreplays₁.append hreplays

namespace Steady

/-- A collection that refuses nothing carries out every task. -/
theorem isSuccess_of_call (hQ : Q.Steady) {t t' : C.Txn} {m₀ : Contents UInt64 UInt64} (h : Q.Runs t s m₀ m) {task : Task}
    {answer : Answer UInt64} (called : C.call t s task.action = (answer, t', s')) : answer.isSuccess = true := by
  have hkey : task.action.key?.isSome := by
    rw [task.key?_action]
    rfl
  have hok := hQ.call h hkey
  rwa [called] at hok

/-- A collection that refuses nothing commits every batch. -/
theorem committed_of_attempted (hQ : Q.Steady) {todo : List Task} {a : Attempt} (h : Q.Rests s m)
    (ha : Worker.Attempted C limit todo s a s') : a.fate = .committed := by
  cases ha with
  | commit => rfl
  | fail opened filled closes committed =>
    obtain ⟨seen, hruns, -⟩ := runs_of_opened h opened
    cases (congrArg Prod.fst committed).symm.trans (hQ.commit hruns)
  | breakCommit opened filled closes committed =>
    obtain ⟨seen, hruns, -⟩ := runs_of_opened h opened
    cases (congrArg Prod.fst committed).symm.trans (hQ.commit hruns)
  | refuse opened room called =>
    obtain ⟨seen, hruns, -⟩ := runs_of_opened h opened
    cases hQ.isSuccess_of_call hruns called
  | breakOff opened room called =>
    obtain ⟨seen, hruns, -⟩ := runs_of_opened h opened
    cases hQ.isSuccess_of_call hruns called

theorem committed_of_course (hQ : Q.Steady) {slice todo : List Task} {attempts : List Attempt} (h : Q.Rests s m)
    (hc : Worker.Course C limit s slice attempts todo s') : ∀ a ∈ attempts, a.fate = .committed := by
  induction hc with
  | fresh => nofun
  | next before whole attempted ih =>
    obtain ⟨m₁, hrests, -⟩ := rests_of_course h before
    intro a ha
    rcases List.mem_append.mp ha with ha | ha
    · exact ih a ha
    · rw [List.mem_singleton.mp ha]
      exact hQ.committed_of_attempted hrests attempted

/-- A collection that refuses nothing commits every batch of every worker. -/
theorem committed_of_courses (hQ : Q.Steady) {slices : List (List Task)} {courses : List (List Attempt)} (h : Q.Rests s m)
    (hc : Workers.Courses C limit s slices courses s') : ∀ attempts ∈ courses, ∀ a ∈ attempts, a.fate = .committed := by
  induction hc generalizing m with
  | none => nofun
  | one course whole others ih =>
    obtain ⟨m₁, hrests, -⟩ := rests_of_course h course
    intro attempts hmem
    rcases List.mem_cons.mp hmem with rfl | hmem
    · exact hQ.committed_of_course h course
    · exact ih hrests attempts hmem

end Steady

end Sequential

end TxnBench
