import TxnBench.Proofs.Sequential.Basic
import TxnBench.Proofs.Workers.Crew
import TxnBench.Proofs.Workers.Slices

/-!
# Workers that run one after another

A worker that has a collection to itself is `Alone`: what its open transaction sees is the entries with the calls of its
batch carried out, so a batch that commits changes the entries by just what the worker counts, and a batch that is turned
down changes nothing (`Alone.move`). On a collection that does not break off, every worker thus comes to its end
(`Unbroken.run`), and the entries that all of them leave are as many as they have counted (`Unbroken.runWorkers`), whatever
was refused. On a collection that refuses nothing, nothing failed.
-/

namespace TxnBench

namespace Sequential

variable {C : Collection UInt64 UInt64} {Q : Sequential C}

/-- A worker with a slice of the tasks that has a collection to itself, on which there are the entries `m` besides its open
transaction, and on which there were `initial` entries at first. -/
structure Alone (Q : Sequential C) (slice : List Task) (initial : Nat) (w : Worker C.Txn) (s : C.State)
    (m : Contents UInt64 UInt64) : Prop where
  accounts : Worker.Accounts slice w
  /-- The open transaction began on the entries and has made the calls of the batch; there is no worker that broke off. -/
  phase : match w.phase with
    | .idle => Q.Rests s m
    | .running t | .closing t => ∃ seen calls, Q.Runs t s m seen ∧ Replays m calls seen ∧
        insertions calls = w.batch.inserts.toNat ∧ removals calls = w.batch.removes.toNat
    | .broken _ => False
  balance : m.size + w.stats.count .removes = initial + w.stats.count .inserts
  /-- If nothing is refused, nothing has failed. -/
  steady : Q.Steady → w.stats.count .failed = 0 ∧ w.stats.count .aborted = 0

namespace Alone

variable {limit : UInt64} {slice : List Task} {initial : Nat} {w w' : Worker C.Txn} {s s' : C.State}
  {m : Contents UInt64 UInt64}

/-- A worker that has done nothing. -/
theorem fresh (slice : List Task) (h : Q.Rests s m) : Alone Q slice m.size (Worker.fresh slice) s m where
  accounts := Worker.Accounts.fresh slice
  phase := h
  balance := rfl
  steady _ := ⟨rfl, rfl⟩

/-- A worker whose batch was turned down, by a collection that does so. -/
theorem turned_down {todo : List Task} {b : Batch} {stats stats' : Stats}
    (ha : Worker.Accounts slice (⟨todo, .idle, {}, stats'⟩ : Worker C.Txn)) (hr : Q.Rests s m)
    (hb : m.size + stats.count .removes = initial + stats.count .inserts) (hc : stats.abort b = .ok stats')
    (hn : ¬Q.Steady) : Alone Q slice initial ⟨todo, .idle, {}, stats'⟩ s m where
  accounts := ha
  phase := hr
  balance := by
    obtain ⟨-, -, hi, hrem, -, -⟩ := Stats.count_of_abort hc
    rw [hi, hrem]
    exact hb
  steady hQ := absurd hQ hn

/-- Every move of a worker that is alone leaves it so. -/
theorem move (hQ : Q.Unbroken) (hm : Worker.Move C limit w s w' s') (h : Alone Q slice initial w s m) :
    ∃ m', Alone Q slice initial w' s' m' := by
  have ha := hm.accounts h.accounts
  obtain ⟨-, phase, balance, steady⟩ := h
  cases hm with
  | rest => exact ⟨m, ha, phase, balance, steady⟩
  | start => exact ⟨m, ha, ⟨m, [], Q.start phase, rfl, rfl, rfl⟩, balance, steady⟩
  | @carry task todo b b' stats t t' _ _ answer called ok size inserts removes =>
    obtain ⟨seen, calls, hruns, hreplays, hi, hr⟩ := phase
    obtain ⟨hanswer, hruns'⟩ := call_of_success hruns task.key?_action called ok
    have hone : Replays seen [⟨task.action, answer⟩] (seen.perform task.action).2 := ⟨hanswer.symm, rfl⟩
    have hmade : ∃ seen calls, Q.Runs t' s' m seen ∧ Replays m calls seen ∧ insertions calls = b'.inserts.toNat ∧
        removals calls = b'.removes.toNat := by
      refine ⟨_, calls ++ [⟨task.action, answer⟩], hruns', hreplays.append hone, ?_, ?_⟩
      · rw [inserts, insertions_append_singleton, hi]
      · rw [removes, removals_append_singleton, hr]
    refine ⟨m, ha, ?_, balance, steady⟩
    cases Worker.isFull limit b' todo <;> exact hmade
  | @refuse task todo b stats stats' size t t' _ s'' why called grown counting =>
    obtain ⟨seen, calls, hruns, -⟩ := phase
    refine ⟨m, turned_down ha ?_ balance counting ?_⟩
    · exact Q.drop (call_of_refusal hruns task.key?_action called rfl)
    · intro hsteady
      have hok := hsteady.call hruns (a := task.action) (by rw [task.key?_action]; rfl)
      rw [called] at hok
      cases hok
  | @breakOff task todo b stats size t t' _ _ f called grown =>
    obtain ⟨seen, calls, hruns, -⟩ := phase
    exact absurd (congrArg Prod.fst called) (hQ.call hruns (by rw [task.key?_action]; rfl) f)
  | @commit todo b stats stats' t _ _ committed counting =>
    obtain ⟨seen, calls, hruns, hreplays, hi, hr⟩ := phase
    obtain ⟨-, hf', hi', hr', -, ha'⟩ := Stats.count_of_commit counting
    have hsize := hreplays.size
    refine ⟨seen, ha, commit_of_value hruns committed, ?_, ?_⟩
    · dsimp only at balance hi hr ⊢
      omega
    · intro hsteady
      dsimp only
      rw [hf', ha']
      exact steady hsteady
  | @fail todo b stats stats' t _ _ why committed counting =>
    obtain ⟨seen, calls, hruns, -⟩ := phase
    refine ⟨m, turned_down ha ?_ balance counting ?_⟩
    · exact commit_of_refusal hruns committed nofun
    · intro hsteady
      cases (congrArg Prod.fst committed).symm.trans (hsteady.commit hruns)
  | @breakCommit todo b stats t _ _ f committed =>
    obtain ⟨seen, calls, hruns, -⟩ := phase
    exact absurd (congrArg Prod.fst committed) (hQ.commit hruns f)
  | broken => exact phase.elim

/-- Several steps in a row leave a worker alone, and use up effort. -/
theorem steps (hQ : Q.Unbroken) (hlen : slice.length < 2 ^ 64) (limit : UInt64) (n : Nat)
    (h : Alone Q slice initial w s m) :
    ∃ m', Alone Q slice initial (Worker.steps C limit n w s).1 (Worker.steps C limit n w s).2 m' ∧
      (Worker.steps C limit n w s).1.effort ≤ w.effort - n := by
  induction n generalizing w s m with
  | zero => exact ⟨m, h, Nat.le_refl _⟩
  | succ n ih =>
    have hmove : Worker.Move C limit w s _ _ := Worker.step_moves h.accounts hlen s
    obtain ⟨m₁, h₁⟩ := h.move hQ hmove
    obtain ⟨m', h', heffort⟩ := ih h₁
    have hstep := hmove.effort_le
    have hsucc : Worker.steps C limit (n + 1) w s =
        Worker.steps C limit n (Worker.step C limit w s).1 (Worker.step C limit w s).2 := rfl
    rw [hsucc]
    exact ⟨m', h', by omega⟩

end Alone

/-- What a worker reports that had a collection to itself. -/
structure Worked (Q : Sequential C) (slice : List Task) (stats : Stats) : Prop where
  counted : stats.count .succeeded + stats.count .failed = slice.length
  count_le : ∀ c, stats.count c ≤ slice.length
  /-- If nothing is refused, nothing has failed. -/
  steady : Q.Steady → stats.count .failed = 0 ∧ stats.count .aborted = 0

namespace Unbroken

variable {s : C.State} {m : Contents UInt64 UInt64}

/-- A worker by itself comes to its end, and the entries it leaves are as many as it has counted. -/
theorem run (hQ : Q.Unbroken) (h : Q.Rests s m) (limit : UInt64) {slice : List Task} (hlen : slice.length < 2 ^ 64) :
    ∃ stats s' m', Worker.run C limit slice s = (.ok stats, s') ∧ Q.Rests s' m' ∧ Worked Q slice stats ∧
      m'.size + stats.count .removes = m.size + stats.count .inserts := by
  obtain ⟨m', halone, heffort⟩ := (Alone.fresh slice h).steps hQ hlen limit (3 * slice.length)
  rcases hsteps : Worker.steps C limit (3 * slice.length) (Worker.fresh slice) s with ⟨w, s'⟩
  rw [hsteps] at halone heffort
  have hnone : w.effort = 0 := by
    change w.effort ≤ 3 * slice.length - 3 * slice.length at heffort
    omega
  obtain ⟨haccounts, hphase, hbalance, hsteady⟩ := halone
  have hwhole : ∀ f, w.phase ≠ .broken f := by
    intro f hf
    rw [hf] at hphase
    exact hphase
  have hfinished := Worker.finished_of_effort haccounts hwhole hnone
  have hreport := Worker.report_of_finished haccounts hfinished hlen
  have hrests : Q.Rests s' m' := by
    obtain ⟨todo, phase, b, stats⟩ := w
    cases phase with
    | idle => exact hphase
    | running | closing | broken => cases todo <;> cases hfinished
  refine ⟨w.stats, s', m', ?_, hrests, ⟨Worker.counted_of_finished haccounts hfinished, haccounts.count_le, hsteady⟩,
    hbalance⟩
  simp only [Worker.run, hsteps, hreport]

/-- Workers that run one after another come to their ends, and the entries they leave are as many as they have counted. -/
theorem runEach (hQ : Q.Unbroken) (h : Q.Rests s m) (limit : UInt64) {slices : List (List Task)}
    (hlen : ∀ slice ∈ slices, slice.length < 2 ^ 64) :
    ∃ workers s' m', Workers.runEach C limit slices s = (workers.map .ok, s') ∧ Q.Rests s' m' ∧
      List.Forall₂ (Worked Q) slices workers ∧
      m'.size + (workers.map fun st => st.count .removes).sum = m.size + (workers.map fun st => st.count .inserts).sum := by
  induction slices generalizing s m with
  | nil => exact ⟨[], s, m, rfl, h, .nil, rfl⟩
  | cons slice rest ih =>
    obtain ⟨stats, s₁, m₁, hfirst, hrests₁, hworked, hbalance₁⟩ := hQ.run h limit (hlen slice List.mem_cons_self)
    obtain ⟨workers, s', m', hrest, hrests', hall, hbalance⟩ :=
      ih hrests₁ fun other hother => hlen other (List.mem_cons_of_mem slice hother)
    refine ⟨stats :: workers, s', m', ?_, hrests', .cons hworked hall, ?_⟩
    · simp only [Workers.runEach, hfirst, hrest, List.map_cons]
    · simp only [List.map_cons, List.sum_cons]
      omega

end Unbroken

end Sequential

namespace Sequential

/-! ## What all workers have counted -/

variable {C : Collection UInt64 UInt64} {Q : Sequential C} {slices : List (List Task)} {workers : List Stats}

theorem length_workers (h : List.Forall₂ (Worked Q) slices workers) : workers.length = slices.length := by
  induction h with
  | nil => rfl
  | cons _ _ ih => rw [List.length_cons, List.length_cons, ih]

/-- There is a worker for every slice. -/
theorem exists_worked (h : List.Forall₂ (Worked Q) slices workers) {i : Nat} {slice : List Task}
    (hi : slices[i]? = some slice) : ∃ stats, workers[i]? = some stats ∧ Worked Q slice stats := by
  induction h generalizing i with
  | nil => cases hi
  | cons hfirst _ ih =>
    cases i with
    | zero =>
      cases hi
      exact ⟨_, rfl, hfirst⟩
    | succ i => exact ih hi

/-- Every task has succeeded or failed. -/
theorem sum_counted (h : List.Forall₂ (Worked Q) slices workers) :
    (workers.map fun st => st.count .succeeded).sum + (workers.map fun st => st.count .failed).sum =
      (slices.map List.length).sum := by
  induction h with
  | nil => rfl
  | cons hfirst _ ih =>
    have hcounted := hfirst.counted
    simp only [List.map_cons, List.sum_cons]
    omega

/-- No counter of all workers together stands higher than there are tasks. -/
theorem sum_count_le (h : List.Forall₂ (Worked Q) slices workers) (c : Counter) :
    (workers.map fun st => st.count c).sum ≤ (slices.map List.length).sum := by
  induction h with
  | nil => exact Nat.le_refl _
  | cons hfirst _ ih =>
    have hle := hfirst.count_le c
    simp only [List.map_cons, List.sum_cons]
    omega

/-- If nothing is refused, nothing has failed. -/
theorem sum_failed (h : List.Forall₂ (Worked Q) slices workers) (hQ : Q.Steady) :
    (workers.map fun st => st.count .failed).sum = 0 := by
  induction h with
  | nil => rfl
  | cons hfirst _ ih => rw [List.map_cons, List.sum_cons, (hfirst.steady hQ).1, ih]

end Sequential

/-- Workers that run one after another on a collection that does not break off all report, and the entries they leave are as
many as they have counted. -/
theorem Sequential.Unbroken.runWorkers {C : Collection UInt64 UInt64} {Q : Sequential C} (hQ : Q.Unbroken) {s : C.State}
    {m : Contents UInt64 UInt64} (h : Q.Rests s m) {tasks : List Task} {count workers : UInt64}
    (hcount : tasks.length = count.toNat) (limit : UInt64) (hw : workers ≠ 0)
    (hroom : workers.toNat * Workers.handleBytes ≤ Capacity.limit) :
    ∃ stats s' m', TxnBench.runWorkers C tasks workers limit s = (.ok stats, s') ∧ Q.Rests s' m' ∧
      List.Forall₂ (Worked Q) (Workers.slices tasks workers) stats ∧
      m'.size + (stats.map fun st => st.count .removes).sum = m.size + (stats.map fun st => st.count .inserts).sum := by
  have hlen : ∀ slice ∈ Workers.slices tasks workers, slice.length < 2 ^ 64 := fun slice hslice =>
    Workers.length_lt_of_mem_slices hcount hw hslice
  obtain ⟨stats, s', m', hran, hrests, hworked, hbalance⟩ := hQ.runEach h limit hlen
  refine ⟨stats, s', m', ?_, hrests, hworked, hbalance⟩
  simp only [Workers.run_of_room C tasks limit s hw hroom, hran, Workers.join_ok]
  rfl

end TxnBench
