import TxnBench.Proofs.Workers.Batches

/-!
# What a worker asks of a collection

A collection that is `logged` writes down all that is asked of it, and is otherwise what it is without (`Worker.run_logged`). The
log of a worker is that of its batches, one after another and each in a transaction of its own (`Worker.exists_course_of_log`).
-/

namespace TxnBench

/-- What is asked of a collection for a transaction. -/
inductive Note (K V : Type) where
  | start
  /-- A call, and the answer to it. -/
  | call (made : Call K V)
  /-- A commit, and what came of it. -/
  | commit (fate : Fate)
  | drop
  deriving DecidableEq, Repr

/-- What is asked of a collection, each time with the number of the transaction. -/
abbrev Log (K V : Type) : Type :=
  List (Nat × Note K V)

/-- What becomes of a batch whose commit comes back with a reply. -/
def Fate.ofReply : Reply Unit → Fate
  | .value () => .committed
  | .abort _ => .turnedDown
  | .fault _ => .broken

section Logged

variable {K V : Type}

namespace Note

/-- Whether a transaction begins. -/
def opens : Note K V → Bool
  | .start => true
  | _ => false

/-- Whether a transaction ends. -/
def closes : Note K V → Bool
  | .commit _ | .drop => true
  | _ => false

/-- Whether the collection broke off. -/
def breaks : Note K V → Bool
  | .call ⟨_, .faulted _⟩ | .commit .broken => true
  | _ => false

end Note

namespace Log

/-- How many transactions have begun. -/
def begun (log : Log K V) : Nat :=
  log.countP fun e => e.2.opens

/-- The transactions that have begun and not ended. -/
def opened (log : Log K V) : List Nat :=
  ((log.filter fun e => e.2.opens).map Prod.fst).filter fun i => !log.any fun e => e.1 = i ∧ e.2.closes

end Log

/-- The collection that writes down all that is asked of it. Transactions are numbered as they begin. Of a read it writes down
whether the key was there. -/
def Collection.logged (C : Collection K V) : Collection K V where
  State := C.State × Log K V
  Txn := Nat × C.Txn
  Pending := C.Pending
  empty := (C.empty, [])
  start s :=
    let (t, state) := C.start s.1
    ((s.2.begun, t), (state, s.2 ++ [(s.2.begun, .start)]))
  get t s k :=
    let (reply, t', state) := C.get t.2 s.1 k
    (reply, (t.1, t'), (state, s.2 ++ [(t.1, .call ⟨.contains k, .ofPresent (reply.map Option.isSome)⟩)]))
  put t s k v :=
    let (reply, t', state) := C.put t.2 s.1 k v
    (reply, (t.1, t'), (state, s.2 ++ [(t.1, .call ⟨.put k v, .ofValue reply⟩)]))
  remove t s k :=
    let (reply, t', state) := C.remove t.2 s.1 k
    (reply, (t.1, t'), (state, s.2 ++ [(t.1, .call ⟨.remove k, .ofValue reply⟩)]))
  prepare t s :=
    match C.prepare t.2 s.1 with
    | .settled reply state => .settled reply (state, s.2 ++ [(t.1, .commit (.ofReply reply))])
    | .ready pending state => .ready pending (state, s.2 ++ [(t.1, .commit .committed)])
  publish pending s := (C.publish pending s.1, s.2)
  drop t s := (C.drop t.2 s.1, s.2 ++ [(t.1, .drop)])
  size s := C.size s.1
  find s := C.find s.1

/-- A commit is written down with what comes of it. -/
theorem Collection.commit_logged (C : Collection K V) (t : C.logged.Txn) (s : C.logged.State) :
    C.logged.commit t s =
      let (reply, state) := C.commit t.2 s.1
      (reply, (state, s.2 ++ [(t.1, .commit (.ofReply reply))])) := by
  unfold commit
  simp only [logged]
  cases C.prepare t.2 s.1 <;> rfl

end Logged

variable (C : Collection UInt64 UInt64)

/-- The call of a task is written down with the answer to it. -/
theorem Collection.call_logged (t : C.logged.Txn) (s : C.logged.State) (task : Task) :
    C.logged.call t s task.action =
      let (answer, t', state) := C.call t.2 s.1 task.action
      (answer, (t.1, t'), (state, s.2 ++ [(t.1, .call ⟨task.action, answer⟩)])) := by
  unfold Task.action
  cases task.kind <;> rfl

/-! ## A worker of a logged collection -/

/-- The phase with its transaction changed. -/
def Phase.map {T T' : Type} (f : T → T') : Phase T → Phase T'
  | .idle => .idle
  | .running t => .running (f t)
  | .closing t => .closing (f t)
  | .broken e => .broken e

/-- The worker with its transaction changed. -/
def Worker.map {T T' : Type} (f : T → T') (w : Worker T) : Worker T' :=
  { w with phase := w.phase.map f }

namespace Worker

variable (limit : UInt64)

/-- A task is attempted on a logged collection as on the collection itself. -/
theorem attempt_logged (task : Task) (t : C.logged.Txn) (s : C.logged.State) :
    ∃ log, attempt C.logged task t s =
      let (reply, t', state) := attempt C task t.2 s.1
      (reply, (t.1, t'), (state, log)) := by
  unfold attempt
  cases task.kind <;> exact ⟨_, rfl⟩

/-- What a worker comes to on a logged collection, with nothing of what was written down. -/
def unlogged (w : Worker C.logged.Txn × C.logged.State) : Worker C.Txn × C.State :=
  (w.1.map Prod.snd, w.2.1)

theorem advance_logged (task : Task) (todo : List Task) (b : Batch) (stats : Stats) (t : C.logged.Txn) (s : C.logged.State) :
    unlogged C (advance C.logged limit task todo b stats t s) = advance C limit task todo b stats t.2 s.1 := by
  unfold advance
  cases Word.plus b.size 1 with
  | error f => rfl
  | ok size =>
    obtain ⟨log, hattempt⟩ := attempt_logged C task t s
    rw [hattempt]
    rcases attempt C task t.2 s.1 with ⟨reply, t', state⟩
    cases reply with
    | value grown =>
      dsimp only
      cases extend { b with size } grown with
      | error f => rfl
      | ok b =>
        dsimp only
        cases isFull limit b todo <;> rfl
    | abort why =>
      dsimp only
      cases stats.abort { b with size } <;> rfl
    | fault f => rfl

theorem close_logged (todo : List Task) (b : Batch) (stats : Stats) (t : C.logged.Txn) (s : C.logged.State) :
    unlogged C (close C.logged todo b stats t s) = close C todo b stats t.2 s.1 := by
  unfold close
  rw [Collection.commit_logged]
  rcases C.commit t.2 s.1 with ⟨reply, state⟩
  cases reply with
  | value =>
    dsimp only
    cases stats.commit b <;> rfl
  | abort why =>
    dsimp only
    cases stats.abort b <;> rfl
  | fault f => rfl

/-- A step on a logged collection is a step on the collection itself. -/
theorem step_logged (w : Worker C.logged.Txn) (s : C.logged.State) :
    unlogged C (step C.logged limit w s) = step C limit (w.map Prod.snd) s.1 := by
  obtain ⟨todo, phase, b, stats⟩ := w
  cases phase with
  | idle => cases todo <;> rfl
  | running t =>
    cases todo with
    | nil => exact close_logged C [] b stats t s
    | cons task todo => exact advance_logged C limit task todo b stats t s
  | closing t => exact close_logged C todo b stats t s
  | broken f => rfl

theorem steps_logged (n : Nat) (w : Worker C.logged.Txn) (s : C.logged.State) :
    unlogged C (steps C.logged limit n w s) = steps C limit n (w.map Prod.snd) s.1 := by
  induction n generalizing w s with
  | zero => rfl
  | succ n ih =>
    have hstep := step_logged C limit w s
    rcases hlogged : step C.logged limit w s with ⟨w', s'⟩
    rw [hlogged] at hstep
    simp only [steps, hlogged, ih, ← hstep]
    rfl

/-- What is asked of a collection by a worker that is given tasks. -/
def log (tasks : List Task) (s : C.State) : Log UInt64 UInt64 :=
  (run C.logged limit tasks (s, [])).2.2

/-- It makes no difference to a worker that a collection writes down what is asked of it. -/
theorem run_logged (tasks : List Task) (s : C.State) :
    run C.logged limit tasks (s, []) = ((run C limit tasks s).1, ((run C limit tasks s).2, log C limit tasks s)) := by
  have hsteps := steps_logged C limit (3 * tasks.length) (fresh tasks) (s, [])
  rcases hlogged : steps C.logged limit (3 * tasks.length) (fresh tasks) (s, []) with ⟨w, s'⟩
  rw [hlogged] at hsteps
  have hplain : steps C limit (3 * tasks.length) (fresh tasks) s = unlogged C (w, s') := hsteps.symm
  have hreport : w.report tasks.length = (w.map Prod.snd).report tasks.length := by
    obtain ⟨todo, phase, b, stats⟩ := w
    cases phase <;> rfl
  simp only [log, run, hlogged, hplain, hreport]
  rfl

end Worker

/-! ## Batch by batch -/

namespace Attempt

/-- Whether a batch was given up at one of its tasks. -/
def refused (a : Attempt) : Bool :=
  a.made.any fun e => !e.2.isSuccess

/-- What is asked of a collection for a batch: it is dropped if it was given up at a task, and else it is committed. -/
def notes (a : Attempt) : List (Note UInt64 UInt64) :=
  .start :: ((callsOf a.made).map .call ++ [if a.refused then .drop else .commit a.fate])

/-- What is asked of a collection for batches that are attempted one after another. -/
def logOf (attempts : List Attempt) : Log UInt64 UInt64 :=
  attempts.zipIdx.flatMap fun x => x.1.notes.map (Prod.mk x.2)

theorem refused_of_success {made : List (Task × Answer UInt64)} (h : ∀ e ∈ made, e.2.isSuccess = true) (fate : Fate) :
    refused ⟨made, fate⟩ = false := by
  rw [refused, List.any_eq_false]
  intro e he
  simp [h e he]

theorem refused_append_singleton (made : List (Task × Answer UInt64)) {e : Task × Answer UInt64} (h : e.2.isSuccess = false)
    (fate : Fate) : refused ⟨made ++ [e], fate⟩ = true := by
  rw [refused, List.any_append]
  simp [h]

theorem logOf_append_singleton (attempts : List Attempt) (a : Attempt) :
    logOf (attempts ++ [a]) = logOf attempts ++ a.notes.map (Prod.mk attempts.length) := by
  simp [logOf, List.zipIdx_append]

/-- Every batch begins one transaction. -/
theorem begun_append_notes (log : Log UInt64 UInt64) (a : Attempt) (i : Nat) :
    Log.begun (log ++ a.notes.map (Prod.mk i)) = log.begun + 1 := by
  have hcalls : ((callsOf a.made).map Note.call).countP Note.opens = 0 := by
    rw [List.countP_eq_zero]
    intro e he
    obtain ⟨c, -, rfl⟩ := List.mem_map.mp he
    exact Bool.false_ne_true
  have hnotes : a.notes.countP Note.opens = 1 := by
    rw [notes, List.countP_cons, List.countP_append, hcalls]
    cases a.refused <;> rfl
  rw [Log.begun, List.countP_append, List.countP_map]
  exact congrArg (log.begun + ·) hnotes

theorem begun_logOf (attempts : List Attempt) : (logOf attempts).begun = attempts.length := by
  induction attempts using List.reverseRecOn with
  | nil => rfl
  | append_singleton attempts a ih => rw [logOf_append_singleton, begun_append_notes, ih, List.length_append, List.length_singleton]

theorem exists_mem_logOf {attempts : List Attempt} {a : Attempt} (ha : a ∈ attempts) {note : Note UInt64 UInt64}
    (hnote : note ∈ a.notes) : ∃ i, (i, note) ∈ logOf attempts := by
  obtain ⟨i, hi, rfl⟩ := List.getElem_of_mem ha
  exact ⟨i, List.mem_flatMap.mpr ⟨(attempts[i], i), List.mk_mem_zipIdx_iff_getElem?.mpr (List.getElem?_eq_getElem hi),
    List.mem_map_of_mem hnote⟩⟩

/-- No batch leaves its transaction open. -/
theorem opened_logOf (attempts : List Attempt) : (logOf attempts).opened = [] := by
  rw [Log.opened, List.filter_eq_nil_iff]
  intro i hi
  obtain ⟨e, he, rfl⟩ := List.mem_map.mp hi
  obtain ⟨x, hx, he⟩ := List.mem_flatMap.mp (List.mem_filter.mp he).1
  obtain ⟨note, -, rfl⟩ := List.mem_map.mp he
  have hend : (x.2, if x.1.refused then Note.drop else .commit x.1.fate) ∈ logOf attempts :=
    List.mem_flatMap.mpr ⟨x, hx, List.mem_map_of_mem (by simp [notes])⟩
  have hany : ((logOf attempts).any fun e => e.1 = x.2 ∧ e.2.closes) = true := by
    refine List.any_eq_true.mpr ⟨_, hend, ?_⟩
    cases x.1.refused <;> simp [Note.closes]
  change ¬(!(logOf attempts).any fun e => e.1 = x.2 ∧ e.2.closes) = true
  rw [hany]
  exact Bool.false_ne_true

end Attempt

namespace Worker

variable {C} {limit : UInt64} {slice todo : List Task} {s : C.State} {made : List (Task × Answer UInt64)} {a : Attempt}
  {done : List Attempt}

/-- Every task carried out in an open transaction went through. -/
theorem Opened.isSuccess {s₀ : C.State} {t : C.Txn} (h : Opened C limit s₀ made t s) :
    ∀ e ∈ made, e.2.isSuccess = true := by
  induction h with
  | start => nofun
  | carry before room called ok ih =>
    intro e he
    rcases List.mem_append.mp he with he | he
    · exact ih e he
    · rw [List.mem_singleton.mp he]
      exact ok

theorem Opened.of_logged {s₀ s : C.logged.State} {t : C.logged.Txn} (h : Opened C.logged limit s₀ made t s) :
    Opened C limit s₀.1 made t.2 s.1 ∧ t.1 = s₀.2.begun ∧
      s.2 = s₀.2 ++ (.start :: (Attempt.callsOf made).map .call).map (Prod.mk s₀.2.begun) := by
  induction h with
  | start => exact ⟨.start, rfl, rfl⟩
  | @carry made task answer t t' s s' before room called ok ih =>
    obtain ⟨hopened, hnumber, hlog⟩ := ih
    rcases hcall : C.call t.2 s.1 task.action with ⟨answer', t₁, state⟩
    rw [Collection.call_logged, hcall] at called
    cases called
    refine ⟨hopened.carry room hcall ok, hnumber, ?_⟩
    rw [hlog, hnumber]
    simp [Attempt.callsOf]

/-- A batch that comes to its commit, as it is written down. -/
theorem Opened.commit_of_logged {s₀ s s' : C.logged.State} {t : C.logged.Txn} {reply : Reply Unit}
    (h : Opened C.logged limit s₀ made t s) (committed : C.logged.commit t s = (reply, s')) :
    Opened C limit s₀.1 made t.2 s.1 ∧ C.commit t.2 s.1 = (reply, s'.1) ∧
      s'.2 = s₀.2 ++ (Attempt.notes ⟨made, .ofReply reply⟩).map (Prod.mk s₀.2.begun) := by
  obtain ⟨hopened, hnumber, hlog⟩ := h.of_logged
  rcases hcommit : C.commit t.2 s.1 with ⟨reply', state⟩
  rw [Collection.commit_logged, hcommit] at committed
  cases committed
  refine ⟨hopened, rfl, ?_⟩
  rw [Attempt.notes, Attempt.refused_of_success hopened.isSuccess]
  simp [hlog, hnumber]

/-- A batch that is given up at a task, as it is written down. -/
theorem Opened.drop_of_logged {s₀ s s' : C.logged.State} {t t' : C.logged.Txn} {task : Task} {answer : Answer UInt64}
    (h : Opened C.logged limit s₀ made t s) (called : C.logged.call t s task.action = (answer, t', s'))
    (hno : answer.isSuccess = false) (fate : Fate) :
    Opened C limit s₀.1 made t.2 s.1 ∧ C.call t.2 s.1 task.action = (answer, t'.2, s'.1) ∧
      C.logged.drop t' s' = (C.drop t'.2 s'.1,
        s₀.2 ++ (Attempt.notes ⟨made ++ [(task, answer)], fate⟩).map (Prod.mk s₀.2.begun)) := by
  obtain ⟨hopened, hnumber, hlog⟩ := h.of_logged
  rcases hcall : C.call t.2 s.1 task.action with ⟨answer', t₁, state⟩
  rw [Collection.call_logged, hcall] at called
  cases called
  refine ⟨hopened, rfl, ?_⟩
  rw [Attempt.notes, Attempt.refused_append_singleton made hno]
  simp [Collection.logged, Attempt.callsOf, hlog, hnumber]

/-- A batch attempted on a logged collection is one on the collection itself, and what is written down is all that is asked for
it. -/
theorem Attempted.of_logged {s₀ s : C.logged.State} (h : Attempted C.logged limit todo s₀ a s) :
    Attempted C limit todo s₀.1 a s.1 ∧ s.2 = s₀.2 ++ a.notes.map (Prod.mk s₀.2.begun) := by
  cases h with
  | commit opened filled closes committed =>
    obtain ⟨hopened, hcommit, hlog⟩ := opened.commit_of_logged committed
    exact ⟨.commit hopened filled closes hcommit, hlog⟩
  | fail opened filled closes committed =>
    obtain ⟨hopened, hcommit, hlog⟩ := opened.commit_of_logged committed
    exact ⟨.fail hopened filled closes hcommit, hlog⟩
  | breakCommit opened filled closes committed =>
    obtain ⟨hopened, hcommit, hlog⟩ := opened.commit_of_logged committed
    exact ⟨.breakCommit hopened filled closes hcommit, hlog⟩
  | refuse opened room called =>
    obtain ⟨hopened, hcall, hdrop⟩ := opened.drop_of_logged called rfl .turnedDown
    rw [hdrop]
    exact ⟨.refuse hopened room hcall, rfl⟩
  | breakOff opened room called =>
    obtain ⟨hopened, hcall, hdrop⟩ := opened.drop_of_logged called rfl .broken
    rw [hdrop]
    exact ⟨.breakOff hopened room hcall, rfl⟩

/-- A course on a logged collection is one on the collection itself, and what is written down is all that is asked for its
batches. -/
theorem Course.of_logged {s' : C.logged.State} (h : Course C.logged limit (s, []) slice done todo s') :
    Course C limit s slice done todo s'.1 ∧ s'.2 = Attempt.logOf done := by
  induction h with
  | fresh => exact ⟨.fresh, rfl⟩
  | @next done a todo s₁ s' before whole attempted ih =>
    obtain ⟨hcourse, hlog⟩ := ih
    obtain ⟨hattempted, hlog'⟩ := attempted.of_logged
    refine ⟨.next hcourse whole hattempted, ?_⟩
    rw [hlog', hlog, Attempt.begun_logOf, Attempt.logOf_append_singleton]

/-- What a worker does by itself is a course, of which the log shows what was asked for its batches. -/
theorem exists_course_of_log (limit : UInt64) (hlen : slice.length < 2 ^ 64) (s : C.State) :
    ∃ attempts todo, Course C limit s slice attempts todo (run C limit slice s).2 ∧
      Reports attempts (run C limit slice s).1 ∧ ((∀ a ∈ attempts, a.fate ≠ .broken) → todo = []) ∧
      log C limit slice s = Attempt.logOf attempts := by
  obtain ⟨attempts, todo, hcourse, hreports, hwhole⟩ := exists_course (C := C.logged) limit hlen (s, [])
  obtain ⟨hplain, hlog⟩ := hcourse.of_logged
  rw [run_logged] at hplain hreports hlog
  exact ⟨attempts, todo, hplain, hreports, hwhole, hlog⟩

end Worker

end TxnBench
