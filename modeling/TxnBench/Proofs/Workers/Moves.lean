import TxnBench.Proofs.Histories
import TxnBench.Proofs.Workers.Counters
import TxnBench.Worker.Machine

/-!
# The moves of a worker

`Move` lists what one call of a worker on a collection can do, whatever the collection answers. `Accounts` is what a worker
has counted by the way: every task of its slice is still to do, in the batch in progress, or counted as succeeded or failed.
As long as the slice is no longer than a word can count, no counter overflows, so every step is a move (`step_moves`), and
every move keeps the accounts (`Move.accounts`) and uses up effort (`Move.effort_le`). A worker is thus finished once it has
made three calls for each of its tasks.
-/

namespace TxnBench

/-- The call that a task asks for. -/
def Task.action (task : Task) : Action UInt64 UInt64 :=
  match task.kind with
  | .insert => .put task.key task.value
  | .remove => .remove task.key
  | .contains => .contains task.key

@[simp] theorem Task.key?_action (task : Task) : task.action.key? = some task.key := by
  unfold action
  cases task.kind <;> rfl

namespace Worker

variable (C : Collection UInt64 UInt64)

/-- To attempt a task is to make the call it asks for and, if that goes through, to see what it inserted or removed. -/
theorem attempt_cases (task : Task) (t : C.Txn) (s : C.State) :
    let called := C.call t s task.action
    let made : Call UInt64 UInt64 := ⟨task.action, called.1⟩
    (called.1.isSuccess ∧
        attempt C task t s = (.value (if made.inserts then 1 else 0, if made.removes then 1 else 0), called.2)) ∨
      (∃ why, called.1 = .aborted why ∧ attempt C task t s = (.abort why, called.2)) ∨
      ∃ f, called.1 = .faulted f ∧ attempt C task t s = (.fault f, called.2) := by
  unfold attempt Task.action
  cases task.kind with
  | insert =>
    rcases hr : C.put t s task.key task.value with ⟨reply, t', s'⟩
    simp only [Collection.call, hr]
    cases reply with
    | value previous => cases previous <;> exact Or.inl ⟨rfl, rfl⟩
    | abort why => exact Or.inr (Or.inl ⟨why, rfl, rfl⟩)
    | fault f => exact Or.inr (Or.inr ⟨f, rfl, rfl⟩)
  | remove =>
    rcases hr : C.remove t s task.key with ⟨reply, t', s'⟩
    simp only [Collection.call, hr]
    cases reply with
    | value previous => cases previous <;> exact Or.inl ⟨rfl, rfl⟩
    | abort why => exact Or.inr (Or.inl ⟨why, rfl, rfl⟩)
    | fault f => exact Or.inr (Or.inr ⟨f, rfl, rfl⟩)
  | contains =>
    rcases hr : C.contains t s task.key with ⟨reply, t', s'⟩
    simp only [Collection.call, hr]
    cases reply with
    | value is => exact Or.inl ⟨rfl, rfl⟩
    | abort why => exact Or.inr (Or.inl ⟨why, rfl, rfl⟩)
    | fault f => exact Or.inr (Or.inr ⟨f, rfl, rfl⟩)

/-! ## What a worker has counted -/

/-- What a worker given the tasks of a slice has counted by the way. -/
structure Accounts {T : Type} (slice : List Task) (w : Worker T) : Prop where
  /-- Every task has succeeded or failed, is in the batch in progress, or is still to do. -/
  counted : w.stats.count .succeeded + w.stats.count .failed + w.batch.size.toNat + w.todo.length = slice.length
  inserts_le : w.stats.count .inserts ≤ w.stats.count .succeeded
  removes_le : w.stats.count .removes ≤ w.stats.count .succeeded
  committed_le : w.stats.count .committed ≤ w.stats.count .succeeded
  aborted_le : w.stats.count .aborted ≤ w.stats.count .failed
  batch_inserts_le : w.batch.inserts.toNat ≤ w.batch.size.toNat
  batch_removes_le : w.batch.removes.toNat ≤ w.batch.size.toNat
  /-- A worker without a transaction has no batch in progress, and one that goes on with a transaction has a task to do in
  it or a batch to commit. -/
  phase : match w.phase with
    | .idle => w.batch = {}
    | .running _ => w.todo ≠ []
    | .closing _ => 0 < w.batch.size.toNat
    | .broken _ => True

/-- A worker that has done nothing has nothing counted. -/
theorem Accounts.fresh {T : Type} (slice : List Task) : Accounts slice (fresh slice : Worker T) where
  counted := by simp [Worker.fresh]
  inserts_le := Nat.le_refl _
  removes_le := Nat.le_refl _
  committed_le := Nat.le_refl _
  aborted_le := Nat.le_refl _
  batch_inserts_le := Nat.le_refl _
  batch_removes_le := Nat.le_refl _
  phase := rfl

/-- No counter stands higher than there are tasks. -/
theorem Accounts.count_le {T : Type} {slice : List Task} {w : Worker T} (h : Accounts slice w) (c : Counter) :
    w.stats.count c ≤ slice.length := by
  obtain ⟨counted, inserts_le, removes_le, committed_le, aborted_le, -, -, -⟩ := h
  cases c <;> omega

/-! ## What one call can do -/

/-- What one call of a worker does: the worker and the collection before it, and after it. -/
inductive Move (limit : UInt64) : Worker C.Txn → C.State → Worker C.Txn → C.State → Prop where
  /-- There is nothing left to do. -/
  | rest {stats s} : Move limit ⟨[], .idle, {}, stats⟩ s ⟨[], .idle, {}, stats⟩ s
  /-- A transaction begins. -/
  | start {task todo stats s} :
    Move limit ⟨task :: todo, .idle, {}, stats⟩ s ⟨task :: todo, .running (C.start s).1, {}, stats⟩ (C.start s).2
  /-- A task is carried out. -/
  | carry {task todo b b' stats t t' s s' answer} (called : C.call t s task.action = (answer, t', s')) (ok : answer.isSuccess)
    (size : b'.size.toNat = b.size.toNat + 1)
    (inserts : b'.inserts.toNat = b.inserts.toNat + if Call.inserts ⟨task.action, answer⟩ then 1 else 0)
    (removes : b'.removes.toNat = b.removes.toNat + if Call.removes ⟨task.action, answer⟩ then 1 else 0) :
    Move limit ⟨task :: todo, .running t, b, stats⟩ s
      ⟨todo, if isFull limit b' todo then .closing t' else .running t', b', stats⟩ s'
  /-- The transaction is turned down at a task. -/
  | refuse {task todo b stats stats' size t t' s s' why} (called : C.call t s task.action = (.aborted why, t', s'))
    (grown : size.toNat = b.size.toNat + 1) (counted : stats.abort { b with size } = .ok stats') :
    Move limit ⟨task :: todo, .running t, b, stats⟩ s ⟨todo, .idle, {}, stats'⟩ (C.drop t' s')
  /-- The collection breaks off at a task. -/
  | breakOff {task todo b stats size t t' s s' f} (called : C.call t s task.action = (.faulted f, t', s'))
    (grown : size.toNat = b.size.toNat + 1) :
    Move limit ⟨task :: todo, .running t, b, stats⟩ s ⟨todo, .broken f, { b with size }, stats⟩ (C.drop t' s')
  /-- The batch is committed. -/
  | commit {todo b stats stats' t s s'} (committed : C.commit t s = (.value (), s'))
    (counted : stats.commit b = .ok stats') :
    Move limit ⟨todo, .closing t, b, stats⟩ s ⟨todo, .idle, {}, stats'⟩ s'
  /-- The transaction is turned down at its commit. -/
  | fail {todo b stats stats' t s s' why} (committed : C.commit t s = (.abort why, s'))
    (counted : stats.abort b = .ok stats') :
    Move limit ⟨todo, .closing t, b, stats⟩ s ⟨todo, .idle, {}, stats'⟩ s'
  /-- The collection breaks off at a commit. -/
  | breakCommit {todo b stats t s s' f} (committed : C.commit t s = (.fault f, s')) :
    Move limit ⟨todo, .closing t, b, stats⟩ s ⟨todo, .broken f, b, stats⟩ s'
  /-- A worker that broke off does nothing. -/
  | broken {todo b stats s f} : Move limit ⟨todo, .broken f, b, stats⟩ s ⟨todo, .broken f, b, stats⟩ s

variable {C} {limit : UInt64} {slice : List Task} {w w' : Worker C.Txn} {s s' : C.State}

/-- A batch that breaks no accounts grows by what a call inserted and removed. -/
theorem exists_extend {b : Batch} {size : UInt64} (hsize : size.toNat = b.size.toNat + 1)
    (hi : b.inserts.toNat ≤ b.size.toNat) (hr : b.removes.toNat ≤ b.size.toNat) (inserted removed : Bool) :
    ∃ b', extend { b with size } (if inserted then 1 else 0, if removed then 1 else 0) = .ok b' ∧ b'.size = size ∧
      b'.inserts.toNat = b.inserts.toNat + (if inserted then 1 else 0) ∧
      b'.removes.toNat = b.removes.toNat + (if removed then 1 else 0) := by
  have hlt := size.toNat_lt
  have hbit : ∀ bit : Bool, (if bit then 1 else 0 : UInt64).toNat = if bit then 1 else 0 := fun bit => by
    cases bit <;> rfl
  have hfit : ∀ (n : UInt64) (bit : Bool), n.toNat ≤ b.size.toNat →
      ∃ m, Word.plus n (if bit then 1 else 0) = .ok m ∧ m.toNat = n.toNat + if bit then 1 else 0 := fun n bit hn => by
    have hle : (if bit then 1 else 0) ≤ 1 := by cases bit <;> decide
    obtain ⟨m, hm⟩ := Word.exists_plus (a := n) (b := if bit then 1 else 0) (by rw [hbit]; omega)
    exact ⟨m, hm, by rw [← Word.plus_eq_ok_iff.mp hm, hbit]⟩
  obtain ⟨inserts, hinserts, hi'⟩ := hfit b.inserts inserted hi
  obtain ⟨removes, hremoves, hr'⟩ := hfit b.removes removed hr
  refine ⟨{ size, inserts, removes }, ?_, rfl, hi', hr'⟩
  simp only [extend, hinserts, hremoves]
  rfl

/-- A step of a worker whose slice is no longer than a word can count is a move. -/
theorem step_moves (h : Accounts slice w) (hlen : slice.length < 2 ^ 64) (s : C.State) :
    Move C limit w s (step C limit w s).1 (step C limit w s).2 := by
  obtain ⟨todo, phase, b, stats⟩ := w
  obtain ⟨counted, inserts_le, removes_le, committed_le, aborted_le, batch_inserts_le, batch_removes_le, hphase⟩ := h
  dsimp only at counted inserts_le removes_le committed_le aborted_le batch_inserts_le batch_removes_le
  cases phase with
  | idle =>
    cases hphase
    cases todo with
    | nil => exact .rest
    | cons task todo => exact .start
  | broken f => exact .broken
  | running t =>
    cases todo with
    | nil => exact absurd rfl hphase
    | cons task todo =>
      simp only [List.length_cons] at counted
      obtain ⟨size, hsize⟩ := Word.exists_plus (a := b.size) (b := 1) (by simp; omega)
      have hgrown : size.toNat = b.size.toNat + 1 := (Word.plus_eq_ok_iff.mp hsize).symm
      simp only [step, advance, hsize]
      rcases hc : C.call t s task.action with ⟨answer, t', s'⟩
      have hcases := attempt_cases C task t s
      simp only [hc] at hcases
      rcases hcases with ⟨hok, ha⟩ | ⟨why, rfl, ha⟩ | ⟨f, rfl, ha⟩
      · obtain ⟨b', hb, hbsize, hi, hr⟩ := exists_extend hgrown batch_inserts_le batch_removes_le
          (Call.inserts ⟨task.action, answer⟩) (Call.removes ⟨task.action, answer⟩)
        rw [ha]
        simp only [hb]
        exact .carry hc hok (hbsize ▸ hgrown) hi hr
      · obtain ⟨stats', hst⟩ := Stats.exists_abort stats { b with size } (by simp; omega) (by omega)
        rw [ha]
        simp only [hst, settled]
        exact .refuse hc hgrown hst
      · rw [ha]
        exact .breakOff hc hgrown
  | closing t =>
    change 0 < b.size.toNat at hphase
    simp only [step, close]
    rcases hc : C.commit t s with ⟨reply, s'⟩
    cases reply with
    | value =>
      obtain ⟨stats', hst⟩ := Stats.exists_commit stats b (by omega) (by omega) (by omega) (by omega)
      simp only [hst, settled]
      exact .commit hc hst
    | abort why =>
      obtain ⟨stats', hst⟩ := Stats.exists_abort stats b (by omega) (by omega)
      simp only [hst, settled]
      exact .fail hc hst
    | fault f => exact .breakCommit hc

/-- A worker goes on with its transaction only if it has a task to do in it. -/
theorem ne_nil_of_not_isFull {b : Batch} {todo : List Task} (h : isFull limit b todo = false) : todo ≠ [] := by
  rintro rfl
  simp [isFull] at h

/-- Every move keeps the accounts. -/
theorem Move.accounts (hm : Move C limit w s w' s') (h : Accounts slice w) : Accounts slice w' := by
  obtain ⟨counted, inserts_le, removes_le, committed_le, aborted_le, batch_inserts_le, batch_removes_le, phase⟩ := h
  cases hm with
  | rest | broken =>
    exact ⟨counted, inserts_le, removes_le, committed_le, aborted_le, batch_inserts_le, batch_removes_le, phase⟩
  | start =>
    exact ⟨counted, inserts_le, removes_le, committed_le, aborted_le, batch_inserts_le, batch_removes_le, nofun⟩
  | @carry task todo b b' stats t t' s s' answer called ok size inserts removes =>
    have hbit : ∀ bit : Bool, (if bit then 1 else 0) ≤ 1 := by decide
    have hi := hbit (Call.inserts ⟨task.action, answer⟩)
    have hr := hbit (Call.removes ⟨task.action, answer⟩)
    simp only [List.length_cons] at counted batch_inserts_le batch_removes_le
    refine ⟨?_, inserts_le, removes_le, committed_le, aborted_le, ?_, ?_, ?_⟩
    · dsimp only
      omega
    · dsimp only
      omega
    · dsimp only
      omega
    · cases hfull : isFull limit b' todo with
      | true =>
        simp only [if_true]
        omega
      | false => exact ne_nil_of_not_isFull hfull
  | refuse called grown counting =>
    obtain ⟨hs, hf, hi, hr, hc, ha⟩ := Stats.count_of_abort counting
    simp only [List.length_cons] at counted inserts_le removes_le committed_le aborted_le hf
    refine ⟨?_, ?_, ?_, ?_, ?_, Nat.le_refl _, Nat.le_refl _, rfl⟩ <;> simp <;> omega
  | breakOff called grown =>
    simp only [List.length_cons] at counted batch_inserts_le batch_removes_le
    refine ⟨?_, inserts_le, removes_le, committed_le, aborted_le, ?_, ?_, trivial⟩ <;> dsimp only <;> omega
  | commit committed counting =>
    obtain ⟨hs, hf, hi, hr, hc, ha⟩ := Stats.count_of_commit counting
    simp only at counted inserts_le removes_le committed_le aborted_le batch_inserts_le batch_removes_le phase
    refine ⟨?_, ?_, ?_, ?_, ?_, Nat.le_refl _, Nat.le_refl _, rfl⟩ <;> simp <;> omega
  | fail committed counting =>
    obtain ⟨hs, hf, hi, hr, hc, ha⟩ := Stats.count_of_abort counting
    simp only at counted inserts_le removes_le committed_le aborted_le phase
    refine ⟨?_, ?_, ?_, ?_, ?_, Nat.le_refl _, Nat.le_refl _, rfl⟩ <;> simp <;> omega
  | breakCommit committed =>
    exact ⟨counted, inserts_le, removes_le, committed_le, aborted_le, batch_inserts_le, batch_removes_le, trivial⟩

/-- How many calls a worker may still make before it is finished. -/
def effort {T : Type} (w : Worker T) : Nat :=
  match w.phase with
  | .idle => 3 * w.todo.length
  | .running _ => 3 * w.todo.length - 1
  | .closing _ => 3 * w.todo.length + 1
  | .broken _ => 0

/-- Every move uses up effort, as long as there is any. -/
theorem Move.effort_le (hm : Move C limit w s w' s') : w'.effort ≤ w.effort - 1 := by
  cases hm with
  | rest | broken | breakOff | breakCommit => exact Nat.zero_le _
  | commit | fail => exact Nat.le_refl _
  | start =>
    simp only [effort]
    omega
  | @carry task todo b b' stats t t' s s' answer called ok size inserts removes =>
    cases hfull : isFull limit b' todo with
    | true =>
      simp only [effort, if_true, List.length_cons]
      omega
    | false =>
      simp only [effort, Bool.false_eq_true, if_false, List.length_cons]
      omega
  | refuse =>
    simp only [effort, List.length_cons]
    omega

/-- Whether a worker is between two batches and has nothing left to do. -/
def finished {T : Type} (w : Worker T) : Bool :=
  match w.phase, w.todo with
  | .idle, [] => true
  | _, _ => false

/-- A worker that did not break off and has no effort left is finished. -/
theorem finished_of_effort (h : Accounts slice w) (hw : ∀ f, w.phase ≠ .broken f) (he : w.effort = 0) : w.finished := by
  obtain ⟨todo, phase, b, stats⟩ := w
  have hphase := h.phase
  cases phase with
  | idle =>
    cases todo with
    | nil => rfl
    | cons task todo => simp [effort] at he
  | running t =>
    cases todo with
    | nil => exact absurd rfl hphase
    | cons task todo =>
      simp only [effort, List.length_cons] at he
      omega
  | closing t => simp [effort] at he
  | broken f => exact absurd rfl (hw f)

/-- A worker that is finished has counted each of its tasks. -/
theorem counted_of_finished (h : Accounts slice w) (hw : w.finished) :
    w.stats.count .succeeded + w.stats.count .failed = slice.length := by
  obtain ⟨todo, phase, b, stats⟩ := w
  have hcounted := h.counted
  have hphase := h.phase
  cases phase with
  | running | closing | broken => cases todo <;> cases hw
  | idle =>
    cases todo with
    | cons => cases hw
    | nil =>
      cases hphase
      exact hcounted

/-- A worker that is finished reports what it has counted. -/
theorem report_of_finished (h : Accounts slice w) (hw : w.finished) (hlen : slice.length < 2 ^ 64) :
    w.report slice.length = .ok w.stats := by
  have hcounted := counted_of_finished h hw
  obtain ⟨ops, hops⟩ := Word.exists_plus (a := w.stats.succeeded) (b := w.stats.failed) (lt_of_eq_of_lt hcounted hlen)
  have hexact : ops.toNat = slice.length := (Word.plus_eq_ok_iff.mp hops).symm.trans hcounted
  obtain ⟨todo, phase, b, stats⟩ := w
  cases phase with
  | running | closing | broken => cases todo <;> cases hw
  | idle =>
    simp only [report, Stats.ops, hops]
    exact if_pos hexact

end Worker

end TxnBench
