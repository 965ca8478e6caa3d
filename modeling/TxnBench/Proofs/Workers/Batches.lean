import TxnBench.Bench.Workers
import TxnBench.Proofs.Workers.Moves

/-!
# The batches of a worker

What a worker does with its slice, told batch by batch and not call by call. A batch is `Opened` as a transaction, in which
tasks are carried out one after another, and is `Attempted` once it has come to its end: committed, turned down, or broken
off. A `Course` is all that a worker attempts, from the state in which it begins to the state that it leaves.

Whatever the collection answers, what the steps of a worker do is a course (`Underway.move`), which covers its whole slice
unless the collection broke off, and of which it reports what each batch counts for (`exists_course`).
-/

namespace TxnBench

/-- What became of a batch. -/
inductive Fate where
  | committed
  /-- It was turned down, at its last task or at its commit. -/
  | turnedDown
  /-- The collection broke off, at its last task or at its commit. -/
  | broken
  deriving DecidableEq, Repr

/-- A batch that has come to its end. -/
structure Attempt where
  /-- The tasks attempted, each with what the collection answered. -/
  made : List (Task × Answer UInt64)
  fate : Fate
  deriving DecidableEq, Repr

namespace Attempt

/-- The tasks of a batch. -/
def tasks (a : Attempt) : List Task :=
  a.made.map Prod.fst

/-- The calls that tasks asked for, with the answers to them. -/
def callsOf (made : List (Task × Answer UInt64)) : List (Call UInt64 UInt64) :=
  made.map fun e => ⟨e.1.action, e.2⟩

/-- What a batch counts for. -/
def count (a : Attempt) (c : Counter) : Nat :=
  match a.fate, c with
  | .committed, .succeeded | .turnedDown, .failed => a.made.length
  | .committed, .inserts => insertions (callsOf a.made)
  | .committed, .removes => removals (callsOf a.made)
  | .committed, .committed | .turnedDown, .aborted => 1
  | _, _ => 0

/-- The batches that were committed. -/
def kept (attempts : List Attempt) : List Attempt :=
  attempts.filter fun a => a.fate = .committed

/-- The calls of the batches that were committed. -/
def keptCalls (attempts : List Attempt) : List (Call UInt64 UInt64) :=
  (kept attempts).flatMap fun a => callsOf a.made

theorem callsOf_append (first rest : List (Task × Answer UInt64)) :
    callsOf (first ++ rest) = callsOf first ++ callsOf rest :=
  List.map_append

theorem map_action_callsOf (made : List (Task × Answer UInt64)) :
    (callsOf made).map Call.action = (made.map Prod.fst).map Task.action := by
  simp [callsOf, Function.comp_def]

theorem kept_append (first rest : List Attempt) : kept (first ++ rest) = kept first ++ kept rest :=
  List.filter_append ..

theorem kept_of_committed {attempts : List Attempt} (h : ∀ a ∈ attempts, a.fate = .committed) : kept attempts = attempts :=
  List.filter_eq_self.mpr fun a ha => decide_eq_true (h a ha)

theorem keptCalls_append (first rest : List Attempt) : keptCalls (first ++ rest) = keptCalls first ++ keptCalls rest := by
  rw [keptCalls, kept_append, List.flatMap_append]
  rfl

theorem keptCalls_of_committed {a : Attempt} (h : a.fate = .committed) : keptCalls [a] = callsOf a.made := by
  simp [keptCalls, kept, h]

/-- The calls kept are those that the tasks kept asked for. -/
theorem map_action_keptCalls (attempts : List Attempt) :
    (keptCalls attempts).map Call.action = ((kept attempts).flatMap tasks).map Task.action := by
  simp only [keptCalls, List.map_flatMap, map_action_callsOf, tasks]

/-- A counter that counts calls of some kind in each batch that is committed counts them in all such batches together. -/
theorem sum_count_eq_countP {c : Counter} {p : Call UInt64 UInt64 → Bool}
    (h : ∀ a : Attempt, a.count c = (keptCalls [a]).countP p) (attempts : List Attempt) :
    (attempts.map fun a => a.count c).sum = (keptCalls attempts).countP p := by
  induction attempts with
  | nil => rfl
  | cons a rest ih =>
    have hsplit : keptCalls (a :: rest) = keptCalls [a] ++ keptCalls rest := keptCalls_append [a] rest
    rw [List.map_cons, List.sum_cons, ih, h a, hsplit, List.countP_append]

/-- What batches count as inserted is what those inserted that were committed. -/
theorem sum_count_inserts (attempts : List Attempt) :
    (attempts.map fun a => a.count .inserts).sum = insertions (keptCalls attempts) := by
  refine sum_count_eq_countP ?_ attempts
  rintro ⟨made, fate⟩
  cases fate with
  | committed =>
    rw [keptCalls_of_committed rfl]
    rfl
  | turnedDown | broken => rfl

/-- What batches count as removed is what those removed that were committed. -/
theorem sum_count_removes (attempts : List Attempt) :
    (attempts.map fun a => a.count .removes).sum = removals (keptCalls attempts) := by
  refine sum_count_eq_countP ?_ attempts
  rintro ⟨made, fate⟩
  cases fate with
  | committed =>
    rw [keptCalls_of_committed rfl]
    rfl
  | turnedDown | broken => rfl

end Attempt

namespace Worker

/-- Whether a batch of so many tasks is to be committed before the next of the tasks to come. -/
def Closes (limit : UInt64) (size : Nat) (todo : List Task) : Prop :=
  (limit ≠ 0 ∧ size = limit.toNat) ∨ todo = []

/-- Whether a batch of so many tasks may have one more. -/
def HasRoom (limit : UInt64) (size : Nat) : Prop :=
  limit = 0 ∨ size < limit.toNat

variable (C : Collection UInt64 UInt64) (limit : UInt64)

/-- A transaction opened in the state `s₀`, in which tasks have been carried out one after another. -/
inductive Opened (s₀ : C.State) : List (Task × Answer UInt64) → C.Txn → C.State → Prop where
  | start : Opened s₀ [] (C.start s₀).1 (C.start s₀).2
  | carry {made task answer t t' s s'} (before : Opened s₀ made t s) (room : HasRoom limit made.length)
    (called : C.call t s task.action = (answer, t', s')) (ok : answer.isSuccess) :
    Opened s₀ (made ++ [(task, answer)]) t' s'

/-- A batch attempted in the state `s₀`, with the tasks `todo` left to do after it. -/
inductive Attempted (todo : List Task) (s₀ : C.State) : Attempt → C.State → Prop where
  /-- It is committed. -/
  | commit {made t s s'} (opened : Opened C limit s₀ made t s) (filled : made ≠ [])
    (closes : Closes limit made.length todo) (committed : C.commit t s = (.value (), s')) :
    Attempted todo s₀ ⟨made, .committed⟩ s'
  /-- It is turned down at its commit. -/
  | fail {made t s s' why} (opened : Opened C limit s₀ made t s) (filled : made ≠ [])
    (closes : Closes limit made.length todo) (committed : C.commit t s = (.abort why, s')) :
    Attempted todo s₀ ⟨made, .turnedDown⟩ s'
  /-- It is turned down at a task, which is its last. -/
  | refuse {made task t t' s s' why} (opened : Opened C limit s₀ made t s) (room : HasRoom limit made.length)
    (called : C.call t s task.action = (.aborted why, t', s')) :
    Attempted todo s₀ ⟨made ++ [(task, .aborted why)], .turnedDown⟩ (C.drop t' s')
  /-- The collection breaks off at a task. -/
  | breakOff {made task t t' s s' f} (opened : Opened C limit s₀ made t s) (room : HasRoom limit made.length)
    (called : C.call t s task.action = (.faulted f, t', s')) :
    Attempted todo s₀ ⟨made ++ [(task, .faulted f)], .broken⟩ (C.drop t' s')
  /-- The collection breaks off at the commit. -/
  | breakCommit {made t s s' f} (opened : Opened C limit s₀ made t s) (filled : made ≠ [])
    (closes : Closes limit made.length todo) (committed : C.commit t s = (.fault f, s')) :
    Attempted todo s₀ ⟨made, .broken⟩ s'

/-- Batches attempted one after another from the state `s₀` on, of the tasks of a slice, with those left to do after them.
After a batch in which the collection broke off there is none. -/
inductive Course (s₀ : C.State) (slice : List Task) : List Attempt → List Task → C.State → Prop where
  | fresh : Course s₀ slice [] slice s₀
  | next {done a todo s s'} (before : Course s₀ slice done (a.tasks ++ todo) s) (whole : ∀ b ∈ done, b.fate ≠ .broken)
    (attempted : Attempted C limit todo s a s') : Course s₀ slice (done ++ [a]) todo s'

/-- A batch in progress has the sizes of what was carried out in it. -/
structure Tallies (b : Batch) (made : List (Task × Answer UInt64)) : Prop where
  size : b.size.toNat = made.length
  inserts : b.inserts.toNat = insertions (Attempt.callsOf made)
  removes : b.removes.toNat = removals (Attempt.callsOf made)

/-- A worker in the state `s` that was given a slice in the state `s₀`, and has come to the end of the batches `done`. -/
structure Underway (s₀ : C.State) (slice : List Task) (w : Worker C.Txn) (s : C.State) (done : List Attempt) : Prop where
  accounts : Accounts slice w
  counted : ∀ c, w.stats.count c = (done.map fun a => a.count c).sum
  /-- No batch broke off before the one in progress. -/
  whole : (∀ f, w.phase ≠ .broken f) → ∀ a ∈ done, a.fate ≠ .broken
  phase : match w.phase with
    | .idle => Course C limit s₀ slice done w.todo s
    | .running t => ∃ s₁ made, Course C limit s₀ slice done (made.map Prod.fst ++ w.todo) s₁ ∧
        Opened C limit s₁ made t s ∧ Tallies w.batch made ∧ HasRoom limit made.length
    | .closing t => ∃ s₁ made, Course C limit s₀ slice done (made.map Prod.fst ++ w.todo) s₁ ∧
        Opened C limit s₁ made t s ∧ Tallies w.batch made ∧ made ≠ [] ∧ Closes limit made.length w.todo
    | .broken _ => Course C limit s₀ slice done w.todo s ∧ ∃ a ∈ done, a.fate = .broken

variable {C limit} {slice todo : List Task} {w w' : Worker C.Txn} {s₀ s s' : C.State} {done : List Attempt}

/-- A batch is full exactly if it is to be committed. -/
theorem isFull_iff {b : Batch} {made : List (Task × Answer UInt64)} (h : Tallies b made) :
    isFull limit b todo = true ↔ Closes limit made.length todo := by
  simp [isFull, Closes, ← h.size, ← UInt64.toNat_inj]

/-- A batch that is not yet to be committed may have one more task. -/
theorem hasRoom_of_not_closes {size : Nat} (h : HasRoom limit size) (hc : ¬Closes limit (size + 1) todo) :
    HasRoom limit (size + 1) := by
  unfold HasRoom at h ⊢
  unfold Closes at hc
  by_cases hl : limit = 0
  · exact Or.inl hl
  · have hne : size + 1 ≠ limit.toNat := fun e => hc (Or.inl ⟨hl, e⟩)
    have hlt := h.resolve_left hl
    exact Or.inr (by omega)

/-- No batch has more tasks than the limit says. -/
theorem Opened.length_le {made : List (Task × Answer UInt64)} {t : C.Txn} (h : Opened C limit s₀ made t s)
    (hl : limit ≠ 0) : made.length ≤ limit.toNat := by
  cases h with
  | start => exact Nat.zero_le _
  | carry _ room =>
    have hlt := room.resolve_left hl
    simp only [List.length_append, List.length_singleton]
    omega

/-- The tasks attempted and those left to do are the slice. -/
theorem Course.tasks_eq (h : Course C limit s₀ slice done todo s) : done.flatMap Attempt.tasks ++ todo = slice := by
  induction h with
  | fresh => rfl
  | next before whole attempted ih => simpa using ih

/-- What holds of every batch attempted holds of all batches of a course. -/
theorem Course.forall_of_attempted {P : Attempt → Prop} (hP : ∀ {todo s a s'}, Attempted C limit todo s a s' → P a)
    (h : Course C limit s₀ slice done todo s) : ∀ a ∈ done, P a := by
  induction h with
  | fresh => nofun
  | next before whole attempted ih =>
    intro b hb
    rcases List.mem_append.mp hb with hb | hb
    · exact ih b hb
    · rw [List.mem_singleton.mp hb]
      exact hP attempted

/-! ## How many batches there are -/

/-- How many batches so many tasks make, if each has as many as the limit says but for the last. -/
def batches (limit : UInt64) (tasks : Nat) : Nat :=
  if tasks = 0 then 0 else if limit = 0 then 1 else (tasks + limit.toNat - 1) / limit.toNat

theorem batches_of_ne_zero (hl : limit ≠ 0) (tasks : Nat) :
    batches limit tasks = (tasks + limit.toNat - 1) / limit.toNat := by
  have hpos : 0 < limit.toNat := Nat.pos_of_ne_zero fun e => hl (UInt64.toNat_inj.mp e)
  unfold batches
  rw [if_neg hl]
  split
  · rename_i h
    rw [h, Nat.div_eq_of_lt (by omega)]
  · rfl

/-- A batch that is to be committed is one more than those of the tasks to come. -/
theorem batches_add {size : Nat} (hsize : 0 < size) (hle : limit ≠ 0 → size ≤ limit.toNat)
    (hc : Closes limit size todo) : batches limit (size + todo.length) = 1 + batches limit todo.length := by
  by_cases hl : limit = 0
  · have hnil : todo = [] := hc.resolve_left fun h => h.1 hl
    have hne : size ≠ 0 := Nat.ne_of_gt hsize
    simp [batches, hnil, hl, hne]
  · have hpos : 0 < limit.toNat := Nat.lt_of_lt_of_le hsize (hle hl)
    rw [batches_of_ne_zero hl, batches_of_ne_zero hl]
    rcases hc with ⟨-, rfl⟩ | rfl
    · have hsplit : limit.toNat + todo.length + limit.toNat - 1 = todo.length + limit.toNat - 1 + limit.toNat := by
        omega
      rw [hsplit, Nat.add_div_right _ hpos, Nat.add_comm]
    · have hfits := hle hl
      have hone : size + 0 + limit.toNat - 1 = size - 1 + limit.toNat := by omega
      rw [List.length_nil, hone, Nat.add_div_right _ hpos, Nat.div_eq_of_lt (by omega), Nat.div_eq_of_lt (by omega)]

/-- As long as every batch is committed, each has as many tasks as the limit says but for the last. -/
theorem Course.length_add_batches (h : Course C limit s₀ slice done todo s) (hall : ∀ a ∈ done, a.fate = .committed) :
    done.length + batches limit todo.length = batches limit slice.length := by
  induction h with
  | fresh => exact Nat.zero_add _
  | @next done a todo s s' before whole attempted ih =>
    have hrest := ih fun b hb => hall b (List.mem_append_left _ hb)
    have hfate : a.fate = .committed := hall a (by simp)
    cases attempted with
    | fail | refuse | breakOff | breakCommit => cases hfate
    | @commit made t s s' opened filled closes committed =>
      have hadd := batches_add (List.length_pos_iff.mpr filled) opened.length_le closes
      simp only [Attempt.tasks, List.length_append, List.length_map, List.length_singleton] at hrest ⊢
      omega

/-! ## What the steps of a worker do -/

namespace Underway

/-- A worker that has done nothing is at the beginning of its course. -/
theorem fresh (slice : List Task) (s : C.State) : Underway C limit s slice (Worker.fresh slice) s [] where
  accounts := Accounts.fresh slice
  counted c := Stats.count_empty c
  whole _ := nofun
  phase := .fresh

/-- A worker whose batch has come to its end is between two batches. -/
theorem ended {a : Attempt} {stats stats' : Stats} {s₁ : C.State}
    (ha : Accounts slice (⟨todo, .idle, {}, stats'⟩ : Worker C.Txn))
    (hc : ∀ c, stats.count c = (done.map fun b => b.count c).sum) (hw : ∀ b ∈ done, b.fate ≠ .broken)
    (hstats : ∀ c, stats'.count c = stats.count c + a.count c) (hfate : a.fate ≠ .broken)
    (hcourse : Course C limit s₀ slice done (a.tasks ++ todo) s₁) (hattempted : Attempted C limit todo s₁ a s) :
    Underway C limit s₀ slice ⟨todo, .idle, {}, stats'⟩ s (done ++ [a]) where
  accounts := ha
  counted c := by
    rw [hstats, hc]
    simp
  whole _ := by
    intro b hb
    rcases List.mem_append.mp hb with hb | hb
    · exact hw b hb
    · rw [List.mem_singleton.mp hb]
      exact hfate
  phase := .next hcourse hw hattempted

/-- A worker whose collection breaks off does so in a last batch, which counts for nothing. -/
theorem broke {a : Attempt} {b : Batch} {f : Fault} {stats : Stats} {s₁ : C.State}
    (ha : Accounts slice (⟨todo, .broken f, b, stats⟩ : Worker C.Txn))
    (hc : ∀ c, stats.count c = (done.map fun b => b.count c).sum) (hw : ∀ b ∈ done, b.fate ≠ .broken)
    (hfate : a.fate = .broken) (hcourse : Course C limit s₀ slice done (a.tasks ++ todo) s₁)
    (hattempted : Attempted C limit todo s₁ a s) :
    Underway C limit s₀ slice ⟨todo, .broken f, b, stats⟩ s (done ++ [a]) where
  accounts := ha
  counted c := by
    have hnone : a.count c = 0 := by
      unfold Attempt.count
      rw [hfate]
    rw [hc]
    simp [hnone]
  whole h := absurd rfl (h f)
  phase := ⟨.next hcourse hw hattempted, a, by simp, hfate⟩

/-- Every move of a worker goes on with its course. -/
theorem move (hm : Move C limit w s w' s') (h : Underway C limit s₀ slice w s done) :
    ∃ done', Underway C limit s₀ slice w' s' done' := by
  have ha := hm.accounts h.accounts
  obtain ⟨-, counted, whole, phase⟩ := h
  cases hm with
  | rest => exact ⟨done, ha, counted, whole, phase⟩
  | broken => exact ⟨done, ha, counted, whole, phase⟩
  | start =>
    refine ⟨done, ha, counted, fun _ => whole nofun, _, [], phase, .start, ⟨rfl, rfl, rfl⟩, ?_⟩
    by_cases hl : limit = 0
    · exact Or.inl hl
    · exact Or.inr (Nat.pos_of_ne_zero fun e => hl (UInt64.toNat_inj.mp e))
  | @carry task todo b b' stats t t' _ _ answer called ok size inserts removes =>
    obtain ⟨s₁, made, hcourse, hopened, htallies, hroom⟩ := phase
    have hcourse' : Course C limit s₀ slice done ((made ++ [(task, answer)]).map Prod.fst ++ todo) s₁ := by
      simpa using hcourse
    have hlength : (made ++ [(task, answer)]).length = made.length + 1 := by simp
    have htallies' : Tallies b' (made ++ [(task, answer)]) := by
      refine ⟨?_, ?_, ?_⟩
      · rw [size, htallies.size, hlength]
      · rw [inserts, htallies.inserts, Attempt.callsOf_append]
        exact (insertions_append_singleton ..).symm
      · rw [removes, htallies.removes, Attempt.callsOf_append]
        exact (removals_append_singleton ..).symm
    have hopened' := hopened.carry hroom called ok
    have hfull : Worker.isFull limit b' todo = true ↔ Closes limit (made ++ [(task, answer)]).length todo :=
      isFull_iff htallies'
    refine ⟨done, ha, counted, fun _ => whole nofun, ?_⟩
    cases hf : Worker.isFull limit b' todo with
    | true => exact ⟨s₁, _, hcourse', hopened', htallies', by simp, hfull.mp hf⟩
    | false =>
      have hnot : ¬Closes limit (made.length + 1) todo := by
        rw [← hlength, ← hfull, hf]
        exact Bool.false_ne_true
      exact ⟨s₁, _, hcourse', hopened', htallies', hlength ▸ hasRoom_of_not_closes hroom hnot⟩
  | @refuse task todo b stats stats' size t t' _ s'' why called grown counting =>
    obtain ⟨s₁, made, hcourse, hopened, htallies, hroom⟩ := phase
    obtain ⟨hs, hf, hi, hr, hc, habort⟩ := Stats.count_of_abort counting
    refine ⟨_, ended (a := ⟨made ++ [(task, .aborted why)], .turnedDown⟩) ha counted (whole nofun) ?_ nofun
      (by simpa [Attempt.tasks] using hcourse) (.refuse hopened hroom called)⟩
    intro c
    cases c with
    | failed =>
      have hsize : size.toNat = (made ++ [(task, Answer.aborted why)]).length := by
        rw [grown, htallies.size, List.length_append, List.length_singleton]
      rw [hf]
      exact congrArg (stats.count .failed + ·) hsize
    | succeeded | inserts | removes | committed | aborted => assumption
  | @breakOff task todo b stats size t t' _ _ f called grown =>
    obtain ⟨s₁, made, hcourse, hopened, htallies, hroom⟩ := phase
    exact ⟨_, broke (a := ⟨made ++ [(task, .faulted f)], .broken⟩) ha counted (whole nofun) rfl
      (by simpa [Attempt.tasks] using hcourse) (.breakOff hopened hroom called)⟩
  | @commit todo b stats stats' t _ _ committed counting =>
    obtain ⟨s₁, made, hcourse, hopened, htallies, hfilled, hcloses⟩ := phase
    obtain ⟨hs, hf, hi, hr, hc, habort⟩ := Stats.count_of_commit counting
    refine ⟨_, ended (a := ⟨made, .committed⟩) ha counted (whole nofun) ?_ nofun hcourse
      (.commit hopened hfilled hcloses committed)⟩
    intro c
    cases c with
    | succeeded => rw [hs, htallies.size]; rfl
    | inserts => rw [hi, htallies.inserts]; rfl
    | removes => rw [hr, htallies.removes]; rfl
    | failed | committed | aborted => assumption
  | @fail todo b stats stats' t _ _ why committed counting =>
    obtain ⟨s₁, made, hcourse, hopened, htallies, hfilled, hcloses⟩ := phase
    obtain ⟨hs, hf, hi, hr, hc, habort⟩ := Stats.count_of_abort counting
    refine ⟨_, ended (a := ⟨made, .turnedDown⟩) ha counted (whole nofun) ?_ nofun hcourse
      (.fail hopened hfilled hcloses committed)⟩
    intro c
    cases c with
    | failed => rw [hf, htallies.size]; rfl
    | succeeded | inserts | removes | committed | aborted => assumption
  | @breakCommit todo b stats t _ _ f committed =>
    obtain ⟨s₁, made, hcourse, hopened, htallies, hfilled, hcloses⟩ := phase
    exact ⟨_, broke (a := ⟨made, .broken⟩) ha counted (whole nofun) rfl hcourse
      (.breakCommit hopened hfilled hcloses committed)⟩

/-- Several steps in a row go on with the course of a worker, and use up effort. -/
theorem steps (hlen : slice.length < 2 ^ 64) (n : Nat) (h : Underway C limit s₀ slice w s done) :
    ∃ done', Underway C limit s₀ slice (Worker.steps C limit n w s).1 (Worker.steps C limit n w s).2 done' ∧
      (Worker.steps C limit n w s).1.effort ≤ w.effort - n := by
  induction n generalizing w s done with
  | zero => exact ⟨done, h, Nat.le_refl _⟩
  | succ n ih =>
    have hmove : Move C limit w s _ _ := step_moves h.accounts hlen s
    obtain ⟨done₁, h₁⟩ := h.move hmove
    obtain ⟨done', h', heffort⟩ := ih h₁
    have hstep := hmove.effort_le
    have hsucc : Worker.steps C limit (n + 1) w s =
        Worker.steps C limit n (Worker.step C limit w s).1 (Worker.step C limit w s).2 := rfl
    rw [hsucc]
    exact ⟨done', h', by omega⟩

end Underway

/-- Whether a worker that has attempted batches comes back with a result: it reports what they count for, unless the
collection broke off in one of them. -/
def Reports (attempts : List Attempt) : Except Fault Stats → Prop
  | .ok stats => (∀ a ∈ attempts, a.fate ≠ .broken) ∧ ∀ c, stats.count c = (attempts.map fun a => a.count c).sum
  | .error _ => ∃ a ∈ attempts, a.fate = .broken

namespace Reports

variable {attempts : List Attempt} {stats : Stats}

/-- A worker comes back with a result unless the collection broke off. -/
theorem exists_ok {result : Except Fault Stats} (h : Reports attempts result) (hwhole : ∀ a ∈ attempts, a.fate ≠ .broken) :
    ∃ stats, result = .ok stats ∧ Reports attempts (.ok stats) := by
  cases result with
  | error f =>
    obtain ⟨a, ha, hbroken⟩ := h
    exact absurd hbroken (hwhole a ha)
  | ok stats => exact ⟨stats, rfl, h⟩

theorem inserts (h : Reports attempts (.ok stats)) : stats.inserts.toNat = insertions (Attempt.keptCalls attempts) :=
  (h.2 .inserts).trans (Attempt.sum_count_inserts attempts)

theorem removes (h : Reports attempts (.ok stats)) : stats.removes.toNat = removals (Attempt.keptCalls attempts) :=
  (h.2 .removes).trans (Attempt.sum_count_removes attempts)

end Reports

/-- What a worker does by itself is a course, which it reports, and which covers its whole slice unless the collection broke
off. -/
theorem exists_course (limit : UInt64) {slice : List Task} (hlen : slice.length < 2 ^ 64) (s : C.State) :
    ∃ attempts todo, Course C limit s slice attempts todo (run C limit slice s).2 ∧
      Reports attempts (run C limit slice s).1 ∧ ((∀ a ∈ attempts, a.fate ≠ .broken) → todo = []) := by
  have hfresh : Underway C limit s slice (fresh slice) s [] := .fresh slice s
  obtain ⟨attempts, h, heffort⟩ := hfresh.steps hlen (3 * slice.length)
  rcases hsteps : steps C limit (3 * slice.length) (fresh slice) s with ⟨w, s'⟩
  rw [hsteps] at h heffort
  have hnone : w.effort = 0 := by
    change w.effort ≤ 3 * slice.length - 3 * slice.length at heffort
    omega
  have hrun : run C limit slice s = (w.report slice.length, s') := by
    simp only [run, hsteps]
  obtain ⟨haccounts, hcounted, hwhole, hphase⟩ := h
  rw [hrun]
  by_cases hbroken : ∀ f, w.phase ≠ .broken f
  · have hfinished := finished_of_effort haccounts hbroken hnone
    have hreport := report_of_finished haccounts hfinished hlen
    obtain ⟨todo, phase, b, stats⟩ := w
    cases phase with
    | running | closing | broken => cases todo <;> cases hfinished
    | idle =>
      cases todo with
      | cons => cases hfinished
      | nil =>
        refine ⟨attempts, [], hphase, ?_, fun _ => rfl⟩
        rw [hreport]
        exact ⟨hwhole hbroken, hcounted⟩
  · obtain ⟨f, hf⟩ := not_forall_not.mp hbroken
    rw [hf] at hphase
    obtain ⟨hcourse, a, ha, hfate⟩ := hphase
    refine ⟨attempts, w.todo, hcourse, ?_, fun h => absurd hfate (h a ha)⟩
    have hreport : w.report slice.length = .error f := by
      simp only [report, hf]
      rfl
    rw [hreport]
    exact ⟨a, ha, hfate⟩

end Worker

namespace Workers

/-- What workers attempt that run one after another, each on a slice, from the state `s₀` on: each of them comes to the end of
its slice unless the collection broke off, and the next begins in the state it has left. -/
inductive Courses (C : Collection UInt64 UInt64) (limit : UInt64) :
    C.State → List (List Task) → List (List Attempt) → C.State → Prop where
  | none {s} : Courses C limit s [] [] s
  | one {s s₁ s' slice attempts todo slices rest} (course : Worker.Course C limit s slice attempts todo s₁)
    (whole : (∀ a ∈ attempts, a.fate ≠ .broken) → todo = []) (others : Courses C limit s₁ slices rest s') :
    Courses C limit s (slice :: slices) (attempts :: rest) s'

namespace Courses

variable {C : Collection UInt64 UInt64} {limit : UInt64} {s s' : C.State} {slices : List (List Task)}
  {courses : List (List Attempt)}

/-- What holds of every batch attempted holds of all batches of all workers. -/
theorem forall_of_attempted {P : Attempt → Prop} (hP : ∀ {todo s a s'}, Worker.Attempted C limit todo s a s' → P a)
    (h : Courses C limit s slices courses s') : ∀ attempts ∈ courses, ∀ a ∈ attempts, P a := by
  induction h with
  | none => nofun
  | one course whole others ih =>
    intro attempts hmem
    rcases List.mem_cons.mp hmem with rfl | hmem
    · exact course.forall_of_attempted hP
    · exact ih attempts hmem

/-- Workers attempt no tasks but those they were given. -/
theorem mem_slices_of_mem (h : Courses C limit s slices courses s') {attempts : List Attempt} (hmem : attempts ∈ courses)
    {a : Attempt} (ha : a ∈ attempts) {task : Task} (ht : task ∈ a.tasks) : task ∈ slices.flatten := by
  induction h with
  | none => cases hmem
  | one course whole others ih =>
    rw [List.flatten_cons]
    rcases List.mem_cons.mp hmem with rfl | hmem
    · rw [← course.tasks_eq]
      exact List.mem_append_left _ (List.mem_append_left _ (List.mem_flatMap.mpr ⟨a, ha, ht⟩))
    · exact List.mem_append_right _ (ih hmem)

/-- The tasks that workers attempt are all they were given, if the collection does not break off. -/
theorem tasks_eq (h : Courses C limit s slices courses s') (hw : ∀ attempts ∈ courses, ∀ a ∈ attempts, a.fate ≠ .broken) :
    courses.flatten.flatMap Attempt.tasks = slices.flatten := by
  induction h with
  | none => rfl
  | one course whole others ih =>
    have hnil := whole (hw _ List.mem_cons_self)
    have hslice := course.tasks_eq
    have hrest := ih fun attempts hmem => hw attempts (List.mem_cons_of_mem _ hmem)
    rw [hnil, List.append_nil] at hslice
    rw [List.flatten_cons, List.flatten_cons, List.flatMap_append, hslice, hrest]

end Courses

/-- What workers do that run one after another are courses, each of which its worker reports. -/
theorem exists_courses {C : Collection UInt64 UInt64} (limit : UInt64) {slices : List (List Task)}
    (hlen : ∀ slice ∈ slices, slice.length < 2 ^ 64) (s : C.State) :
    ∃ courses, Courses C limit s slices courses (runEach C limit slices s).2 ∧
      List.Forall₂ Worker.Reports courses (runEach C limit slices s).1 := by
  induction slices generalizing s with
  | nil => exact ⟨[], .none, .nil⟩
  | cons slice rest ih =>
    obtain ⟨attempts, todo, hcourse, hreports, hover⟩ :=
      Worker.exists_course (C := C) limit (hlen slice List.mem_cons_self) s
    obtain ⟨others, hcourses, hall⟩ := ih (fun other hother => hlen other (List.mem_cons_of_mem slice hother))
      (Worker.run C limit slice s).2
    exact ⟨attempts :: others, .one hcourse hover hcourses, .cons hreports hall⟩

end Workers

end TxnBench
