import Mathlib.Algebra.Ring.Int.Defs
import Mathlib.Algebra.Ring.Nat
import Mathlib.Data.List.Basic
import Mathlib.Logic.ExistsUnique
import TxnBench.Partition

/-!
# Slices

The tasks are cut at the numbers `cut tasks workers i`, which ascend from zero to the number of tasks, so they are words as
the tasks are, and no product on the way to them leaves its double word (`edge_eq`). Every worker is thus given a slice
(`all_eq`), and the slices put together are the tasks (`flatMap_of_given`): every task is in the slice of just one worker, and
the slices are as long as each other but for one task (`splits_exactly`).
-/

namespace TxnBench.Slice

/-- How many tasks the first `i` workers are given. -/
def cut (tasks workers i : Nat) : Nat :=
  i * tasks / workers

theorem cut_zero (tasks workers : Nat) : cut tasks workers 0 = 0 := by
  simp [cut]

theorem cut_self (tasks : Nat) {workers : Nat} (h : 0 < workers) : cut tasks workers workers = tasks :=
  Nat.mul_div_cancel_left tasks h

theorem cut_le_cut (tasks workers : Nat) {i j : Nat} (h : i ≤ j) : cut tasks workers i ≤ cut tasks workers j :=
  Nat.div_le_div_right (Nat.mul_le_mul_right tasks h)

/-- No worker is given tasks that there are not. -/
theorem cut_le (tasks : Nat) {workers i : Nat} (h : i ≤ workers) : cut tasks workers i ≤ tasks := by
  unfold cut
  exact Nat.div_le_of_le_mul (Nat.mul_le_mul_right tasks h)

/-- Every task among those of the first workers is in the slice of one of them. -/
theorem exists_cut_le {tasks workers count index : Nat} (h : index < cut tasks workers count) :
    ∃ i < count, cut tasks workers i ≤ index ∧ index < cut tasks workers (i + 1) := by
  induction count with
  | zero =>
    rw [cut_zero] at h
    exact absurd h (Nat.not_lt_zero index)
  | succ count ih =>
    by_cases hbefore : index < cut tasks workers count
    · obtain ⟨i, hi, hslice⟩ := ih hbefore
      exact ⟨i, Nat.lt_succ_of_lt hi, hslice⟩
    · exact ⟨count, Nat.lt_succ_self count, Nat.not_lt.mp hbefore, h⟩

/-- No task is in the slices of two workers. -/
theorem eq_of_cut_le {tasks workers index i j : Nat} (hi : cut tasks workers i ≤ index)
    (hi' : index < cut tasks workers (i + 1)) (hj : cut tasks workers j ≤ index)
    (hj' : index < cut tasks workers (j + 1)) : i = j := by
  rcases Nat.lt_trichotomy i j with h | h | h
  · have hle := cut_le_cut tasks workers (show i + 1 ≤ j from h)
    omega
  · exact h
  · have hle := cut_le_cut tasks workers (show j + 1 ≤ i from h)
    omega

/-- A slice has its even share of the tasks, rounded down or up. -/
theorem cut_succ (tasks : Nat) {workers : Nat} (h : 0 < workers) (i : Nat) :
    cut tasks workers (i + 1) = cut tasks workers i + tasks / workers ∨
      cut tasks workers (i + 1) = cut tasks workers i + (tasks + workers - 1) / workers := by
  have hsum : cut tasks workers (i + 1) = cut tasks workers i + tasks / workers +
      if workers ≤ i * tasks % workers + tasks % workers then 1 else 0 := by
    unfold cut
    rw [Nat.succ_mul, Nat.add_div h]
  split at hsum
  · rename_i hcarry
    -- What is left over of the tasks is not nothing, so rounding up adds one.
    have hleft := Nat.mod_lt (i * tasks) h
    have hshort := Nat.mod_lt tasks h
    have hup : tasks + workers - 1 = tasks % workers - 1 + workers * (tasks / workers + 1) := by
      have hdiv := Nat.div_add_mod tasks workers
      rw [Nat.mul_succ]
      omega
    have hceil : (tasks + workers - 1) / workers = tasks / workers + 1 := by
      rw [hup, Nat.add_mul_div_left _ _ h, Nat.div_eq_of_lt (by omega), Nat.zero_add]
    exact Or.inr (by rw [hsum, hceil, Nat.add_assoc])
  · exact Or.inl hsum

/-- How many tasks the first `i` of `workers` workers are given, as a word. -/
def bound (tasks workers i : UInt64) : UInt64 :=
  UInt64.ofNat (i.toNat * tasks.toNat / workers.toNat)

/-- The slice of worker `i`. -/
def given (tasks workers : UInt64) (i : Nat) : Slice :=
  ⟨bound tasks workers (UInt64.ofNat i), bound tasks workers (UInt64.ofNat (i + 1))⟩

variable {tasks workers : UInt64} {i : Nat}

/-- The number of a worker is a word, and so is that of the one after the last. -/
theorem toNat_ofNat_of_le (h : i ≤ workers.toNat) : (UInt64.ofNat i).toNat = i :=
  UInt64.toNat_ofNat_of_lt' (Nat.lt_of_le_of_lt h workers.toNat_lt)

/-- A bound is a word, since it is no more than the tasks. -/
theorem toNat_bound (h : i ≤ workers.toNat) :
    (bound tasks workers (UInt64.ofNat i)).toNat = cut tasks.toNat workers.toNat i := by
  have ht := tasks.toNat_lt
  have hcut := cut_le tasks.toNat h
  unfold bound
  rw [toNat_ofNat_of_le h]
  exact UInt64.toNat_ofNat_of_lt' (show cut tasks.toNat workers.toNat i < 2 ^ 64 by omega)

theorem toNat_start_given (h : i ≤ workers.toNat) :
    (given tasks workers i).start.toNat = cut tasks.toNat workers.toNat i :=
  toNat_bound h

theorem toNat_stop_given (h : i < workers.toNat) :
    (given tasks workers i).stop.toNat = cut tasks.toNat workers.toNat (i + 1) :=
  toNat_bound h

/-- The product that an edge is a quotient of fits in a double word, and the quotient in the lower half. -/
theorem edge_eq (tasks : UInt64) (h : i ≤ workers.toNat) :
    edge tasks workers (UInt64.ofNat i) = .ok (bound tasks workers (UInt64.ofNat i)) := by
  have hcut : (bound tasks workers (UInt64.ofNat i)).toNat = _ := toNat_bound h
  obtain ⟨product, hproduct, hexact⟩ := Word.exists_timesDouble (UInt64.ofNat i) tasks
  have hquotient : (product / Word.widen workers).toNat = cut tasks.toNat workers.toNat i := by
    rw [BitVec.toNat_udiv, hexact, toNat_ofNat_of_le h, Word.toNat_widen]
    rfl
  have hlower : Word.lower (product / Word.widen workers) = bound tasks workers (UInt64.ofNat i) := by
    have hword : (product / Word.widen workers).toNat < 2 ^ 64 := by
      rw [hquotient, ← hcut]
      exact UInt64.toNat_lt _
    rw [← UInt64.toNat_inj, Word.toNat_lower hword, hquotient, hcut]
  simp only [edge, hproduct]
  exact congrArg Except.ok hlower

/-- Every worker is given its slice. -/
theorem ofWorker_eq (tasks : UInt64) (h : i < workers.toNat) :
    ofWorker tasks workers (UInt64.ofNat i) = .ok (given tasks workers i) := by
  have hi : (UInt64.ofNat i).toNat = i := toNat_ofNat_of_le (Nat.le_of_lt h)
  have hnext : (UInt64.ofNat (i + 1)).toNat = i + 1 := toNat_ofNat_of_le (show i + 1 ≤ workers.toNat from h)
  have hexists : 0 < workers ∧ UInt64.ofNat i < workers := by
    constructor
    · exact UInt64.lt_iff_toNat_lt.mpr (Nat.lt_of_le_of_lt (Nat.zero_le i) h)
    · exact UInt64.lt_iff_toNat_lt.mpr (by rwa [hi])
  have hplus : Word.plus (UInt64.ofNat i) 1 = .ok (UInt64.ofNat (i + 1)) :=
    Word.plus_eq_ok_iff.mpr (by rw [hi, hnext]; rfl)
  have hstart := edge_eq tasks (Nat.le_of_lt h)
  have hstop := edge_eq tasks (show i + 1 ≤ workers.toNat from h)
  simp only [ofWorker, hexists, and_self, not_true_eq_false, if_false]
  exact bind_eq_ok_iff.mpr ⟨_, hstart, bind_eq_ok_iff.mpr ⟨_, hplus, bind_eq_ok_iff.mpr ⟨_, hstop, rfl⟩⟩⟩

/-- All workers are given their slices. -/
theorem all_eq (tasks workers : UInt64) :
    all tasks workers = .ok ((List.range workers.toNat).map (given tasks workers)) := by
  have hmap : ∀ l : List Nat, (∀ i ∈ l, i < workers.toNat) →
      l.mapM (fun i => ofWorker tasks workers (UInt64.ofNat i)) = .ok (l.map (given tasks workers)) := by
    intro l hl
    induction l with
    | nil => rfl
    | cons i rest ih =>
      rw [List.mapM_cons, ofWorker_eq tasks (hl i List.mem_cons_self), ih fun j hj => hl j (List.mem_cons_of_mem i hj)]
      rfl
  exact hmap _ fun i hi => List.mem_range.mp hi

variable {α : Type} {l : List α}

theorem of_given (l : List α) (h : i < workers.toNat) :
    (given tasks workers i).of l =
      (l.take (cut tasks.toNat workers.toNat (i + 1))).drop (cut tasks.toNat workers.toNat i) := by
  unfold of
  rw [toNat_start_given (Nat.le_of_lt h), toNat_stop_given h]

/-- A worker is given as many tasks as its slice says. -/
theorem length_of_given (hl : l.length = tasks.toNat) (h : i < workers.toNat) :
    ((given tasks workers i).of l).length = (given tasks workers i).stop.toNat - (given tasks workers i).start.toNat := by
  have hcut : cut tasks.toNat workers.toNat (i + 1) ≤ tasks.toNat := cut_le tasks.toNat h
  rw [of_given l h, toNat_start_given (Nat.le_of_lt h), toNat_stop_given h, List.length_drop, List.length_take, hl]
  omega

/-- The slices of the first workers, put together, are the first tasks. -/
theorem flatMap_of_given (l : List α) {count : Nat} (h : count ≤ workers.toNat) :
    ((List.range count).flatMap fun i => (given tasks workers i).of l) = l.take (cut tasks.toNat workers.toNat count) := by
  induction count with
  | zero => simp [cut_zero]
  | succ count ih =>
    have hle := cut_le_cut tasks.toNat workers.toNat (Nat.le_succ count)
    have htake : l.take (cut tasks.toNat workers.toNat count) =
        (l.take (cut tasks.toNat workers.toNat (count + 1))).take (cut tasks.toNat workers.toNat count) := by
      rw [List.take_take, Nat.min_eq_left hle]
    rw [List.range_succ, List.flatMap_append, ih (Nat.le_of_succ_le h), List.flatMap_singleton, of_given l h, htake,
      List.take_append_drop]

/-- The slices of all workers, put together, are the tasks. -/
theorem flatten_of_all (hl : l.length = tasks.toNat) (hw : 0 < workers.toNat) :
    (((List.range workers.toNat).map (given tasks workers)).map fun slice => slice.of l).flatten = l := by
  have hall : ((List.range workers.toNat).flatMap fun i => (given tasks workers i).of l) = _ :=
    flatMap_of_given l (Nat.le_refl workers.toNat)
  rw [cut_self _ hw, ← hl, List.take_length, List.flatMap_def] at hall
  rw [List.map_map]
  exact hall

/-! ## The tasks split among all workers -/

/-- The worker of a number is given its slice. -/
theorem ofWorker_of_lt (tasks : UInt64) {i : UInt64} (h : i < workers) :
    ofWorker tasks workers i = .ok (given tasks workers i.toNat) ∧
      (given tasks workers i.toNat).start.toNat = cut tasks.toNat workers.toNat i.toNat ∧
      (given tasks workers i.toNat).stop.toNat = cut tasks.toNat workers.toNat (i.toNat + 1) := by
  have hi : i.toNat < workers.toNat := UInt64.lt_iff_toNat_lt.mp h
  have hgiven := ofWorker_eq tasks hi
  rw [UInt64.ofNat_toNat] at hgiven
  exact ⟨hgiven, toNat_start_given (Nat.le_of_lt hi), toNat_stop_given hi⟩

/-- The index of every task is in the slice of just one worker. -/
theorem existsUnique_given {index : UInt64} (hw : 0 < workers.toNat) (h : index < tasks) :
    ∃! i : UInt64, i < workers ∧ (given tasks workers i.toNat).start ≤ index ∧
      index < (given tasks workers i.toNat).stop := by
  have hwithin : ∀ i : UInt64, i < workers →
      (((given tasks workers i.toNat).start ≤ index ∧ index < (given tasks workers i.toNat).stop) ↔
        cut tasks.toNat workers.toNat i.toNat ≤ index.toNat ∧
          index.toNat < cut tasks.toNat workers.toNat (i.toNat + 1)) := by
    intro i hi
    obtain ⟨-, hstart, hstop⟩ := ofWorker_of_lt tasks hi
    rw [UInt64.le_iff_toNat_le, UInt64.lt_iff_toNat_lt, hstart, hstop]
  have hcut : index.toNat < cut tasks.toNat workers.toNat workers.toNat := by
    rw [cut_self _ hw]
    exact UInt64.lt_iff_toNat_lt.mp h
  obtain ⟨i, hi, hslice⟩ := exists_cut_le hcut
  have hword : (UInt64.ofNat i).toNat = i := toNat_ofNat_of_le (Nat.le_of_lt hi)
  have hworker : UInt64.ofNat i < workers := UInt64.lt_iff_toNat_lt.mpr (by rwa [hword])
  refine ⟨UInt64.ofNat i, ⟨hworker, (hwithin _ hworker).mpr (by rwa [hword])⟩, ?_⟩
  rintro j ⟨hj, hslice'⟩
  obtain ⟨hfrom, hto⟩ := (hwithin j hj).mp hslice'
  rw [← UInt64.toNat_inj, hword]
  exact eq_of_cut_le hfrom hto hslice.1 hslice.2

/-- The tasks are split exactly. Whatever their number and that of the workers, every worker there is has its slice: neither is
a product too large for a double word nor a quotient for a word, and so its ends are the exact quotients. The first slice begins
at zero, every other where the one before it ends, and the last one ends at the number of tasks; every index of a task is in
just one of them; and each has its even share of the tasks, rounded down or up. -/
theorem splits_exactly (tasks workers : UInt64) (hw : workers ≠ 0) :
    ∃ slice : UInt64 → Slice,
      (∀ i < workers, ofWorker tasks workers i = .ok (slice i) ∧
        (slice i).start.toNat = i.toNat * tasks.toNat / workers.toNat ∧
        (slice i).stop.toNat = (i.toNat + 1) * tasks.toNat / workers.toNat) ∧
      all tasks workers = .ok ((List.range workers.toNat).map fun i => slice (UInt64.ofNat i)) ∧
      (slice 0).start = 0 ∧
      (∀ i j, j < workers → j.toNat = i.toNat + 1 → (slice j).start = (slice i).stop) ∧
      (∀ i, i.toNat + 1 = workers.toNat → (slice i).stop = tasks) ∧
      (∀ index < tasks, ∃! i, i < workers ∧ (slice i).start ≤ index ∧ index < (slice i).stop) ∧
      ∀ i < workers,
        (slice i).stop.toNat = (slice i).start.toNat + tasks.toNat / workers.toNat ∨
          (slice i).stop.toNat = (slice i).start.toNat + (tasks.toNat + workers.toNat - 1) / workers.toNat := by
  have hpos : 0 < workers.toNat := Nat.pos_of_ne_zero fun h => hw (UInt64.toNat_inj.mp h)
  refine ⟨fun i => given tasks workers i.toNat, fun i hi => ofWorker_of_lt tasks hi, ?_, ?_, ?_, ?_, ?_, ?_⟩
  · rw [all_eq]
    refine congrArg Except.ok (List.map_congr_left fun i hi => ?_)
    have hword : (UInt64.ofNat i).toNat = i := toNat_ofNat_of_le (Nat.le_of_lt (List.mem_range.mp hi))
    exact congrArg (given tasks workers) hword.symm
  · have hzero : (given tasks workers 0).start.toNat = 0 := (toNat_start_given (Nat.zero_le _)).trans (cut_zero _ _)
    exact UInt64.toNat_inj.mp hzero
  · intro i j hj hnext
    have hi : i < workers := by
      rw [UInt64.lt_iff_toNat_lt] at hj ⊢
      omega
    obtain ⟨-, -, hstop⟩ := ofWorker_of_lt tasks hi
    obtain ⟨-, hstart, -⟩ := ofWorker_of_lt tasks hj
    rw [← UInt64.toNat_inj, hstart, hstop, hnext]
  · intro i hlast
    have hi : i < workers := UInt64.lt_iff_toNat_lt.mpr (by omega)
    obtain ⟨-, -, hstop⟩ := ofWorker_of_lt tasks hi
    rw [← UInt64.toNat_inj, hstop, hlast, cut_self _ hpos]
  · intro index hindex
    exact existsUnique_given hpos hindex
  · intro i hi
    obtain ⟨-, hstart, hstop⟩ := ofWorker_of_lt tasks hi
    rw [hstart, hstop]
    exact cut_succ _ hpos _

/-- As many tasks as there can be, split among half as many workers and one more: the last worker is given the last two
tasks, and the task in the middle is given to one worker and no other. -/
theorem most_tasks_split :
    let tasks : UInt64 := 18446744073709551615
    let workers : UInt64 := 9223372036854775809
    workers ≠ 0 ∧ ∃ slice : UInt64 → Slice,
      (∀ i < workers, ofWorker tasks workers i = .ok (slice i)) ∧
      slice 9223372036854775808 = ⟨18446744073709551613, 18446744073709551615⟩ ∧
      ∃! i, i < workers ∧ (slice i).start ≤ 9223372036854775807 ∧ 9223372036854775807 < (slice i).stop := by
  intro tasks workers
  obtain ⟨slice, hslices, -, -, -, -, hunique, -⟩ := splits_exactly tasks workers (by decide)
  refine ⟨by decide, slice, fun i hi => (hslices i hi).1, ?_, hunique _ (by decide)⟩
  have hlast : ofWorker tasks workers 9223372036854775808 = .ok ⟨18446744073709551613, 18446744073709551615⟩ := by
    decide +kernel
  exact Except.ok.inj ((hslices _ (by decide)).1.symm.trans hlast)

end TxnBench.Slice
